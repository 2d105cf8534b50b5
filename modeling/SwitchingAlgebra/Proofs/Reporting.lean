-- A report is one header and one line for every completion of the assignment, in the order of a
-- table; each line ends in what evaluation gives under its completion.
import SwitchingAlgebra.Report
import SwitchingAlgebra.Proofs.Coupling
import SwitchingAlgebra.Proofs.Tabulating
import SwitchingAlgebra.Proofs.Inheriting
import SwitchingAlgebra.Proofs.Referencing

namespace SwitchingAlgebra

/-! ## Replaced texts -/

namespace Text

/-- No occurrence reaches over a character that the replaced text does not have, so what stands
before and behind it is replaced by itself. -/
theorem replaceFrom_append_cons {old : List Char} (new : List Char) {c : Char} (filled : old ≠ [])
    (apart : c ∉ old) (before after : List Char) {skip : Nat} (h : skip ≤ before.length) :
    replaceFrom old new skip (before ++ c :: after) =
      replaceFrom old new skip before ++ c :: replaceFrom old new 0 after := by
  induction before generalizing skip with
  | nil =>
    obtain rfl := Nat.le_zero.mp h
    have no_prefix : old.isPrefixOf (c :: after) = false := by
      cases old with
      | nil => exact absurd rfl filled
      | cons d old =>
        rw [List.isPrefixOf, beq_false_of_ne (fun same => apart (by simp [same])), Bool.false_and]
    simp only [List.nil_append, replaceFrom, no_prefix]
    rfl
  | cons b before ih =>
    cases skip with
    | succ skip => exact ih (Nat.le_of_succ_le_succ h)
    | zero =>
      have same : old <+: (b :: before) ++ c :: after ↔ old <+: b :: before := by
        refine ⟨fun reaches => ?_, List.prefix_append_of_prefix⟩
        refine List.prefix_of_prefix_length_le reaches (List.prefix_append _ _) ?_
        by_contra longer
        have passed : (b :: before) ++ [c] <+: old := by
          refine List.prefix_of_prefix_length_le ?_ reaches (by simp at longer ⊢; omega)
          exact ⟨after, by simp⟩
        exact apart (passed.subset (by simp))
      simp only [← List.isPrefixOf_iff_prefix, List.cons_append, Bool.coe_iff_coe] at same
      simp only [List.cons_append, replaceFrom, same]
      split
      · rename_i first
        have fits := (List.isPrefixOf_iff_prefix.mp first).length_le
        rw [ih (by simp at fits; omega), List.append_assoc]
      · rw [ih (Nat.zero_le _), List.cons_append]

theorem mem_of_mem_replaceFrom {old new : List Char} {skip : Nat} {text : List Char} {c : Char}
    (h : c ∈ replaceFrom old new skip text) : c ∈ new ∨ c ∈ text := by
  fun_induction replaceFrom old new skip text with
  | case1 => exact .inr h
  | case2 skip d rest ih => exact (ih h).imp_right (List.mem_cons_of_mem _)
  | case3 d rest _ ih =>
    rcases List.mem_append.mp h with h | h
    · exact .inl h
    · exact (ih h).imp_right (List.mem_cons_of_mem _)
  | case4 d rest _ ih =>
    rcases List.mem_cons.mp h with rfl | h
    · exact .inr List.mem_cons_self
    · exact (ih h).imp_right (List.mem_cons_of_mem _)

end Text

/-! ## Characters that no text by values has -/

section

variable {c : Char}

theorem not_mem_getD {text : Option String} (h : ∀ p ∈ text, c ∉ p.toList) :
    c ∉ (text.getD "").toList := by
  cases text with
  | none => simp
  | some p => exact h p rfl

theorem not_mem_intercalate {separator : String} {pieces : List String}
    (hs : c ∉ separator.toList) (hp : ∀ p ∈ pieces, c ∉ p.toList) :
    c ∉ (separator.intercalate pieces).toList := by
  induction pieces with
  | nil => simp
  | cons p pieces ih =>
    rw [List.forall_mem_cons] at hp
    cases pieces with
    | nil => simpa using hp.1
    | cons q pieces =>
      simp only [String.intercalate_cons_cons, String.toList_append, List.mem_append, not_or]
      exact ⟨⟨hp.1, hs⟩, ih hp.2⟩

variable (foreign : c = '\n' ∨ c = '=')

include foreign

theorem not_mem_glyph (op : Operator) : c ∉ op.glyph.toString.toList := by
  rcases foreign with rfl | rfl <;> cases op <;> decide

theorem not_mem_separator (op : Operator) : c ∉ op.separator.toList := by
  rcases foreign with rfl | rfl <;> cases op <;> decide

theorem not_mem_valueText (v : Option Bool) : c ∉ (valueText v).toList := by
  rcases foreign with rfl | rfl <;> rcases v with _ | _ | _ <;> decide

theorem not_mem_negatedText {operands : List Operand} {fragments : List String}
    {acc : Option String} (hf : ∀ p ∈ fragments, c ∉ p.toList) (ha : ∀ p ∈ acc, c ∉ p.toList) :
    ∀ p ∈ negatedText false operands fragments acc, c ∉ p.toList := by
  have signed : ∀ {text : String}, c ∉ text.toList →
      c ∉ (Operator.not.glyph.toString ++ text).toList := by
    intro text h
    simp only [String.toList_append, List.mem_append, not_or]
    exact ⟨not_mem_glyph foreign .not, h⟩
  intro p hp
  unfold negatedText at hp
  split at hp
  · cases hp
    exact signed (ha _ rfl)
  · cases hp
    exact signed (hf _ List.mem_cons_self)
  · cases hp
    exact signed (hf _ List.mem_cons_self)
  · cases hp

theorem not_mem_joinedText {op : Operator} {parens : Bool} {fragments : List String}
    {acc : Option String} (hf : ∀ p ∈ fragments, c ∉ p.toList) (ha : ∀ p ∈ acc, c ∉ p.toList) :
    ∀ p ∈ joinedText op parens fragments acc, c ∉ p.toList := by
  intro p hp
  unfold joinedText at hp
  split at hp
  · cases hp
  · rename_i pieces _
    have joined : c ∉ (op.separator.intercalate (acc.toList ++ fragments)).toList := by
      refine not_mem_intercalate (not_mem_separator foreign op) (List.forall_mem_append.mpr ⟨?_, hf⟩)
      exact fun q hq => ha q (Option.mem_toList.mp hq)
    have bracket : c ≠ '(' ∧ c ≠ ')' := by rcases foreign with rfl | rfl <;> decide
    cases hp
    split
    · simpa [bracket] using joined
    · exact joined

theorem not_mem_textAll {scope : Bindings} {parens : Bool} {d : Nat} {ts : List Term}
    {acc : Option String} (ha : ∀ p ∈ acc, c ∉ p.toList)
    (h : ∀ t ∈ ts, ∀ x ∈ t.operands, c ∉ (x.textIn scope false d).toList) :
    ∀ p ∈ Term.textAll scope false parens d ts acc, c ∉ p.toList := by
  induction ts generalizing acc with
  | nil => exact ha
  | cons t ts ih =>
    obtain ⟨op, xs⟩ := t
    rw [List.forall_mem_cons] at h
    have fragments : ∀ p ∈ Operand.textAll scope false d xs, c ∉ p.toList := by
      rw [Operand.textAll_eq_map]
      exact List.forall_mem_map.mpr h.1
    rw [Term.textAll]
    refine ih ?_ h.2
    split
    · exact not_mem_negatedText foreign fragments ha
    · exact not_mem_joinedText foreign fragments ha

/-- A text by values is made of values, signs and brackets. -/
theorem Operand.not_mem_textIn (x : Operand) (scope : Bindings) (d : Nat) :
    c ∉ (x.textIn scope false d).toList := by
  induction x using Operand.induct generalizing scope d with
  | input n => exact not_mem_valueText foreign _
  | nested e ih =>
    rw [Operand.textIn]
    split
    · rcases foreign with rfl | rfl <;> decide
    · obtain ⟨inputs, ts, outputs, journal⟩ := e
      exact not_mem_getD (not_mem_textAll foreign (by simp) (fun t ht x hx => ih t ht x hx _ _))

theorem Expression.not_mem_render (e : Expression) (s : Assignment) :
    c ∉ (e.render (some s) false false).toList := by
  obtain ⟨inputs, ts, outputs, journal⟩ := e
  exact not_mem_getD (not_mem_textAll foreign (by simp)
    (fun _ _ x _ => x.not_mem_textIn foreign _ _))

end

/-! ## Lines -/

/-- How a value reads at the end of a line. -/
def resultText : Option Bool → String
  | some true => "true "
  | some false => "false"
  | none => "?"

/-- The line shows the value as the result of a text by values. -/
def ShowsResult (line : String) (v : Option Bool) : Prop :=
  ∃ shown, line = "\t" ++ shown ++ " = " ++ resultText v ∧ '=' ∉ shown.toList

theorem resultText_inj {v w : Option Bool} (h : resultText v = resultText w) : v = w := by
  rcases v with _ | _ | _ <;> rcases w with _ | _ | _ <;> first | rfl | exact absurd h (by decide)

/-- A line shows just one value. -/
theorem ShowsResult.iff_eq {line : String} {v : Option Bool} (h : ShowsResult line v)
    (w : Option Bool) : ShowsResult line w ↔ w = v := by
  refine ⟨fun h' => ?_, fun same => same ▸ h⟩
  obtain ⟨shown, rfl, plain⟩ := h
  obtain ⟨shown', same, -⟩ := h'
  -- what follows the one equals sign is the result
  have shape : ∀ (shown : String) (v : Option Bool),
      ("\t" ++ shown ++ " = " ++ resultText v).toList =
        ('\t' :: shown.toList ++ [' ']) ++ '=' :: ' ' :: (resultText v).toList := by
    simp
  have parts := congrArg String.toList same
  rw [shape, shape, List.append_cons_inj_of_notMem (by simpa using plain)
    (by rcases v with _ | _ | _ <;> decide)] at parts
  exact resultText_inj (String.toList_inj.mp (List.cons.inj parts.2.2).2.symm)

theorem splitOn_flatMap_concat {c : Char} {lines : List (List Char)} (h : ∀ l ∈ lines, c ∉ l) :
    (lines.flatMap (· ++ [c])).splitOn c = lines ++ [[]] := by
  have joined : lines.flatMap (· ++ [c]) = [c].intercalate (lines ++ [[]]) := by
    clear h
    induction lines with
    | nil => simp
    | cons l lines ih =>
      rw [List.flatMap_cons, ih, List.cons_append, List.intercalate_cons_of_ne_nil (by simp)]
  rw [joined, List.splitOn_intercalate c (by simpa [or_imp, forall_and] using h) (by simp)]

namespace Expression

/-- What a line shows before its result. -/
def shownByValues (e : Expression) (s : Assignment) : String :=
  Text.replaceAll "true" "true " (e.render (some s) false false)

theorem not_mem_shownByValues {c : Char} (foreign : c = '\n' ∨ c = '=') (e : Expression)
    (s : Assignment) : c ∉ (e.shownByValues s).toList := by
  rw [shownByValues, Text.replaceAll, String.toList_ofList]
  intro h
  rcases Text.mem_of_mem_replaceFrom h with h | h
  · rcases foreign with rfl | rfl <;> revert h <;> decide
  · exact e.not_mem_render foreign s h

theorem reportLine_eq (e : Expression) (s : Assignment) (v : Option Bool) :
    e.reportLine s v = "\t" ++ e.shownByValues s ++ " = " ++ resultText v ++ "\n" := by
  have across : ∀ {c : Char} (before after : List Char), c ∉ "true".toList →
      Text.replaceFrom "true".toList "true ".toList 0 (before ++ c :: after) =
        Text.replaceFrom "true".toList "true ".toList 0 before ++
          c :: Text.replaceFrom "true".toList "true ".toList 0 after :=
    fun before after h => Text.replaceFrom_append_cons _ (by decide) h before after (Nat.zero_le _)
  have result : Text.replaceFrom "true".toList "true ".toList 0 (valueText v).toList =
      (resultText v).toList := by
    rcases v with _ | _ | _ <;> decide
  have shape : ("\t" ++ e.render (some s) false false ++ " = " ++ valueText v ++ "\n").toList =
      [] ++ '\t' :: ((e.render (some s) false false).toList ++
        ' ' :: ([] ++ '=' :: ([] ++ ' ' :: ((valueText v).toList ++ '\n' :: [])))) := by
    simp
  apply String.toList_inj.mp
  rw [reportLine, Text.replaceAll, String.toList_ofList, shape, across _ _ (by decide),
    across _ _ (by decide), across _ _ (by decide), across _ _ (by decide),
    across _ _ (by decide), result]
  simp [shownByValues, Text.replaceAll, Text.replaceFrom]

/-! ## Completions -/

/-- The assignment says what `s` says, and gives the open inputs the bits of `k`, the first name
the most significant. -/
def Completes (e : Expression) (s : Assignment) (k : Nat) (t : Assignment) : Prop :=
  (∀ n, s.contains n → t.get? n = s.get? n) ∧
    ∀ i n, (e.missingInputs s)[i]? = some n →
      t.get? n = some (k.testBit ((e.missingInputs s).length - 1 - i))

theorem missingInputs_nodup (e : Expression) (s : Assignment) : (e.missingInputs s).Nodup :=
  e.inputs.names_nodup.filter _

theorem mem_missingInputs {e : Expression} {s : Assignment} {n : String} :
    n ∈ e.missingInputs s ↔ n ∈ e.inputs.names ∧ ¬ s.contains n := by
  simp [missingInputs]

theorem completes_completion (e : Expression) (s : Assignment) (k : Nat) :
    e.Completes s k (e.completion s k) := by
  have looked : ∀ n, (e.completion s k).get? n =
      ((Assignment.ofRow (e.missingInputs s) k).get? n).or (s.get? n) := by
    intro n
    exact List.lookup_append
  refine ⟨fun n assigned => ?_, fun i n hn => ?_⟩
  · rw [looked, Assignment.get?_ofRow_of_not_mem k, Option.none_or]
    exact fun missing => (mem_missingInputs.mp missing).2 assigned
  · rw [looked, Assignment.get?_ofRow (e.missingInputs_nodup s) k hn, Option.some_or]

/-- An assignment that has a value for every open input is one of the completions. -/
theorem existsUnique_completes (e : Expression) {s t : Assignment}
    (same : ∀ n, s.contains n → t.get? n = s.get? n)
    (full : ∀ n ∈ e.missingInputs s, t.contains n) :
    ∃! k, k < 2 ^ (e.missingInputs s).length ∧ e.Completes s k t := by
  let raw := (e.missingInputs s).map (fun n => (t.get? n).getD false)
  have named : ∀ i n, (e.missingInputs s)[i]? = some n → t.get? n = some (raw.getD i false) := by
    intro i n hn
    obtain ⟨b, hb⟩ := Option.isSome_iff_exists.mp (full n (List.mem_of_getElem? hn))
    simp [raw, List.getD_eq_getElem?_getD, hn, hb]
  have mirrored : ∀ i < (e.missingInputs s).length,
      (e.missingInputs s).length - 1 - ((e.missingInputs s).length - 1 - i) = i := by
    omega
  -- the bits of `k` are the values, from the last name to the first
  have spelled : ∀ k, Assignment.ofRow (e.missingInputs s) k = ⟨(e.missingInputs s).zip raw⟩ ↔
      e.Completes s k t := by
    intro k
    rw [Assignment.ofRow, Assignment.mk.injEq,
      Assignment.rowValues_eq_zip_iff _ (List.length_map _)]
    constructor
    · refine fun bits => ⟨same, fun i n hn => ?_⟩
      have hi := (List.getElem?_eq_some_iff.mp hn).1
      rw [named i n hn, bits _ (by omega), mirrored i hi]
    · rintro ⟨-, bits⟩ i hi
      have hj : (e.missingInputs s).length - 1 - i < (e.missingInputs s).length := by omega
      have hn := List.getElem?_eq_getElem hj
      have value := (named _ _ hn).symm.trans (bits _ _ hn)
      rw [mirrored i hi] at value
      exact (Option.some.inj value).symm
  have same : raw.length = (e.missingInputs s).length := List.length_map _
  have unique := Assignment.existsUnique_ofRow (e.missingInputs s) same
  simpa only [spelled] using unique

/-- All completions with the same number come to the same value. -/
theorem valueOf_of_completes {e : Expression} {s t t' : Assignment} {k : Nat}
    (names : e.inputs.Binds e.mentions) (h : e.Completes s k t) (h' : e.Completes s k t') :
    e.valueOf t' = e.valueOf t := by
  refine e.valueOf_congr_referenced (fun n referenced => ?_)
  by_cases assigned : s.contains n
  · rw [h.1 n assigned, h'.1 n assigned]
  · have bound := Bindings.mem_names_of_contains (names n ((e.mem_referencedInputs n).mp referenced))
    obtain ⟨i, hi⟩ := List.mem_iff_getElem?.mp (mem_missingInputs.mpr ⟨bound, assigned⟩)
    rw [h.2 i n hi, h'.2 i n hi]

/-! ## The report -/

/-- The header ends the line that it begins. -/
theorem exists_reportHeader {missing : List String} (h : ∀ n ∈ missing, '\n' ∉ n.toList)
    (states : Nat) :
    ∃ header, reportHeader missing states = header ++ "\n" ∧ '\n' ∉ header.toList := by
  have digits : ∀ n : Nat, '\n' ∉ Nat.toDigits 10 n := by
    intro n mem
    have digit := Nat.isDigit_of_mem_toDigits (by decide) (by decide) mem
    revert digit
    decide
  have ending : ∀ n : Nat, '\n' ∉ (Text.pluralEnding n).toList := by
    intro n
    rw [Text.pluralEnding]
    split <;> decide
  let last := "Resolving " ++ toString states ++ " possible state" ++ Text.pluralEnding states ++ ":"
  have resolving : '\n' ∉ last.toList := by simp [last, digits, ending]
  cases missing with
  | nil => exact ⟨last, String.toList_inj.mp (by simp [reportHeader, toString, last]), resolving⟩
  | cons first rest =>
    have list : '\n' ∉ (", ".intercalate (first :: rest)).toList :=
      not_mem_intercalate (by decide) h
    refine ⟨"Missing " ++ toString (first :: rest).length ++ " input" ++
      Text.pluralEnding (first :: rest).length ++ " (" ++ ", ".intercalate (first :: rest) ++
        "). " ++ last, String.toList_inj.mp (by simp [reportHeader, toString, last]), ?_⟩
    simpa [last, digits, ending] using list

theorem report_eq {e : Expression} {s : Assignment} (names : e.inputs.Binds e.mentions)
    (shallow : e.depth ≤ maxNestingDepth) (few : (e.missingInputs s).length ≤ maxTableInputs) :
    e.report s = .ok (reportHeader (e.missingInputs s) (2 ^ (e.missingInputs s).length) ++
      String.join ((List.range (2 ^ (e.missingInputs s).length)).map (fun k =>
        e.reportLine (e.completion s k) (e.meaning (e.scope (e.completion s k)).values)))) := by
  have fits : countFault? (e.missingInputs s).length = none := if_neg (Nat.not_lt.mpr few)
  have line : ∀ k, (e.valueOf (e.completion s k)).map (e.reportLine (e.completion s k)) =
      .ok (e.reportLine (e.completion s k) (e.meaning (e.scope (e.completion s k)).values)) := by
    intro k
    rw [valueOf_eq_meaning names shallow]
    rfl
  rw [report]
  simp only [fits]
  rw [mapM_eq_ok (fun k _ => line k)]
  rfl

/-- The lines of a report, each with the value that evaluation gives under its completion. -/
theorem exists_reportLines {e : Expression} {s : Assignment} (names : e.inputs.Binds e.mentions)
    (shallow : e.depth ≤ maxNestingDepth) (few : (e.missingInputs s).length ≤ maxTableInputs)
    (unbroken : ∀ n ∈ e.inputs.names, '\n' ∉ n.toList) :
    ∃ (text header : String) (lines : List String), e.report s = .ok text ∧
      text.toList.splitOn '\n' = (header :: lines).map String.toList ++ [[]] ∧
      reportHeader (e.missingInputs s) (2 ^ (e.missingInputs s).length) = header ++ "\n" ∧
      lines.length = 2 ^ (e.missingInputs s).length ∧
      ∀ (k : Nat) (line : String), lines[k]? = some line → k < 2 ^ (e.missingInputs s).length ∧
        ∃ v, ShowsResult line v ∧ e.valueOf (e.completion s k) = .ok v := by
  obtain ⟨header, hheader, one_line⟩ := exists_reportHeader
    (fun n hn => unbroken n (mem_missingInputs.mp hn).1) (2 ^ (e.missingInputs s).length)
  let value : Nat → Option Bool := fun k => e.meaning (e.scope (e.completion s k)).values
  let line : Nat → String := fun k =>
    "\t" ++ e.shownByValues (e.completion s k) ++ " = " ++ resultText (value k)
  have ended : ∀ k, e.reportLine (e.completion s k) (value k) = line k ++ "\n" :=
    fun k => e.reportLine_eq _ _
  have line_unbroken : ∀ k, '\n' ∉ (line k).toList := by
    intro k
    have shown := e.not_mem_shownByValues (.inl rfl) (e.completion s k)
    have result : '\n' ∉ (resultText (value k)).toList := by
      rcases value k with _ | _ | _ <;> decide
    simpa [line, result] using shown
  refine ⟨_, header, (List.range (2 ^ (e.missingInputs s).length)).map line,
    report_eq names shallow few, ?_, hheader, by simp, ?_⟩
  · have pieces : (header ++ "\n" ++ String.join ((List.range (2 ^ (e.missingInputs s).length)).map
        (fun k => line k ++ "\n"))).toList =
          ((header :: (List.range (2 ^ (e.missingInputs s).length)).map line).map
            String.toList).flatMap (· ++ ['\n']) := by
      simp [List.flatMap_map]
    simp only [hheader, value, ended] at pieces ⊢
    rw [pieces, splitOn_flatMap_concat]
    simpa using ⟨one_line, fun k _ => line_unbroken k⟩
  · intro k l hl
    rw [List.getElem?_map, Option.map_eq_some_iff] at hl
    obtain ⟨j, hj, rfl⟩ := hl
    obtain ⟨hk, rfl⟩ := List.getElem?_eq_some_iff.mp hj
    rw [List.length_range] at hk
    rw [List.getElem_range]
    exact ⟨hk, value k, ⟨_, rfl, e.not_mem_shownByValues (.inr rfl) _⟩,
      valueOf_eq_meaning names shallow _⟩

theorem nestedOutputs_of_throughout {e : Expression} (h : e.Throughout (·.outputs = [])) :
    e.nestedOutputs = [] := by
  have operand : ∀ {x : Operand}, x.Throughout (·.outputs = []) → ∀ o, o ∉ x.outputsOf := by
    intro x hx
    induction hx with
    | input n => simp [Operand.outputsOf]
    | @nested f unlabelled _ ih =>
      intro o ho
      rcases (Operand.mem_outputsOf_nested f o).mp ho with ho | ho
      · rw [unlabelled] at ho
        cases ho
      · obtain ⟨t, ht, x, hx, ho⟩ := (f.mem_nestedOutputs o).mp ho
        exact ih t ht x hx o ho
  refine List.eq_nil_iff_forall_not_mem.mpr (fun o ho => ?_)
  obtain ⟨t, ht, x, hx, ho⟩ := (e.mem_nestedOutputs o).mp ho
  exact operand (h.2 t ht x hx) o ho

/-- A report is a header and one line for each completion of the assignment, which shows what
evaluation gives under the completion. Where nothing is assigned and nothing is labelled, the
results are the first column of the table. -/
theorem report_lists_completions {e : Expression} {s : Assignment}
    (names : e.inputs.Binds e.mentions) (shallow : e.depth ≤ maxNestingDepth)
    (few : (e.missingInputs s).length ≤ maxTableInputs)
    (unbroken : ∀ n ∈ e.inputs.names, '\n' ∉ n.toList) :
    ∃ (text header : String) (lines : List String), e.report s = .ok text ∧
      text.toList.splitOn '\n' = (header :: lines).map String.toList ++ [[]] ∧
      reportHeader (e.missingInputs s) (2 ^ (e.missingInputs s).length) = header ++ "\n" ∧
      lines.length = 2 ^ (e.missingInputs s).length ∧
      (∀ (k : Nat) (line : String), lines[k]? = some line → (∃ v, ShowsResult line v) ∧
        e.Completes s k (e.completion s k) ∧
        ∀ t, e.Completes s k t → ∀ v, ShowsResult line v ↔ e.valueOf t = .ok v) ∧
      (∀ t : Assignment, (∀ n, s.contains n → t.get? n = s.get? n) →
        (∀ n ∈ e.missingInputs s, t.contains n) →
          ∃! k, k < 2 ^ (e.missingInputs s).length ∧ e.Completes s k t) ∧
      (s = .empty → e.Throughout (·.outputs = []) →
        ∃ (column : OutputColumn) (others : List OutputColumn),
          e.truthColumns = .ok (column :: others) ∧
          column.values.length = lines.length ∧
          ∀ (k : Nat) (line : String), lines[k]? = some line →
            ∀ v, ShowsResult line v ↔ column.values[k]? = some v) := by
  obtain ⟨text, header, lines, made, broken, hheader, count, shown⟩ :=
    exists_reportLines names shallow few unbroken
  have shows_iff : ∀ (k : Nat) (line : String), lines[k]? = some line →
      ∀ v, ShowsResult line v ↔ e.valueOf (e.completion s k) = .ok v := by
    intro k line hline v
    obtain ⟨-, w, shows_w, value⟩ := shown k line hline
    rw [shows_w.iff_eq, value, Except.ok.injEq, eq_comm]
  refine ⟨text, header, lines, made, broken, hheader, count, ?_, ?_, ?_⟩
  · intro k line hline
    obtain ⟨-, v, shows_v, -⟩ := shown k line hline
    refine ⟨⟨v, shows_v⟩, e.completes_completion s k, fun t completes v => ?_⟩
    rw [shows_iff k line hline, valueOf_of_completes names completes (e.completes_completion s k)]
  · exact fun t same full => e.existsUnique_completes same full
  · rintro rfl unlabelled
    have every : e.missingInputs .empty = e.inputs.names :=
      List.filter_eq_self.mpr (fun _ _ => rfl)
    have row : ∀ k, e.completion .empty k = .ofRow e.inputs.names k := by
      intro k
      rw [completion, every, Assignment.append, Assignment.empty, List.append_nil]
    rw [every] at few count shown
    obtain ⟨others, cell, listed, columns, value⟩ := exists_truthColumns unlabelled.1 few names
      shallow (by simp [nestedOutputs_of_throughout unlabelled])
    have first := value ⟨e.text, e.snapshot⟩ (listed ▸ List.mem_cons_self ..)
    rw [listed] at columns
    refine ⟨_, _, columns, by simp [count, rowCount], fun k line hline v => ?_⟩
    have hk : k < e.rowCount := (shown k line hline).1
    rw [shows_iff k line hline, row, ← e.valueOfOutput_snapshot e.text, first, List.getElem?_map,
      List.getElem?_range hk, Option.map_some, Except.ok.injEq, Option.some.injEq]

/-- `(a ∧ b̅) ∨ (c ⊽ a)` with `b` assigned has four completions, and eight without. -/
theorem report_lists_completions_of_inverted :
    let sum := empty.append .nor [.input "c", .input "a"]
    let e := ((empty.append .and [.input "a", .input "b"]).append .or [.nested sum]).invertInput "b"
    (∃ (text : String) (lines : List String), e.report ⟨[("b", true)]⟩ = .ok text ∧
      lines.length = 4 ∧ ∃ line, lines[1]? = some line ∧ ShowsResult line (some false)) ∧
      ∃ (text : String) (lines : List String) (column : OutputColumn) (others : List OutputColumn),
        e.report .empty = .ok text ∧ lines.length = 8 ∧
          e.truthColumns = .ok (column :: others) ∧ ∃ line, lines[4]? = some line ∧
            ShowsResult line (some true) ∧ column.values[4]? = some (some true) := by
  intro sum e
  have names : e.inputs.Binds e.mentions := by decide
  have shallow : e.depth ≤ maxNestingDepth := by decide
  have unbroken : ∀ n ∈ e.inputs.names, '\n' ∉ n.toList := by decide
  have unlabelled : e.Throughout (·.outputs = []) := by
    refine throughout_iff.mpr ⟨by decide, fun f hf => ?_⟩
    obtain rfl := List.mem_singleton.mp hf
    exact throughout_iff.mpr ⟨by decide, fun _ hf => absurd hf List.not_mem_nil⟩
  constructor
  · obtain ⟨text, _, lines, made, -, -, count, shown, -⟩ :=
      report_lists_completions (s := ⟨[("b", true)]⟩) names shallow (by decide) unbroken
    have four : lines.length = 4 := count.trans (by decide)
    have hline := List.getElem?_eq_getElem (l := lines) (i := 1) (by omega)
    obtain ⟨-, completes, shows⟩ := shown 1 _ hline
    exact ⟨text, lines, made, four, _, hline, (shows _ completes _).mpr (by decide)⟩
  · obtain ⟨text, _, lines, made, -, -, count, shown, -, table⟩ :=
      report_lists_completions (s := .empty) names shallow (by decide) unbroken
    have eight : lines.length = 8 := count.trans (by decide)
    have hline := List.getElem?_eq_getElem (l := lines) (i := 4) (by omega)
    obtain ⟨-, completes, shows⟩ := shown 4 _ hline
    obtain ⟨column, others, columns, -, cells⟩ := table rfl unlabelled
    have result := (shows _ completes (some true)).mpr (by decide)
    exact ⟨text, lines, column, others, made, eight, columns, _, hline, result,
      (cells 4 _ hline _).mp result⟩

end Expression

end SwitchingAlgebra
