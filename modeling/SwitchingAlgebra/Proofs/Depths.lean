-- How deep what is read is nested. Parentheses nest expressions, and a name that is used both
-- plain and negated adds one level below all of them, which the parser does not count.
import SwitchingAlgebra.Proofs.Outputs
import SwitchingAlgebra.Proofs.Printing

namespace SwitchingAlgebra

/-! ## The depth of a core -/

theorem Expression.depth_negate (e : Expression) : e.negate.depth = e.depth := by
  have bound : ∀ d, e.negate.depth ≤ d ↔ e.depth ≤ d ∧ ∀ o ∈ [], Operand.level o ≤ d :=
    Reduction.depth_extend e .not [] []
  exact Nat.le_antisymm ((bound _).mpr ⟨Nat.le_refl _, by simp⟩) ((bound _).mp (Nat.le_refl _)).1

namespace Core

variable {mixed : List String}

/-- The levels that a core adds as an operand below the term that holds it. -/
def level (mixed : List String) (x : Core) : Nat := (x.operand mixed (x.expression mixed)).level

/-- The level that names in both polarities take up. -/
def extra (mixed : List String) : Nat := if mixed = [] then 0 else 1

theorem extra_le (mixed : List String) : extra mixed ≤ 1 := by
  unfold extra
  split <;> decide

theorem level_le (x : Core) : x.level mixed ≤ (x.expression mixed).depth + 1 := by
  unfold level
  cases x with
  | name negated w =>
    rw [operand]
    split
    · exact Nat.le_refl _
    · exact Nat.zero_le _
  | pair negated op left right => exact Nat.le_refl _

theorem depth_name (negated : Bool) (w : String) :
    ((name negated w).expression mixed).depth = 0 := by
  rw [expression]
  split
  · rfl
  · have flat := (Reduction.depth_extend .empty .and [.input w]
      ((name negated w).inverted mixed) 0).mpr ⟨Nat.le_refl 0, by simp [Operand.level]⟩
    exact Nat.le_zero.mp flat

theorem depth_le_level (x : Core) : (x.expression mixed).depth ≤ x.level mixed := by
  cases x with
  | name negated w =>
    rw [depth_name]
    exact Nat.zero_le _
  | pair negated op left right => exact Nat.le_succ _

/-- A name is nested only where it is negated and used plain too. -/
theorem level_name_le (negated : Bool) (w : String) :
    (name negated w).level mixed ≤ extra mixed := by
  unfold level
  rw [operand]
  split
  · rename_i nested
    have used : mixed ≠ [] := by
      rintro rfl
      simp at nested
    have one : extra mixed = 1 := if_neg used
    rw [one]
    exact Nat.succ_le_succ (Nat.le_of_eq (depth_name negated w))
  · exact Nat.zero_le _

/-- A negation stands in the same place, or takes the place of a name. -/
theorem level_negate_le (x : Core) : x.negate.level mixed ≤ max (x.level mixed) (extra mixed) := by
  cases x with
  | name negated w => exact Nat.le_trans (level_name_le _ w) (Nat.le_max_right _ _)
  | pair negated op left right =>
    have plain : (pair true op left right).level mixed = (pair false op left right).level mixed :=
      congrArg (· + 1) (Expression.depth_negate ((pair false op left right).expression mixed))
    refine Nat.le_trans ?_ (Nat.le_max_left _ _)
    cases negated with
    | false => exact Nat.le_of_eq plain
    | true => exact Nat.le_of_eq plain.symm

/-- A pair on the left is the chain so far, and adds no level; all else is an operand. -/
theorem depth_pair_le {op : Operator} {left right : Core} {d : Nat}
    (hl : (left.expression mixed).depth ≤ d) (hr : right.level mixed ≤ d) (hd : extra mixed ≤ d) :
    ((pair false op left right).expression mixed).depth ≤ d := by
  by_cases hpair : left.isPair
  · rw [expression, if_pos hpair]
    exact (Reduction.depth_extend _ _ _ _ d).mpr ⟨hl, by simpa [level] using hr⟩
  · have low : left.level mixed ≤ d := by
      cases left with
      | name negated w => exact Nat.le_trans (level_name_le negated w) hd
      | pair _ _ _ _ => exact absurd rfl hpair
    rw [expression, if_neg hpair]
    exact (Reduction.depth_extend _ _ _ _ d).mpr ⟨Nat.zero_le d, by simpa [level] using ⟨low, hr⟩⟩

end Core

mutual

/-- A group adds a level, and so may a name. -/
theorem Phrase.level_le (mixed : List String) : ∀ p : Phrase String,
    p.core.level mixed ≤ p.nesting + Core.extra mixed
  | .atom n => by
    rw [Phrase.nesting, Nat.zero_add]
    exact Core.level_name_le false n
  | .negated p => by
    have inside := Phrase.level_le mixed p
    exact Nat.le_trans p.core.level_negate_le (Nat.max_le.mpr ⟨inside, Nat.le_add_left _ _⟩)
  | .group s => by
    have inside := Sentence.depth_le mixed s
    have outside : s.core.level mixed ≤ (s.core.expression mixed).depth + 1 := s.core.level_le
    change s.core.level mixed ≤ s.nesting + 1 + Core.extra mixed
    omega

theorem Sentence.depth_le (mixed : List String) : ∀ s : Sentence String,
    (s.core.expression mixed).depth ≤ s.nesting + Core.extra mixed
  | .single p => Nat.le_trans p.core.depth_le_level (Phrase.level_le mixed p)
  | .extend s op p => by
    have first := Sentence.depth_le mixed s
    have second := Phrase.level_le mixed p
    change ((Core.pair false op s.core p.core).expression mixed).depth ≤
      max s.nesting p.nesting + Core.extra mixed
    exact Core.depth_pair_le (by omega) (by omega) (Nat.le_add_left _ _)

end

/-! ## The depth of what is read -/

/-- The names that the parser finds in both polarities are those that the core mixes. -/
theorem Sentence.mixedNames_settle (s : Sentence String) :
    Fragment.mixedNames (Fragment.settle (s.map Atom.name).fragments) = s.core.mixedNames := by
  obtain ⟨s', settled, tidy, atoms, same⟩ := (s.map Atom.name).settle_fragments
  let ι : Nat → Core := fun _ => .name false ""
  have names : ∀ k, Atom.place k ∉ s'.atoms := by
    intro k
    rw [atoms, s.atoms_map]
    simp
  have core : s'.interpret Core.interpretation (Atom.core ι) = s.core :=
    (same _ _).trans (s.interpret_map _ _ _)
  rw [settled, s'.mixedNames_core ι tidy names, core]

namespace Expression

section

variable {e : Expression} {s : Sentence String} {text : String}

theorem IsReadFrom.depth_le (h : e.IsReadFrom s text) : e.depth ≤ Text.nesting text +
    Core.extra (Fragment.mixedNames (Fragment.settle (Fragment.ofText text))) := by
  rw [h.fragments, s.mixedNames_settle, ← h.nesting_eq]
  conv => lhs; rw [h.read]
  exact Sentence.depth_le _ s

end

/-! ## The limit -/

theorem passStarted_mem_repeatPasses (c : SimplifyConfig) (extra done : Nat) (e : Expression) :
    .passStarted (done + 1) e.text ∈ (repeatPasses c extra done e).events := by
  cases extra with
  | zero =>
    simp only [repeatPasses]
    split
    · simp
    · split <;> simp
  | succ extra =>
    simp only [repeatPasses]
    split
    · simp
    · split <;> simp

/-- What is not refused at once has a first pass. -/
theorem passStarted_mem_simplify {c : SimplifyConfig} {e : Expression} (hd : e.depth ≤ c.maxDepth) :
    .passStarted 1 e.text ∈ (e.simplify c).events := by
  have text : e.startLog.1.text = e.text := by
    unfold startLog
    split
    · rfl
    · exact text_congr rfl (fun _ _ => rfl)
  have started := passStarted_mem_repeatPasses c (c.passBudget e.termCount - 1) 0 e.startLog.1
  rw [text] at started
  unfold simplify
  rw [if_neg (Nat.not_lt.mpr hd)]
  dsimp only
  split <;> simp [started]

/-- What is read is nested as deep as the parentheses of its text, or one level deeper where a
name is used both plain and negated. Within the limit every assignment evaluates it and a
simplification begins on it; the one level beyond the limit is refused by both. -/
theorem depth_of_parse {text : String} {e : Expression} (h : parse text = .ok e) :
    let mixed := Fragment.mixedNames (Fragment.settle (Fragment.ofText text))
    e.depth ≤ Text.nesting text + 1 ∧ (mixed = [] → e.depth ≤ Text.nesting text) ∧
      (Text.nesting text < maxNestingDepth ∨ mixed = [] → e.depth ≤ maxNestingDepth) ∧
      if e.depth ≤ maxNestingDepth then
        (∀ s, ∃ v, e.valueOf s = .ok v) ∧ .passStarted 1 e.text ∈ (e.simplify {}).events
      else
        (∀ s, e.valueOf s = .error (.tooDeeplyNested maxNestingDepth)) ∧
          e.simplify {} =
            ⟨e, [], .error (.tooDeeplyNested (maxNestingDepth + 1) maxNestingDepth)⟩ := by
  intro mixed
  obtain ⟨s, source⟩ := exists_isReadFrom h
  have limit := nesting_le_of_parse h
  have bound : e.depth ≤ Text.nesting text + Core.extra mixed := source.depth_le
  have deeper : e.depth ≤ Text.nesting text + 1 := by
    have := Core.extra_le mixed
    omega
  have plain : mixed = [] → e.depth ≤ Text.nesting text := by
    intro none_mixed
    rwa [none_mixed, Core.extra, if_pos rfl, Nat.add_zero] at bound
  refine ⟨deeper, plain, ?_, ?_⟩
  · rintro (low | none_mixed)
    · omega
    · exact Nat.le_trans (plain none_mixed) limit
  · split
    · rename_i shallow
      exact ⟨fun s => ⟨_, valueOf_eq_meaning source.bound shallow s⟩,
        passStarted_mem_simplify shallow⟩
    · rename_i deep
      have depth : e.depth = maxNestingDepth + 1 := by omega
      exact ⟨valueOf_eq_error source.bound (by omega),
        depth ▸ simplify_of_deep (c := {}) (Nat.lt_of_not_le deep)⟩

end Expression

/-! ## A tower of groups -/

/-- The product of a name and its negation, multiplied by the name in `n` groups around it. -/
def Sentence.tower : Nat → Sentence String
  | 0 => .extend (.single (.atom "a")) .and (.negated (.atom "a"))
  | n + 1 => .extend (.single (.atom "a")) .and (.group (tower n))

/-- The tower as it is written. -/
def towerText : Nat → String
  | 0 => "a*~a"
  | n + 1 => "a*(" ++ towerText n ++ ")"

theorem spelled_tower (n : Nat) : Spelled ((Sentence.tower n).map Atom.name).fragments
    (towerText n).toList := by
  have name : Spelled [.name "a"] ['a'] := (Lexeme.name (w := "a") (by decide)).spelling.spelled
  have times : Spelled [.operator .and] ['*'] := (Spelling.sign (by decide)).spelled
  have negation : Spelled [.negation] ['~'] := (Spelling.sign (by decide)).spelled
  have opening : Spelled [.opening] ['('] := (Spelling.sign (by decide)).spelled
  have closing : Spelled [.closing] [')'] := (Spelling.sign (by decide)).spelled
  induction n with
  | zero => exact name.append (times.append (negation.append name))
  | succ n ih =>
    rw [towerText, String.toList_append, String.toList_append]
    exact ((name.append (times.append opening)).append ih).append closing

theorem Sentence.nesting_tower (n : Nat) : (Sentence.tower n).nesting = n := by
  induction n with
  | zero => rfl
  | succ n ih =>
    change max 0 ((tower n).nesting + 1) = n + 1
    rw [ih, Nat.zero_max]

theorem Sentence.mixedNames_tower (n : Nat) : (Sentence.tower n).core.mixedNames = ["a"] := by
  have negated : (tower n).core.uses true = ["a"] := by
    induction n with
    | zero => rfl
    | succ n ih => exact ih
  have plain : "a" ∈ (tower n).core.uses false := by
    cases n <;> exact List.mem_cons_self
  rw [Core.mixedNames, negated]
  simpa using plain

/-- The negated name is nested in the innermost group. -/
theorem Sentence.depth_tower (n : Nat) :
    ((Sentence.tower n).core.expression ["a"]).depth = n + 1 := by
  induction n with
  | zero => rfl
  | succ n ih =>
    have group : (tower n).core.operand ["a"] ((tower n).core.expression ["a"]) =
        .nested ((tower n).core.expression ["a"]) := by
      cases n <;> rfl
    have terms : ((tower (n + 1)).core.expression ["a"]).terms =
        [⟨.and, [.input "a", .nested ((tower n).core.expression ["a"])]⟩] := by
      rw [← group]
      exact Reduction.terms_extend _ _ _ _
    rw [Expression.depth_of_terms (e := .ofTerms _) terms]
    simp [Expression.ofTerms, Expression.depth, Term.depthAll, Operand.depthAll, ih]

namespace Expression

/-- A tower is read as long as its parentheses are within the limit, and is nested one level
deeper than they are. -/
theorem exists_parse_tower {n : Nat} (h : n ≤ maxNestingDepth) :
    ∃ e, parse (towerText n) = .ok e ∧ e.inputs.Binds e.mentions ∧ e.depth = n + 1 := by
  have shallow : ((Sentence.tower n).map Atom.name).nesting ≤ maxNestingDepth := by
    rw [Sentence.nesting_map, Sentence.nesting_tower]
    exact h
  refine ⟨_, parse_eq_of_spelled (spelled_tower n) shallow (ofFragments_core (Sentence.tower n)),
    (Sentence.tower n).core.binds_expression, ?_⟩
  rw [Sentence.mixedNames_tower, Sentence.depth_tower]

/-- The tower of 255 groups is as deep as can be evaluated and simplified. -/
theorem depth_of_parse_tower : ∃ e, parse (towerText 255) = .ok e ∧ e.depth = 256 ∧
    (∀ s, ∃ v, e.valueOf s = .ok v) ∧ .passStarted 1 e.text ∈ (e.simplify {}).events := by
  obtain ⟨e, parsed, -, depth⟩ := exists_parse_tower (n := 255) (by decide)
  obtain ⟨-, -, -, limits⟩ := depth_of_parse parsed
  have shallow : e.depth ≤ maxNestingDepth := Nat.le_of_eq depth
  rw [if_pos shallow] at limits
  exact ⟨e, parsed, depth, limits⟩

/-- The parser lets one more group in, and what it reads then is refused by evaluation and by
simplification. -/
theorem parse_can_nest_too_deeply : ∃ e, parse (towerText 256) = .ok e ∧ e.depth = 257 ∧
    (∀ s, e.valueOf s = .error (.tooDeeplyNested 256)) ∧
    e.simplify {} = ⟨e, [], .error (.tooDeeplyNested 257 256)⟩ := by
  obtain ⟨e, parsed, names, depth⟩ := exists_parse_tower (n := 256) (Nat.le_refl _)
  have deep : maxNestingDepth < e.depth := depth ▸ Nat.lt_succ_self 256
  refine ⟨e, parsed, depth, valueOf_eq_error names deep, ?_⟩
  rw [simplify_of_deep (c := {}) deep, depth]
  rfl

end Expression

end SwitchingAlgebra
