-- The steps of a reduction, whatever was written. At every step the placeholders in the text are
-- just the places that hold an expression; and every step takes a sign away, so that there are no
-- more steps than signs, even where the text grows.
import SwitchingAlgebra.Proofs.Placing
import SwitchingAlgebra.Proofs.Printing

namespace SwitchingAlgebra

open Fragment

namespace Fragment

/-! ## Signs -/

/-- An operator, a negation or a parenthesis. -/
def isSign : Fragment → Bool
  | .negation | .operator _ | .opening | .closing => true
  | _ => false

/-- How many fragments are signs. -/
def signCount (fs : List Fragment) : Nat := fs.countP isSign

@[simp] theorem signCount_append (fs gs : List Fragment) :
    signCount (fs ++ gs) = signCount fs + signCount gs := List.countP_append

@[simp] theorem signCount_cons (f : Fragment) (fs : List Fragment) :
    signCount (f :: fs) = signCount fs + if f.isSign then 1 else 0 := List.countP_cons

/-- Whatever is rewritten loses a sign. -/
theorem Shrinks.eq_or_signCount_lt {fs gs : List Fragment} (h : Shrinks fs gs) :
    gs = fs ∨ signCount gs < signCount fs := by
  have weaken : ∀ {fs gs : List Fragment}, gs = fs ∨ signCount gs < signCount fs →
      signCount gs ≤ signCount fs :=
    fun h => h.elim (fun same => Nat.le_of_eq (congrArg signCount same)) Nat.le_of_lt
  induction h with
  | nil => exact .inl rfl
  | cons f _ ih =>
    refine ih.imp (congrArg _) (fun fewer => ?_)
    simp only [signCount_cons]
    omega
  | group side _ ih =>
    have rest := weaken ih
    refine .inr ?_
    simp only [signCount_cons, signCount_append, isSign, if_true]
    omega
  | cancel _ ih =>
    have rest := weaken ih
    refine .inr ?_
    simp only [signCount_cons, isSign, if_true]
    omega
  | negated k k' _ ih =>
    have rest := weaken ih
    refine .inr ?_
    simp only [signCount_cons, isSign, if_true, Bool.false_eq_true, if_false]
    omega
  | triple left op right k _ ih =>
    have rest := weaken ih
    refine .inr ?_
    simp only [signCount_cons, signCount_append, isSign, if_true, Bool.false_eq_true, if_false]
    omega
  | grouped left op right k _ ih =>
    have rest := weaken ih
    refine .inr ?_
    simp only [signCount_cons, signCount_append, isSign, if_true, Bool.false_eq_true, if_false]
    omega

/-- A character of the normalised text that is written for a sign. -/
def isSignChar (c : Char) : Bool := "*+^⊼⊽⊻~()".toList.contains c

/-- Each sign is written. -/
theorem signCount_le_countP {fs : List Fragment} (proper : ∀ f ∈ fs, f.Proper) :
    signCount fs ≤ (textAll fs).toList.countP isSignChar := by
  induction fs with
  | nil => exact Nat.zero_le _
  | cons f fs ih =>
    rw [List.forall_mem_cons] at proper
    have rest := ih proper.2
    have here : (if f.isSign then 1 else 0) ≤ f.text.toList.countP isSignChar := by
      cases f with
      | operator op =>
        cases op
        case not => exact absurd rfl proper.1
        all_goals decide
      | negation => decide
      | opening => decide
      | closing => decide
      | _ => exact Nat.zero_le _
    rw [signCount_cons, toList_textAll_cons, List.countP_append]
    omega

/-! ## What a text begins with -/

theorem places_ofChars (cs : List Char) : places (ofChars cs) = [] := by
  have bare : ∀ (c : Char) {fs : List Fragment}, places fs = [] → places (consWord c fs) = [] := by
    intro c fs h
    unfold consWord
    split
    · simpa using h
    · simpa using h
  have single : ∀ c : Char, (ofChar c).place? = none := by
    intro c
    unfold ofChar
    repeat' split
    all_goals rfl
  induction cs using ofChars.induct with
  | case1 => rfl
  | case2 rest ih => simpa [ofChars] using ih
  | case3 rest ih => simpa [ofChars] using ih
  | case4 c rest hand hor word ih =>
    rw [ofChars, if_pos word]
    · exact bare c ih
    all_goals assumption
  | case5 c rest hand hor word ih =>
    rw [ofChars, if_neg word]
    · exact (List.filterMap_cons_none (single c)).trans ih
    all_goals assumption

theorem places_settle (fs : List Fragment) : places (settle fs) = places fs := by
  -- each tidying shortens the fragments
  induction hn : fs.length using Nat.strongRecOn generalizing fs with
  | ind n ih =>
    unfold settle
    split
    · rename_i fs' htidy
      have shorter := length_tidy? htidy
      rw [ih _ (by omega) fs' rfl, places_tidy? htidy]
    · rfl

end Fragment

namespace Reduction

/-! ## Every step of a reduction -/

theorem Kept.next {mixed : List String} {r r' : Reduction} (h : r.Kept)
    (hstep : r.step mixed = .next r') : r'.Kept := by
  rcases @Kept.step mixed r h with ⟨e, done⟩ | stuck | ⟨r'', next, kept⟩
  · rw [done] at hstep
    cases hstep
  · rw [stuck] at hstep
    cases hstep
  · rw [next] at hstep
    cases hstep
    exact kept

theorem Kept.step_ne_dangling {mixed : List String} {r : Reduction} (h : r.Kept) (k : Nat) :
    r.step mixed ≠ .dangling k := by
  intro dangling
  rcases @Kept.step mixed r h with ⟨e, done⟩ | stuck | ⟨r', next, -⟩
  · rw [done] at dangling
    cases dangling
  · rw [stuck] at dangling
    cases dangling
  · rw [next] at dangling
    cases dangling

/-- The bookkeeping is kept, and the fragments stand and are written as those of a text are. -/
structure Orderly (r : Reduction) : Prop where
  kept : r.Kept
  stands : Stands .fresh r.fragments
  proper : ∀ f ∈ r.fragments, f.Proper

theorem Orderly.next {mixed : List String} {r r' : Reduction} (h : r.Orderly)
    (hstep : r.step mixed = .next r') : r'.Orderly := by
  have shrinks := shrinks_of_step hstep
  exact ⟨h.kept.next hstep, shrinks.stands h.stands, shrinks.proper h.proper⟩

/-- A step takes a sign away. -/
theorem signCount_step {mixed : List String} {r r' : Reduction} (h : r.step mixed = .next r') :
    signCount r'.fragments < signCount r.fragments := by
  rcases (shrinks_of_step h).eq_or_signCount_lt with same | fewer
  · exact absurd (length_step h) (by rw [same]; exact Nat.lt_irrefl _)
  · exact fewer

/-- The state that a step leads to, unless it is the last one. -/
def Outcome.next? : Outcome → Option Reduction
  | .next r => some r
  | _ => none

theorem Outcome.eq_next {o : Outcome} {r : Reduction} (h : o.next? = some r) : o = .next r := by
  cases o with
  | next r' =>
    cases h
    rfl
  | done e => cases h
  | stuck => cases h
  | dangling k => cases h

/-- What the reduction of a text begins with. -/
def begun (text : String) : Reduction := ⟨settle (ofText text), []⟩

/-- The names of a text that are used both plain and negated. -/
def mixedIn (text : String) : List String := mixedNames (settle (ofText text))

/-- The state of the reduction of a text after so many steps, unless it ends before. -/
def reached (text : String) : Nat → Option Reduction
  | 0 => some (begun text)
  | n + 1 => (reached text n).bind (fun r => (r.step (mixedIn text)).next?)

variable {text : String} {n : Nat} {r r' : Reduction}

theorem reached_succ (h : reached text n = some r) (hstep : r.step (mixedIn text) = .next r') :
    reached text (n + 1) = some r' := by
  rw [reached, h, Option.bind_some, hstep]
  rfl

theorem exists_of_reached_succ (h : reached text (n + 1) = some r') :
    ∃ r, reached text n = some r ∧ r.step (mixedIn text) = .next r' := by
  rw [reached, Option.bind_eq_some_iff] at h
  obtain ⟨r, hr, hnext⟩ := h
  exact ⟨r, hr, Outcome.eq_next hnext⟩

theorem orderly_begun (valid : Validation.validate text = .ok ()) : (begun text).Orderly where
  kept := by
    have none_placed : Fragment.places (settle (ofText text)) = [] := by
      rw [places_settle, ofText, places_ofChars]
    refine ⟨by simp [begun, none_placed], fun k => ?_⟩
    simp [begun, none_placed, Places.Holds]
  stands := settle_of_shrinks (fun shrinks => shrinks.stands) (stands_ofText valid)
  proper := settle_of_shrinks (P := fun fs => ∀ f ∈ fs, f.Proper)
    (fun shrinks => shrinks.proper) (proper_ofText valid)

theorem orderly_of_reached (valid : Validation.validate text = .ok ())
    (h : reached text n = some r) : r.Orderly := by
  induction n generalizing r with
  | zero =>
    cases h
    exact orderly_begun valid
  | succ n ih =>
    obtain ⟨r₀, hr₀, hstep⟩ := exists_of_reached_succ h
    exact (ih hr₀).next hstep

/-- Every step is paid for by a sign of the text. -/
theorem signCount_of_reached (h : reached text n = some r) :
    n + signCount r.fragments ≤ signCount (ofText text) := by
  induction n generalizing r with
  | zero =>
    cases h
    have settled : signCount (settle (ofText text)) ≤ signCount (ofText text) := settle_of_shrinks
      (P := fun fs => signCount fs ≤ signCount (ofText text))
      (fun shrinks fewer => shrinks.eq_or_signCount_lt.elim
        (fun same => same ▸ fewer) (fun less => Nat.le_of_lt (Nat.lt_of_lt_of_le less fewer)))
      (Nat.le_refl _)
    rwa [Nat.zero_add]
  | succ n ih =>
    obtain ⟨r₀, hr₀, hstep⟩ := exists_of_reached_succ h
    have before := ih hr₀
    have fewer := signCount_step hstep
    omega

/-- A single placeholder is the end, and no other place holds anything. -/
theorem Kept.done_of_single {mixed : List String} (h : r.Kept) {k : Nat}
    (single : r.fragments = [.place k]) :
    ∃ e, r.step mixed = .done e ∧ ∀ j e', r.places.Holds j e' ↔ j = k ∧ e' = e := by
  obtain ⟨fs, ps⟩ := r
  obtain rfl : fs = [.place k] := single
  obtain ⟨e, he⟩ := (h.filled k).mp (List.mem_singleton_self k)
  obtain ⟨ps', htake, -⟩ := Places.take?_of_holds he
  refine ⟨e, by simp only [Reduction.step, htake], fun j e' => ⟨fun hj => ?_, ?_⟩⟩
  · obtain rfl : j = k := List.mem_singleton.mp ((h.filled j).mpr ⟨e', hj⟩)
    exact ⟨rfl, Option.some.inj (Option.some.inj (hj.symm.trans he))⟩
  · rintro ⟨rfl, rfl⟩
    exact he

theorem run_of_step {mixed : List String} (h : r.step mixed = .next r') :
    r.run mixed = r'.run mixed := by
  rw [Reduction.run]
  split <;> simp_all

/-- Where the reduction of a text has come to is what it goes on with. -/
theorem run_of_reached (h : reached text n = some r) :
    (begun text).run (mixedIn text) = r.run (mixedIn text) := by
  induction n generalizing r with
  | zero =>
    cases h
    rfl
  | succ n ih =>
    obtain ⟨r₀, hr₀, hstep⟩ := exists_of_reached_succ h
    rw [ih hr₀, run_of_step hstep]

/-- The last state of a reduction: nothing applies to it, or it is an expression. -/
def EndsAt (text : String) (r : Reduction) : Prop :=
  r.step (mixedIn text) = .stuck ∧
      (begun text).run (mixedIn text) = .error (.inr r.fragments) ∨
    ∃ e, r.step (mixedIn text) = .done e ∧ (begun text).run (mixedIn text) = .ok e

/-- The reduction of every text comes to its end. -/
theorem exists_end (valid : Validation.validate text = .ok ()) :
    ∃ last r, reached text last = some r ∧ EndsAt text r := by
  have later : ∀ {n : Nat} {r : Reduction}, reached text n = some r →
      ∃ last r, reached text last = some r ∧ EndsAt text r := by
    intro n r h
    -- every step shortens the fragments
    induction hm : r.fragments.length using Nat.strongRecOn generalizing n r with
    | ind m ih =>
      rcases @Kept.step (mixedIn text) r (orderly_of_reached valid h).kept with
        ⟨e, done⟩ | stuck | ⟨r', hstep, -⟩
      · refine ⟨n, r, h, .inr ⟨e, done, ?_⟩⟩
        rw [run_of_reached h, Reduction.run]
        split <;> simp_all
      · refine ⟨n, r, h, .inl ⟨stuck, ?_⟩⟩
        rw [run_of_reached h, Reduction.run]
        split <;> simp_all
      · have shorter := length_step hstep
        exact ih _ (by omega) (reached_succ h hstep) rfl
  exact later (n := 0) rfl

end Reduction

namespace Expression

/-- A text that passes is read, or else nothing applies to what is left of it. -/
theorem parse_of_valid {text : String} (valid : Validation.validate text = .ok ()) :
    (∃ e, parse text = .ok e) ∨
      ∃ left, parse text = .error (.invalidSyntax (.unresolved left) text none) := by
  rw [parse, valid]
  simp only
  unfold ofFragments
  simp only
  cases ofLoneName? (settle (ofText text)) with
  | some e => exact .inl ⟨e, rfl⟩
  | none =>
    obtain ⟨last, r, -, ⟨-, hrun⟩ | ⟨e, -, hrun⟩⟩ := Reduction.exists_end valid
    · right
      refine ⟨Fragment.textAll r.fragments, ?_⟩
      rw [Reduction.begun, Reduction.mixedIn] at hrun
      simp only [hrun]
    · left
      refine ⟨e, ?_⟩
      rw [Reduction.begun, Reduction.mixedIn] at hrun
      simp only [hrun]

end Expression

/-! ## A text that grows -/

namespace Fragment

theorem settle_of_tidy? {fs : List Fragment} (h : tidy? fs = none) : settle fs = fs := by
  unfold settle
  split
  · rename_i fs' htidy
    rw [h] at htidy
    cases htidy
  · rfl

/-- The operands of a chain behind its first one. -/
def chained : Nat → List Fragment → List Fragment
  | 0, fs => fs
  | n + 1, fs => .operator .or :: .name "a" :: chained n fs

theorem fragments_sum_append (n : Nat) (fs : List Fragment) :
    ((Sentence.sum n).map Atom.name).fragments ++ fs = .name "a" :: chained n fs := by
  have inner : ∀ (n : Nat) (fs : List Fragment),
      chained n (.operator .or :: .name "a" :: fs) = .operator .or :: .name "a" :: chained n fs := by
    intro n fs
    induction n with
    | zero => rfl
    | succ n ih => rw [chained, ih, chained]
  induction n generalizing fs with
  | zero => rfl
  | succ n ih =>
    have step : ((Sentence.sum (n + 1)).map Atom.name).fragments ++ fs =
        ((Sentence.sum n).map Atom.name).fragments ++ (.operator .or :: .name "a" :: fs) := by
      simp [Sentence.sum, Sentence.map, Sentence.fragments, Phrase.map, Phrase.fragments,
        Atom.fragment]
    rw [step, ih, inner, chained]

theorem stripGroups_chained {fs : List Fragment} (h : stripGroups fs = fs) (n : Nat) :
    stripGroups (chained n fs) = chained n fs := by
  induction n with
  | zero => exact h
  | succ n ih => rw [chained, stripGroups, stripGroups, ih] <;> simp

theorem cancelNegations_chained {fs : List Fragment} (h : cancelNegations fs = fs) (n : Nat) :
    cancelNegations (chained n fs) = chained n fs := by
  induction n with
  | zero => exact h
  | succ n ih => rw [chained, cancelNegations, cancelNegations, ih] <;> simp

theorem findNegatedPlace?_chained {fs : List Fragment} (h : findNegatedPlace? fs = none) (n : Nat) :
    findNegatedPlace? (chained n fs) = none := by
  induction n with
  | zero => exact h
  | succ n ih => simp [chained, findNegatedPlace?, ih]

/-- A group behind a chain, in which the first operator does not stand alone. -/
def groupBehind : List Fragment :=
  [.operator .or, .opening, .name "a", .operator .and, .name "b", .operator .or, .name "c",
    .closing]

/-- A name or a placeholder in front of the chain. -/
def IsPlainOperand (f : Fragment) : Prop := f = .name "a" ∨ ∃ k, f = .place k

theorem tidy?_chained {f : Fragment} (hf : f.IsPlainOperand) (n : Nat) :
    tidy? (f :: chained n groupBehind) = none := by
  have strip : stripGroups (f :: chained n groupBehind) = f :: chained n groupBehind := by
    rcases hf with rfl | ⟨k, rfl⟩ <;>
      rw [stripGroups, stripGroups_chained (by rfl)] <;> simp
  have cancel : cancelNegations (f :: chained n groupBehind) = f :: chained n groupBehind := by
    rcases hf with rfl | ⟨k, rfl⟩ <;>
      rw [cancelNegations, cancelNegations_chained (by rfl)] <;> simp
  simp [tidy?, strip, cancel]

end Fragment

namespace Reduction

/-- Where nothing is to tidy or to negate, a step puts a new place for the leftmost triple. -/
theorem exists_step_of_find (mixed : List String) {r : Reduction} {t : Triple} (kept : r.Kept)
    (tidy : tidy? r.fragments = none) (plain : findNegatedPlace? r.fragments = none)
    (found : Triple.find? r.fragments = some t) : ∃ r', r.step mixed = .next r' ∧
      r'.fragments = t.unwrap.replaceBy r.places.length ∧
      r'.places.length = r.places.length + 1 := by
  obtain ⟨e, ps, hread, emptied⟩ := kept.exists_readTriple mixed found
  have hstep : r.step mixed = .next (store t.unwrap.replaceBy ps e) := by
    unfold step
    split
    · rename_i k single
      rw [single] at found
      cases found
    · rw [tidy, reduce, plain, found]
      simp only [hread]
  refine ⟨_, hstep, ?_, ?_⟩
  · rw [store, emptied.length]
  · simp [store, emptied.length]

/-- A step takes one operand off a chain. -/
theorem exists_step_chained {mixed : List String} {r : Reduction} (kept : r.Kept) {f : Fragment}
    (hf : f.IsPlainOperand) {n : Nat} (hfs : r.fragments = f :: chained (n + 1) groupBehind) :
    ∃ r', r.step mixed = .next r' ∧
      r'.fragments = .place r.places.length :: chained n groupBehind ∧
      r'.places.length = r.places.length + 1 := by
  have tidy := hfs ▸ tidy?_chained hf (n + 1)
  have plain : findNegatedPlace? r.fragments = none := by
    rw [hfs]
    have rest : findNegatedPlace? (chained (n + 1) groupBehind) = none :=
      findNegatedPlace?_chained (by rfl) (n + 1)
    rcases hf with rfl | ⟨k, rfl⟩ <;> simp [findNegatedPlace?, rest]
  have found : ∃ left, Triple.find? r.fragments =
      some ⟨[], left, .or, .name false "a", chained n groupBehind⟩ := by
    rw [hfs]
    rcases hf with rfl | ⟨k, rfl⟩
    · exact ⟨_, rfl⟩
    · exact ⟨_, rfl⟩
  obtain ⟨left, found⟩ := found
  exact exists_step_of_find mixed kept tidy plain found

/-- The chain can be written, and the group behind it. -/
theorem exists_text_chained (n : Nat) : ∃ text, Validation.validate text = .ok () ∧
    ofText text = .name "a" :: chained n groupBehind := by
  have name : ∀ w : String, isAsciiName w → Spelling [.name w] w.toList :=
    fun _ h => (Lexeme.name h).spelling
  have behind : Spelled groupBehind "+(a*b+c)".toList :=
    @Spelled.next [] ['+'] _ [_] _ rfl (.sign (by decide)) <|
    @Spelled.next [] ['('] _ [_] _ rfl (.sign (by decide)) <|
    @Spelled.next [] ['a'] _ [_] _ rfl (name "a" (by decide)) <|
    @Spelled.next [] ['*'] _ [_] _ rfl (.sign (by decide)) <|
    @Spelled.next [] ['b'] _ [_] _ rfl (name "b" (by decide)) <|
    @Spelled.next [] ['+'] _ [_] _ rfl (.sign (by decide)) <|
    @Spelled.next [] ['c'] _ [_] _ rfl (name "c" (by decide)) <|
    @Spelled.next [] [')'] _ [_] _ rfl (.sign (by decide)) (@Spelled.done [] rfl)
  let f : Sentence String := .extend (.sum n) .or
    (.group (.extend (.extend (.single (.atom "a")) .and (.atom "b")) .or (.atom "c")))
  have spelled : Spelled (f.map Atom.name).fragments (sumText n ++ "+(a*b+c)").toList := by
    rw [String.toList_append]
    exact (spelled_sum n).append behind
  have shallow : (f.map Atom.name).nesting ≤ maxNestingDepth := by
    rw [f.nesting_map]
    simp only [f, Sentence.nesting, Sentence.nesting_sum, Phrase.nesting]
    decide
  obtain ⟨valid, taken⟩ := spelled.of_sentence shallow
  exact ⟨_, valid, taken.trans (fragments_sum_append n groupBehind)⟩

variable {text : String}

theorem exists_reached_chained {n : Nat} (valid : Validation.validate text = .ok ())
    (taken : ofText text = .name "a" :: chained n groupBehind) {i : Nat} (hi : i < n) :
    ∃ r, reached text (i + 1) = some r ∧
      r.fragments = .place i :: chained (n - (i + 1)) groupBehind ∧ r.places.length = i + 1 := by
  induction i with
  | zero =>
    have first : (begun text).fragments = .name "a" :: chained (n - 1 + 1) groupBehind := by
      rw [begun, taken, settle_of_tidy? (tidy?_chained (.inl rfl) n), Nat.sub_add_cancel hi]
    obtain ⟨r, hstep, fragments, places⟩ :=
      exists_step_chained (orderly_begun valid).kept (.inl rfl) first
    exact ⟨r, reached_succ rfl hstep, fragments, places⟩
  | succ i ih =>
    obtain ⟨r, hr, fragments, places⟩ := ih (by omega)
    have left : n - (i + 1) = n - (i + 1 + 1) + 1 := by omega
    rw [left] at fragments
    obtain ⟨r', hstep, fragments', places'⟩ :=
      exists_step_chained (orderly_of_reached valid hr).kept (.inr ⟨i, rfl⟩) fragments
    rw [places] at fragments' places'
    exact ⟨r', reached_succ hr hstep, fragments', places'⟩

/-- Once a hundred places were used, a placeholder is longer than a product of two names. -/
theorem exists_growth : ∃ text n r r', Validation.validate text = .ok () ∧
    reached text n = some r ∧ r.step (mixedIn text) = .next r' ∧
    (textAll r.fragments).length < (textAll r'.fragments).length := by
  obtain ⟨text, valid, taken⟩ := exists_text_chained 100
  obtain ⟨r, hr, fragments, places⟩ := exists_reached_chained valid taken (Nat.lt_succ_self 99)
  have fragments : r.fragments = .place 99 :: groupBehind := fragments
  have tidy : tidy? r.fragments = none := by
    rw [fragments]
    exact tidy?_chained (.inr ⟨99, rfl⟩) 0
  have plain : findNegatedPlace? r.fragments = none := by rw [fragments]; rfl
  have found : Triple.find? r.fragments = some ⟨[.place 99, .operator .or, .opening],
      .name false "a", .and, .name false "b", [.operator .or, .name "c", .closing]⟩ := by
    rw [fragments]
    rfl
  obtain ⟨r', hstep, fragments', -⟩ := exists_step_of_find (mixedIn text)
    (orderly_of_reached valid hr).kept tidy plain found
  refine ⟨text, 100, r, r', valid, hr, hstep, ?_⟩
  rw [fragments, fragments', places]
  decide

/-! ## All steps of a reduction -/

/-- At every step of the reduction of a text that passes the first look, the placeholders in the
text are distinct and are those of the places that hold an expression. So no placeholder is
dangling, every sign between two operands is that of an operator, and a single placeholder is all
that is held. The last step comes behind at most as many others as the normalised text has
operators, negations and parentheses, though there are texts that grow on the way. -/
theorem reached_keeps_places (valid : Validation.validate text = .ok ()) :
    (∀ n r, reached text n = some r →
      (∃ ks : List Nat, placeholders (textAll r.fragments).toList = ks.map toString ∧ ks.Nodup ∧
        ∀ k, k ∈ ks ↔ ∃ e, r.places.Holds k e) ∧
      (∀ k, r.step (mixedIn text) ≠ .dangling k) ∧
      (∀ t, Triple.find? r.fragments = some t → ∃ sign,
        operatorText t.op = String.singleton sign ∧ operatorOf? sign = some t.op) ∧
      ∀ k : Nat, textAll r.fragments = "@" ++ toString k → ∃ e, r.step (mixedIn text) = .done e ∧
        ∀ j e', r.places.Holds j e' ↔ j = k ∧ e' = e) ∧
    (∃ last r, reached text last = some r ∧ EndsAt text r ∧
      last + 1 ≤ (normalised text).countP isSignChar + 1) ∧
    ((∃ e, Expression.parse text = .ok e) ∨
      ∃ left, Expression.parse text = .error (.invalidSyntax (.unresolved left) text none)) ∧
    ∃ longer n r r', Validation.validate longer = .ok () ∧ reached longer n = some r ∧
      r.step (mixedIn longer) = .next r' ∧
      (textAll r.fragments).length < (textAll r'.fragments).length := by
  refine ⟨fun n r h => ?_, ?_, Expression.parse_of_valid valid, exists_growth⟩
  · have orderly := orderly_of_reached valid h
    refine ⟨⟨_, placeholders_textAll orderly.stands orderly.proper, orderly.kept.distinct,
      orderly.kept.filled⟩, orderly.kept.step_ne_dangling, ?_, ?_⟩
    · intro t found
      have binary : Proper (.operator t.op) := by
        apply orderly.proper
        rw [Triple.find?_eq_some found]
        simp [Triple.fragments]
      obtain ⟨sign, -, written, known⟩ := operatorText_of_ne_not binary
      exact ⟨sign, written, known⟩
    · intro k written
      have single : r.fragments = [.place k] :=
        eq_place_of_textAll orderly.stands orderly.proper (by simp [written])
      exact orderly.kept.done_of_single single
  · obtain ⟨last, r, h, ended⟩ := exists_end valid
    refine ⟨last, r, h, ended, Nat.succ_le_succ ?_⟩
    have paid := signCount_of_reached h
    have counted := signCount_le_countP (proper_ofText valid)
    rw [toList_textAll_ofText] at counted
    omega

/-- Digits on both sides of the placeholders, which belong to names, and a character between them
that makes no word. -/
theorem reached_keeps_places_of_digits :
    Validation.validate "1½0*~2+(3*4)" = .ok () ∧
      ∃ r, reached "1½0*~2+(3*4)" 2 = some r ∧ textAll r.fragments = "1½@0+@1" ∧
        ∀ k, (∃ e, r.places.Holds k e) ↔ k = 0 ∨ k = 1 := by
  have valid : Validation.validate "1½0*~2+(3*4)" = .ok () := by decide
  have settled : settle (ofText "1½0*~2+(3*4)") = [.name "1", .stray '½', .name "0", .operator .and,
      .negation, .name "2", .operator .or, .opening, .name "3", .operator .and, .name "4",
      .closing] :=
    (settle_of_tidy? (by decide)).trans (by decide)
  obtain ⟨r, hr, written⟩ : ∃ r, reached "1½0*~2+(3*4)" 2 = some r ∧
      textAll r.fragments = "1½@0+@1" := by
    simp only [reached, begun, mixedIn, settled]
    refine ⟨_, rfl, ?_⟩
    decide
  obtain ⟨⟨ks, found, -, held⟩, -⟩ := (reached_keeps_places valid).1 2 r hr
  have read : placeholders "1½@0+@1".toList = [0, 1].map toString := by decide
  rw [written, read] at found
  have same : ks = [0, 1] :=
    (List.map_injective_iff.mpr (fun _ _ => toString_injective) found).symm
  refine ⟨valid, r, hr, written, fun k => ?_⟩
  rw [← held, same]
  simp

end Reduction

end SwitchingAlgebra
