-- The bookkeeping of a reduction: at every step the placeholders among the fragments are
-- distinct and are just the places that hold an expression. So none is ever dangling.
import Mathlib.Data.List.Nodup
import SwitchingAlgebra.Parsing.Reduction

namespace SwitchingAlgebra

/-! ## Placeholders among fragments -/

namespace Fragment

/-- The place, if the fragment is a placeholder. -/
def place? : Fragment → Option Nat
  | .place k => some k
  | _ => none

/-- The placeholders among fragments, from left to right. -/
def places (fs : List Fragment) : List Nat := fs.filterMap place?

@[simp] theorem places_nil : places [] = [] := rfl

@[simp] theorem places_append (fs gs : List Fragment) : places (fs ++ gs) = places fs ++ places gs :=
  List.filterMap_append

@[simp] theorem places_place (k : Nat) (fs : List Fragment) :
    places (.place k :: fs) = k :: places fs := rfl

@[simp] theorem places_name (w : String) (fs : List Fragment) :
    places (.name w :: fs) = places fs := rfl

@[simp] theorem places_negation (fs : List Fragment) : places (.negation :: fs) = places fs := rfl

@[simp] theorem places_operator (op : Operator) (fs : List Fragment) :
    places (.operator op :: fs) = places fs := rfl

@[simp] theorem places_opening (fs : List Fragment) : places (.opening :: fs) = places fs := rfl

@[simp] theorem places_closing (fs : List Fragment) : places (.closing :: fs) = places fs := rfl

theorem places_cons_congr (f : Fragment) {fs gs : List Fragment} (h : places fs = places gs) :
    places (f :: fs) = places (f :: gs) := by
  change places ([f] ++ fs) = places ([f] ++ gs)
  rw [places_append, places_append, h]

theorem places_stripGroups (fs : List Fragment) : places (stripGroups fs) = places fs := by
  induction fs using stripGroups.induct with
  | case1 => rfl
  | case2 w rest ih => simp [stripGroups, ih]
  | case3 k rest ih => simp [stripGroups, ih]
  | case4 w rest ih => simp [stripGroups, ih]
  | case5 k rest ih => simp [stripGroups, ih]
  | case6 f rest h₁ h₂ h₃ h₄ ih =>
    rw [stripGroups]
    · exact places_cons_congr f ih
    all_goals assumption

theorem places_cancelNegations (fs : List Fragment) : places (cancelNegations fs) = places fs := by
  induction fs using cancelNegations.induct with
  | case1 => rfl
  | case2 rest ih => simp [cancelNegations, ih]
  | case3 f rest h ih =>
    rw [cancelNegations]
    · exact places_cons_congr f ih
    · exact h

theorem places_tidy? {fs fs' : List Fragment} (h : tidy? fs = some fs') :
    places fs' = places fs := by
  unfold tidy? at h
  simp only at h
  split at h
  · cases h
    exact places_stripGroups fs
  · split at h
    · cases h
      exact places_cancelNegations fs
    · cases h

/-- Where a negated placeholder was found. -/
theorem findNegatedPlace?_eq_some {fs before behind : List Fragment} {k : Nat}
    (h : findNegatedPlace? fs = some (before, k, behind)) :
    fs = before ++ .negation :: .place k :: behind := by
  induction fs generalizing before with
  | nil => cases h
  | cons f rest ih =>
    unfold findNegatedPlace? at h
    split at h
    · cases h
    · rename_i heq
      cases heq
      cases h
      rfl
    · rename_i heq
      cases heq
      obtain ⟨⟨b, k', b'⟩, hb, heq⟩ := Option.map_eq_some_iff.mp h
      cases heq
      rw [ih hb, List.cons_append]

end Fragment

open Fragment

/-! ## Sides and triples among fragments -/

namespace Side

/-- The fragments of a side. -/
def fragments : Side → List Fragment
  | .name false w => [.name w]
  | .name true w => [.negation, .name w]
  | .place false k => [.place k]
  | .place true k => [.negation, .place k]

/-- The place that a side takes. -/
def places : Side → List Nat
  | .name _ _ => []
  | .place _ k => [k]

theorem places_fragments (s : Side) : Fragment.places s.fragments = s.places := by
  rcases s with ⟨_ | _, w⟩ | ⟨_ | _, k⟩ <;> rfl

theorem read?_eq_some {fs rest : List Fragment} {s : Side} (h : read? fs = some (s, rest)) :
    fs = s.fragments ++ rest := by
  unfold read? at h
  split at h <;> cases h <;> rfl

theorem read?_fragments (s : Side) (rest : List Fragment) :
    read? (s.fragments ++ rest) = some (s, rest) := by
  rcases s with ⟨_ | _, w⟩ | ⟨_ | _, k⟩ <;> rfl

end Side

namespace Triple

/-- The fragments that a triple was found in. -/
def fragments (t : Triple) : List Fragment :=
  t.before ++ (t.left.fragments ++ .operator t.op :: (t.right.fragments ++ t.behind))

/-- The places that a triple takes. -/
def places (t : Triple) : List Nat := t.left.places ++ t.right.places

theorem read?_eq_some {fs : List Fragment} {t : Triple} (h : read? fs = some t) :
    t.before = [] ∧ fs = t.fragments := by
  unfold read? at h
  split at h
  · rename_i left op rest hl
    split at h
    · rename_i right behind hr
      cases h
      rw [Side.read?_eq_some hl, Side.read?_eq_some hr]
      exact ⟨rfl, rfl⟩
    · cases h
  · cases h

/-- Where a triple was found. -/
theorem find?_eq_some {fs : List Fragment} {t : Triple} (h : find? fs = some t) :
    fs = t.fragments := by
  induction fs generalizing t with
  | nil => cases h
  | cons f rest ih =>
    simp only [find?] at h
    split at h
    · rename_i t' ht
      cases h
      exact (read?_eq_some ht).2
    · obtain ⟨t', ht, rfl⟩ := Option.map_eq_some_iff.mp h
      rw [ih ht]
      rfl

theorem places_fragments (t : Triple) : Fragment.places t.fragments =
    Fragment.places t.before ++ t.places ++ Fragment.places t.behind := by
  simp [fragments, places, Side.places_fragments]

/-- Parentheses around a triple hold no placeholder. -/
theorem places_replaceBy_unwrap (t : Triple) (k : Nat) :
    Fragment.places (t.unwrap.replaceBy k) =
      Fragment.places t.before ++ k :: Fragment.places t.behind := by
  unfold unwrap
  split
  · rename_i behind hlast hbehind
    have hbefore : t.before = t.before.dropLast ++ [.opening] := by
      obtain ⟨before, h⟩ := List.getLast?_eq_some_iff.mp hlast
      rw [h, List.dropLast_concat]
    rw [replaceBy, hbehind]
    rw [hbefore]
    simp
  · simp [replaceBy]

end Triple

/-! ## Places that hold expressions -/

namespace Places

/-- The place holds the expression. -/
def Holds (ps : Places) (k : Nat) (e : Expression) : Prop := ps[k]? = some (some e)

/-- The second list holds what the first does, without the places `ks`. -/
structure Emptied (ps ps' : Places) (ks : List Nat) : Prop where
  length : ps'.length = ps.length
  holds : ∀ k e, ps'.Holds k e ↔ ps.Holds k e ∧ k ∉ ks

theorem Emptied.refl (ps : Places) : Emptied ps ps [] := ⟨rfl, by simp⟩

theorem Emptied.trans {ps ps' ps'' : Places} {ks ls : List Nat} (h : Emptied ps ps' ks)
    (h' : Emptied ps' ps'' ls) : Emptied ps ps'' (ks ++ ls) := by
  refine ⟨h'.length.trans h.length, ?_⟩
  intro k e
  rw [h'.holds, h.holds, List.mem_append, not_or, and_assoc]

theorem Holds.lt_length {ps : Places} {k : Nat} {e : Expression} (h : ps.Holds k e) :
    k < ps.length := by
  unfold Holds at h
  by_contra hk
  rw [List.getElem?_eq_none (by omega)] at h
  cases h

/-- What a place holds can be taken out, and only this place is emptied. -/
theorem take?_of_holds {ps : Places} {k : Nat} {e : Expression} (h : ps.Holds k e) :
    ∃ ps', ps.take? k = some (e, ps') ∧ Emptied ps ps' [k] := by
  refine ⟨ps.set k none, ?_, ?_, ?_⟩
  · unfold Holds at h
    simp only [take?, h]
  · rw [List.length_set]
  · intro j e'
    unfold Holds
    rw [List.getElem?_set]
    by_cases hj : k = j
    · subst hj
      simp [h.lt_length]
    · simp [hj, Ne.symm hj]

theorem holds_of_take? {ps ps' : Places} {k : Nat} {e : Expression}
    (h : ps.take? k = some (e, ps')) : ps.Holds k e := by
  unfold take? at h
  split at h
  · rename_i e' he
    cases h
    exact he
  · cases h

theorem holds_of_take?_holds {ps ps' : Places} {k j : Nat} {e e' : Expression}
    (h : ps.take? k = some (e, ps')) (h' : ps'.Holds j e') : ps.Holds j e' := by
  obtain ⟨ps₁, htake, emptied⟩ := take?_of_holds (holds_of_take? h)
  rw [h] at htake
  cases htake
  exact ((emptied.holds j e').mp h').1

/-- A new place holds the new expression. -/
theorem holds_concat (ps : Places) (e : Expression) (k : Nat) (e' : Expression) :
    Holds (ps ++ [some e]) k e' ↔ ps.Holds k e' ∨ k = ps.length ∧ e' = e := by
  unfold Holds
  by_cases hk : k < ps.length
  · rw [List.getElem?_append_left hk]
    simp [Nat.ne_of_lt hk]
  · rw [List.getElem?_append_right (by omega), List.getElem?_eq_none (by omega : ps.length ≤ k)]
    by_cases heq : k = ps.length
    · subst heq
      simp [eq_comm]
    · have : k - ps.length ≠ 0 := by omega
      simp [heq, this]

end Places

/-! ## The invariant -/

namespace Reduction

/-- The placeholders among the fragments are distinct, and just they hold an expression. -/
structure Kept (r : Reduction) : Prop where
  distinct : (Fragment.places r.fragments).Nodup
  filled : ∀ k, k ∈ Fragment.places r.fragments ↔ ∃ e, r.places.Holds k e

/-- What stays when the middle of a list without repetition is taken out. -/
theorem mem_sides_iff {before ks behind : List Nat} (distinct : (before ++ ks ++ behind).Nodup)
    (k : Nat) : k ∈ before ++ behind ↔ k ∈ before ++ ks ++ behind ∧ k ∉ ks := by
  rw [List.nodup_append, List.nodup_append] at distinct
  obtain ⟨⟨-, -, apart⟩, -, apart'⟩ := distinct
  rw [List.mem_append, List.mem_append, List.mem_append]
  constructor
  · rintro (hk | hk)
    · exact ⟨.inl (.inl hk), fun hks => apart k hk k hks rfl⟩
    · exact ⟨.inr hk, fun hks => apart' k (List.mem_append_right _ hks) k hk rfl⟩
  · rintro ⟨(hk | hk) | hk, hks⟩
    · exact .inl hk
    · exact absurd hk hks
    · exact .inr hk

theorem nodup_sides {before ks behind : List Nat} (distinct : (before ++ ks ++ behind).Nodup) :
    (before ++ behind).Nodup := by
  rw [List.nodup_append, List.nodup_append] at distinct
  obtain ⟨⟨hbefore, -, -⟩, hbehind, apart⟩ := distinct
  refine List.nodup_append.mpr ⟨hbefore, hbehind, ?_⟩
  intro a ha b hb
  exact apart a (List.mem_append_left _ ha) b hb

/-- Places are taken, and a new one stands for them. -/
theorem Kept.of_taken {fs fs' : List Fragment} {ps ps' : Places} {before ks behind : List Nat}
    (h : Kept ⟨fs, ps⟩) (hfs : Fragment.places fs = before ++ ks ++ behind)
    (emptied : ps.Emptied ps' ks) (e : Expression)
    (hfs' : Fragment.places fs' = before ++ ps'.length :: behind) :
    Kept ⟨fs', ps' ++ [some e]⟩ := by
  obtain ⟨distinct, filled⟩ := h
  simp only [hfs] at distinct filled
  -- what is not taken is still held, and the new place is none of it
  have stays : ∀ k, k ∈ before ++ behind ↔ ∃ e, ps'.Holds k e := by
    intro k
    rw [mem_sides_iff distinct, filled]
    simp only [emptied.holds, exists_and_right]
  have absent : ps'.length ∉ before ++ behind := by
    intro hmem
    obtain ⟨e', he'⟩ := (stays _).mp hmem
    exact Nat.lt_irrefl _ he'.lt_length
  constructor
  · simp only [hfs']
    exact List.nodup_middle.mpr (List.nodup_cons.mpr ⟨absent, nodup_sides distinct⟩)
  · intro k
    simp only [hfs', Places.holds_concat, exists_or, ← stays]
    simp only [List.mem_append, List.mem_cons]
    constructor
    · rintro (hk | rfl | hk)
      · exact .inl (.inl hk)
      · exact .inr ⟨e, rfl, rfl⟩
      · exact .inl (.inr hk)
    · rintro ((hk | hk) | ⟨e', rfl, -⟩)
      · exact .inl hk
      · exact .inr (.inr hk)
      · exact .inr (.inl rfl)

/-! ## No place is dangling -/

theorem operand_of_filled (mixed : List String) {ps : Places} {side : Side}
    (filled : ∀ k ∈ side.places, ∃ e, ps.Holds k e) :
    ∃ x ps' inverted, operand mixed ps side = .ok (x, ps', inverted) ∧
      ps.Emptied ps' side.places := by
  cases side with
  | place negated k =>
    obtain ⟨e, he⟩ := filled k (by simp [Side.places])
    obtain ⟨ps', htake, emptied⟩ := Places.take?_of_holds he
    exact ⟨.nested (if negated then e.negate else e), ps', [], by simp [operand, htake], emptied⟩
  | name negated w =>
    simp only [operand]
    split
    · exact ⟨_, _, _, rfl, .refl ps⟩
    · split
      · exact ⟨_, _, _, rfl, .refl ps⟩
      · exact ⟨_, _, _, rfl, .refl ps⟩

/-- What held an expression and was not taken still holds it. -/
theorem filled_of_emptied {ps ps' : Places} {ks ls : List Nat} (emptied : ps.Emptied ps' ks)
    (apart : ∀ k ∈ ls, k ∉ ks) (filled : ∀ k ∈ ls, ∃ e, ps.Holds k e) :
    ∀ k ∈ ls, ∃ e, ps'.Holds k e := by
  intro k hk
  obtain ⟨e, he⟩ := filled k hk
  exact ⟨e, (emptied.holds k e).mpr ⟨he, apart k hk⟩⟩

theorem readTriple_of_filled (mixed : List String) {ps : Places} {t : Triple}
    (distinct : t.places.Nodup) (filled : ∀ k ∈ t.places, ∃ e, ps.Holds k e) :
    ∃ e ps', readTriple mixed ps t = .ok (e, ps') ∧ ps.Emptied ps' t.places := by
  have filled_left : ∀ k ∈ t.left.places, ∃ e, ps.Holds k e := by
    intro k hk
    exact filled k (List.mem_append_left _ hk)
  have filled_right : ∀ k ∈ t.right.places, ∃ e, ps.Holds k e := by
    intro k hk
    exact filled k (List.mem_append_right _ hk)
  have apart : ∀ k ∈ t.right.places, k ∉ t.left.places := by
    intro k hr hl
    exact (List.nodup_append.mp distinct).2.2 k hl k hr rfl
  unfold readTriple
  split
  · rename_i k hleft
    rw [hleft] at filled_left apart
    obtain ⟨e, he⟩ := filled_left k (by simp [Side.places])
    obtain ⟨ps₁, htake, emptied₁⟩ := Places.take?_of_holds he
    obtain ⟨y, ps₂, inverted, hright, emptied₂⟩ :=
      operand_of_filled mixed (filled_of_emptied emptied₁ apart filled_right)
    refine ⟨_, ps₂, by simp [htake, hright]; rfl, ?_⟩
    rw [Triple.places, hleft]
    exact emptied₁.trans emptied₂
  · obtain ⟨x, ps₁, inverted₁, hleft, emptied₁⟩ := operand_of_filled mixed filled_left
    obtain ⟨y, ps₂, inverted₂, hright, emptied₂⟩ :=
      operand_of_filled mixed (filled_of_emptied emptied₁ apart filled_right)
    exact ⟨_, ps₂, by simp [hleft, hright]; rfl, emptied₁.trans emptied₂⟩

/-- A triple that was found can be read. -/
theorem Kept.exists_readTriple {r : Reduction} (h : r.Kept) (mixed : List String) {t : Triple}
    (hfound : Triple.find? r.fragments = some t) :
    ∃ e ps, readTriple mixed r.places t = .ok (e, ps) ∧ r.places.Emptied ps t.places := by
  have hfs := congrArg Fragment.places (Triple.find?_eq_some hfound)
  rw [Triple.places_fragments] at hfs
  have distinct := h.distinct
  rw [hfs] at distinct
  refine readTriple_of_filled mixed
    (List.nodup_append.mp (List.nodup_append.mp distinct).1).2.1 (fun k hk => ?_)
  exact (h.filled k).mp (by simp [hfs, hk])

/-- Reading a part keeps the bookkeeping. -/
theorem Kept.reduce {mixed : List String} {r : Reduction} (h : r.Kept) :
    r.reduce mixed = .stuck ∨ ∃ r', r.reduce mixed = .next r' ∧ r'.Kept := by
  obtain ⟨fs, ps⟩ := r
  unfold Reduction.reduce
  simp only
  split
  · rename_i before k behind hfound
    have hfs := findNegatedPlace?_eq_some hfound
    obtain ⟨e, he⟩ := (h.filled k).mp (by simp [hfs])
    obtain ⟨ps', htake, emptied⟩ := Places.take?_of_holds he
    have hplaces : Fragment.places fs =
        Fragment.places before ++ [k] ++ Fragment.places behind := by
      simp [hfs]
    simp only [htake]
    exact .inr ⟨_, rfl, h.of_taken hplaces emptied e.negate (by simp)⟩
  · split
    · rename_i t hfound
      have hfs := congrArg Fragment.places (Triple.find?_eq_some hfound)
      rw [Triple.places_fragments] at hfs
      obtain ⟨e, ps', hread, emptied⟩ := h.exists_readTriple mixed hfound
      simp only [hread]
      exact .inr ⟨_, rfl, h.of_taken hfs emptied e (t.places_replaceBy_unwrap _)⟩
    · exact .inl rfl

/-- A step keeps the bookkeeping, and none is stopped by a dangling place. -/
theorem Kept.step {mixed : List String} {r : Reduction} (h : r.Kept) :
    (∃ e, r.step mixed = .done e) ∨ r.step mixed = .stuck ∨
      ∃ r', r.step mixed = .next r' ∧ r'.Kept := by
  unfold Reduction.step
  split
  · rename_i k hfs
    obtain ⟨e, he⟩ := (h.filled k).mp (by simp [hfs])
    obtain ⟨ps', htake, -⟩ := Places.take?_of_holds he
    exact .inl ⟨e, by simp [htake]⟩
  · split
    · rename_i fs' htidy
      refine .inr (.inr ⟨_, rfl, ?_⟩)
      constructor
      · rw [places_tidy? htidy]
        exact h.distinct
      · intro k
        rw [places_tidy? htidy]
        exact h.filled k
    · exact .inr h.reduce

end Reduction

end SwitchingAlgebra
