-- What a step of a reduction does to a sentence, said once. What sentences stand for stays
-- when the new place stands for what was read, whatever they are interpreted in.
import Mathlib.Logic.Function.Basic
import SwitchingAlgebra.Proofs.Searches

namespace SwitchingAlgebra

open Fragment

theorem Sentence.findNegatedPlace?_of_plain (s : Sentence Atom) (h : s.Plain) :
    Fragment.findNegatedPlace? s.fragments = none := by
  have skipped := s.skipped h []
  rwa [List.append_nil] at skipped

/-- A single side that is neither negated nor a placeholder is a name. -/
theorem Side.isName_of_plain (side : Side) (plain : side.phrase.Plain)
    (h : ∀ k, (Sentence.single side.phrase).fragments ≠ [.place k]) :
    (Sentence.single side.phrase).isName ≠ false := by
  rcases side with ⟨_ | _, w⟩ | ⟨_ | _, k⟩
  · simp [phrase, Sentence.isName, Phrase.isName]
  · simp [phrase, Sentence.isName, Phrase.isName]
  · exact absurd rfl (h k)
  · exact plain.elim

/-- A sentence of one placeholder is the placeholder. -/
theorem Sentence.eq_place (s : Sentence Atom) {k : Nat} (h : s.fragments = [.place k]) :
    s = .single (.atom (.place k)) := by
  rcases s with (⟨w | j⟩ | p | s) | ⟨s, op, p⟩
  · cases h
  · cases h
    rfl
  · cases h
  · cases h
  · have mem : Fragment.operator op ∈ [Fragment.place k] := by
      rw [← h]
      simp [fragments]
    simp at mem

/-! ## Steps on sentences -/

/-- What a step makes of a sentence and of the places: the sentence is tidied, the expression
behind the leftmost negated placeholder is negated, or the leftmost triple is read. What was
read goes to a new place. -/
inductive Sentence.StepsTo (mixed : List String) (s : Sentence Atom) (ps : Places) :
    Sentence Atom → Places → Prop
  | strip : StepsTo mixed s ps s.strip ps
  | cancel : StepsTo mixed s ps s.cancel ps
  | negate {c : Context} {head : Head} {k : Nat} {e : Expression} {ps' : Places} : s.Tidy →
      s.NegatesPlace c head k → ps.Holds k e → ps.Emptied ps' [k] →
      StepsTo mixed s ps (c.plug (head.endWith (.atom (.place ps'.length))))
        (ps' ++ [some e.negate])
  | triple {c : Context} {left right : Side} {op : Operator} {e : Expression} {ps' : Places} :
      s.HasTriple c left op right →
      Reduction.readTriple mixed ps ⟨c.before, left, op, right, c.behind⟩ = .ok (e, ps') →
      ps.Emptied ps' (left.places ++ right.places) →
      StepsTo mixed s ps (c.withPlace ps'.length) (ps' ++ [some e])

theorem Sentence.HasTriple.places_eq {s : Sentence Atom} {c : Context} {left right : Side}
    {op : Operator} (h : s.HasTriple c left op right) : places s.fragments =
      places c.before ++ (left.places ++ right.places) ++ places c.behind := by
  rw [Triple.find?_eq_some h.find_eq, Triple.places_fragments]
  rfl

namespace Reduction

/-- The fragments are a sentence whose placeholders are just the places that are filled, and
every name stands in its polarity. -/
structure Spells (pos neg : String → Prop) (r : Reduction) (s : Sentence Atom) : Prop where
  fragments : r.fragments = s.fragments
  kept : r.Kept
  signed : s.Signed pos neg
  unnamed : s.isName = false

section

variable {pos neg : String → Prop} {mixed : List String} {r : Reduction} {s : Sentence Atom}

theorem Spells.filled (h : r.Spells pos neg s) {k : Nat}
    (hk : k ∈ Fragment.places s.fragments) : ∃ e, r.places.Holds k e := by
  rw [← h.fragments] at hk
  exact (h.kept.filled k).mp hk

/-- A new place is none of those that stand in the sentence. -/
theorem Spells.fresh (h : r.Spells pos neg s) {ps : Places} {ks : List Nat}
    (emptied : r.places.Emptied ps ks) : ps.length ∉ Fragment.places s.fragments := by
  intro hk
  obtain ⟨e, he⟩ := h.filled hk
  rw [emptied.length] at he
  exact Nat.lt_irrefl _ he.lt_length

theorem Spells.tidied (h : r.Spells pos neg s) {s' : Sentence Atom}
    (htidy : Fragment.tidy? s.fragments = some s'.fragments)
    (signed : s'.Signed pos neg ∧ s'.isName = s.isName) :
    Spells pos neg { r with fragments := s'.fragments } s' := by
  have same := Fragment.places_tidy? htidy
  rw [← h.fragments] at same
  refine ⟨rfl, ⟨?_, ?_⟩, signed.1, signed.2.trans h.unnamed⟩
  · simp only [same]
    exact h.kept.distinct
  · intro k
    simp only [same]
    exact h.kept.filled k

/-- Negating what waits behind the leftmost negated placeholder. -/
theorem Spells.reduce_negated (h : r.Spells pos neg s) (tidy : s.Tidy) {c : Context} {head : Head}
    {k : Nat} (hs : s.NegatesPlace c head k) :
    ∃ r' s', r.reduce mixed = .next r' ∧ (r'.Kept → r'.Spells pos neg s') ∧
      s.StepsTo mixed r.places s' r'.places := by
  obtain ⟨fs, ps⟩ := r
  obtain rfl : fs = s.fragments := h.fragments
  have hfragments : s.fragments = c.before ++ head.fragments ++ .negation :: .place k :: c.behind :=
    Fragment.findNegatedPlace?_eq_some hs.find_eq
  obtain ⟨e, he⟩ := h.filled (k := k) (by simp [hfragments])
  obtain ⟨ps', htake, emptied⟩ := Places.take?_of_holds he
  have signed := h.signed
  rw [hs.eq_plug, Context.signed_plug c (head.isName_endWith rfl), Head.signed_endWith] at signed
  refine ⟨store (fun k' => c.before ++ head.fragments ++ .place k' :: c.behind) ps' e.negate,
    c.plug (head.endWith (.atom (.place ps'.length))), ?_, fun kept => ⟨?_, kept, ?_, ?_⟩,
    .negate tidy hs he emptied⟩
  · simp only [Reduction.reduce, hs.find_eq, htake]
  · simp [store, Context.fragments_plug, Head.fragments_endWith, Phrase.fragments, Atom.fragment]
  · rw [Context.signed_plug c (head.isName_endWith rfl), Head.signed_endWith]
    exact ⟨signed.1, signed.2.1, trivial⟩
  · exact c.isName_plug (head.isName_endWith rfl)

/-- Reading the leftmost triple. -/
theorem Spells.reduce_triple (h : r.Spells pos neg s)
    (plain : Fragment.findNegatedPlace? s.fragments = none) {c : Context} {left right : Side}
    {op : Operator} (hs : s.HasTriple c left op right) :
    ∃ r' s', r.reduce mixed = .next r' ∧ (r'.Kept → r'.Spells pos neg s') ∧
      s.StepsTo mixed r.places s' r'.places := by
  obtain ⟨fs, ps⟩ := r
  obtain rfl : fs = s.fragments := h.fragments
  have hplaces := hs.places_eq
  have distinct : (left.places ++ right.places).Nodup := by
    have := h.kept.distinct
    rw [hplaces] at this
    exact (List.nodup_append.mp (List.nodup_append.mp this).1).2.1
  have filled : ∀ k ∈ left.places ++ right.places, ∃ e, ps.Holds k e := by
    intro k hk
    refine h.filled ?_
    rw [hplaces, List.mem_append, List.mem_append]
    exact .inl (.inr hk)
  obtain ⟨e, ps', hread, emptied⟩ := readTriple_of_filled mixed
    (t := ⟨c.before, left, op, right, c.behind⟩) distinct filled
  have signed := h.signed
  rw [hs.eq_plug, Context.signed_plug c rfl] at signed
  refine ⟨store (Triple.unwrap ⟨c.before, left, op, right, c.behind⟩).replaceBy ps' e,
    c.withPlace ps'.length, ?_, fun kept => ⟨?_, kept, Context.signed_withPlace signed.1 _,
    c.isName_withPlace _⟩, .triple hs hread emptied⟩
  · simp only [Reduction.reduce, plain, hs.find_eq, hread]
  · exact (c.fragments_withPlace _ left op right).symm

/-- A reduction of a sentence goes on until the sentence is a single placeholder. -/
theorem Spells.step (h : r.Spells pos neg s) :
    (∃ k e, s.fragments = [.place k] ∧ r.places.Holds k e ∧ r.step mixed = .done e) ∨
      ∃ r' s', r.step mixed = .next r' ∧ r'.Spells pos neg s' ∧
        s.StepsTo mixed r.places s' r'.places := by
  unfold Reduction.step
  split
  · rename_i k hk
    obtain ⟨e, he⟩ := h.filled (k := k) (by simp [← h.fragments, hk])
    obtain ⟨ps, htake, -⟩ := Places.take?_of_holds he
    exact .inl ⟨k, e, h.fragments.symm.trans hk, he, by simp [htake]⟩
  · rename_i hdone
    rw [h.fragments] at hdone ⊢
    split
    · rename_i fs htidy
      right
      rcases s.tidy?_eq_some htidy with rfl | rfl
      · exact ⟨_, s.strip, rfl, h.tidied htidy (s.signed_strip h.signed), .strip⟩
      · exact ⟨_, s.cancel, rfl, h.tidied htidy (s.signed_cancel h.signed), .cancel⟩
    · -- nothing is left to tidy, so that one of the two searches finds something
      rename_i htidy
      have tidy := s.tidy_of_tidy? htidy
      have next : ∃ r' s', r.reduce mixed = .next r' ∧ (r'.Kept → r'.Spells pos neg s') ∧
          s.StepsTo mixed r.places s' r'.places := by
        rcases s.plain_or_negatesPlace tidy with plain | ⟨c, head, k, hs⟩
        · rcases s.side_or_triple tidy plain with ⟨side, rfl⟩ | ⟨c, left, op, right, hs⟩
          · exact absurd h.unnamed (side.isName_of_plain plain hdone)
          · exact h.reduce_triple (s.findNegatedPlace?_of_plain plain) hs
        · exact h.reduce_negated tidy hs
      obtain ⟨r', s', hnext, spells, steps⟩ := next
      have reduced : r.reduce mixed = .stuck ∨ ∃ r', r.reduce mixed = .next r' ∧ r'.Kept :=
        h.kept.reduce
      rcases reduced with hstuck | ⟨r'', hnext', kept⟩
      · rw [hstuck] at hnext
        cases hnext
      · rw [hnext] at hnext'
        cases hnext'
        exact .inr ⟨r', s', hnext, spells kept, steps⟩

/-- A reduction of a sentence comes to an end, and what every step keeps holds there. -/
theorem Spells.run {P : Sentence Atom → Places → Prop}
    (preserved : ∀ {r r' : Reduction} {s s' : Sentence Atom}, r.Spells pos neg s →
      s.StepsTo mixed r.places s' r'.places → P s r.places → P s' r'.places)
    (h : r.Spells pos neg s) (hs : P s r.places) :
    ∃ (s' : Sentence Atom) (ps : Places) (k : Nat) (e : Expression), r.run mixed = .ok e ∧
      s'.fragments = [.place k] ∧ ps.Holds k e ∧ P s' ps := by
  -- every step shortens the fragments
  induction hn : r.fragments.length using Nat.strongRecOn generalizing r s with
  | ind n ih =>
    unfold Reduction.run
    rcases h.step with ⟨k, e, hk, he, hdone⟩ | ⟨r', s', hnext, h', steps⟩
    · split
      · rename_i hstep
        cases hdone.symm.trans hstep
      · rename_i hstep
        cases hdone.symm.trans hstep
        exact ⟨s, r.places, k, _, rfl, hk, he, hs⟩
      · rename_i hstep
        cases hdone.symm.trans hstep
      · rename_i hstep
        cases hdone.symm.trans hstep
    · have shorter := length_step hnext
      split
      · rename_i hstep
        cases hnext.symm.trans hstep
        exact ih _ (by omega) h' (preserved h steps hs) rfl
      · rename_i hstep
        cases hnext.symm.trans hstep
      · rename_i hstep
        cases hnext.symm.trans hstep
      · rename_i hstep
        cases hnext.symm.trans hstep

end

end Reduction

/-! ## What stays -/

section

variable {W : Type} {A : Interpretation W} {name : String → W} {ι : Nat → W} {s : Sentence Atom}
  {c : Context} {n : Nat}

/-- Around a negated placeholder a new place counts for nothing. -/
theorem Sentence.NegatesPlace.agree {head : Head} {k : Nat} (h : s.NegatesPlace c head k)
    (fresh : n ∉ places s.fragments) (x : W) {j : Nat}
    (hj : j ∈ places (c.before ++ head.fragments ++ c.behind)) :
    Function.update ι n x j = ι j := by
  apply Function.update_of_ne
  rintro rfl
  apply fresh
  rw [Fragment.findNegatedPlace?_eq_some h.find_eq]
  simp only [places_append, List.mem_append, places_negation, places_place, List.mem_cons] at hj ⊢
  exact hj.imp id .inr

/-- Where a negated placeholder stood, the new one stands for the negation. -/
theorem Sentence.NegatesPlace.interpret_eq {head : Head} {k : Nat} (h : s.NegatesPlace c head k)
    (fresh : n ∉ places s.fragments) :
    (c.plug (head.endWith (.atom (.place n)))).interpret A
        (Atom.interpret name (Function.update ι n (A.negate (ι k)))) =
      s.interpret A (Atom.interpret name ι) := by
  rw [h.eq_plug]
  refine c.interpret_plug (fun j hj => h.agree fresh _ ?_)
    (head.interpret_endWith (fun j hj => h.agree fresh _ ?_) ?_)
  · simp only [places_append, List.mem_append] at hj ⊢
    exact hj.imp .inl id
  · simp [hj]
  · exact Function.update_self _ _ ι

/-- Where a triple stood, the new placeholder stands for both its sides. -/
theorem Sentence.HasTriple.interpret_eq {left right : Side} {op : Operator}
    (h : s.HasTriple c left op right) (fresh : n ∉ places s.fragments) :
    (c.withPlace n).interpret A (Atom.interpret name (Function.update ι n
        (A.join op (left.phrase.interpret A (Atom.interpret name ι))
          (right.phrase.interpret A (Atom.interpret name ι))))) =
      s.interpret A (Atom.interpret name ι) := by
  rw [c.interpret_withPlace, h.eq_plug]
  refine c.interpret_plug (fun j hj => ?_) (Function.update_self _ _ ι)
  apply Function.update_of_ne
  rintro rfl
  apply fresh
  simp only [places_append, List.mem_append] at hj
  rw [h.places_eq, List.mem_append, List.mem_append]
  exact hj.imp .inl id

/-- What is put into a new place is as it should be, and what stays held was so before. -/
theorem Places.held_concat {R : W → Expression → Prop} {ps ps' : Places} {ks : List Nat}
    (held : ∀ k e, ps.Holds k e → R (ι k) e) (emptied : ps.Emptied ps' ks) {e : Expression} {x : W}
    (he : R x e) : ∀ k e', Places.Holds (ps' ++ [some e]) k e' →
      R (Function.update ι ps'.length x k) e' := by
  intro k e' hk
  rcases (Places.holds_concat ps' e k e').mp hk with hk | ⟨rfl, rfl⟩
  · rw [Function.update_of_ne (Nat.ne_of_lt hk.lt_length)]
    exact held k e' ((emptied.holds k e').mp hk).1
  · rw [Function.update_self]
    exact he

end

end SwitchingAlgebra
