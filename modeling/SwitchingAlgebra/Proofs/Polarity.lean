-- Once a sentence is tidy, every name stands in it plain or behind one negation, and no
-- later step changes which.
import SwitchingAlgebra.Proofs.Tidying

namespace SwitchingAlgebra

/-! ## Uses of names -/

mutual

/-- The names that a phrase uses in one polarity. -/
def Phrase.uses (negated after : Bool) : Phrase Atom → List String
  | .atom (.name w) => if after == negated then [w] else []
  | .atom (.place _) => []
  | .negated p => p.uses negated true
  | .group s => s.uses negated

/-- The names that a sentence uses in one polarity. -/
def Sentence.uses (negated : Bool) : Sentence Atom → List String
  | .single p => p.uses negated false
  | .extend s _ p => s.uses negated ++ p.uses negated false

end

mutual

theorem Phrase.namesUsed_fragments (negated : Bool) : ∀ (p : Phrase Atom) (after : Bool)
    (rest : List Fragment), Fragment.namesUsed negated after (p.fragments ++ rest) =
      p.uses negated after ++ Fragment.namesUsed negated false rest
  | .atom (.name w), after, rest => by
    simp only [Phrase.fragments, Atom.fragment, List.singleton_append, Fragment.namesUsed,
      Phrase.uses]
    split <;> rfl
  | .atom (.place k), after, rest => rfl
  | .negated p, after, rest => Phrase.namesUsed_fragments negated p true rest
  | .group s, after, rest => by
    have inside := Sentence.namesUsed_fragments negated s (.closing :: rest)
    simp only [Phrase.fragments, List.cons_append, List.append_assoc, List.nil_append,
      Fragment.namesUsed, Phrase.uses, inside]

theorem Sentence.namesUsed_fragments (negated : Bool) : ∀ (s : Sentence Atom)
    (rest : List Fragment), Fragment.namesUsed negated false (s.fragments ++ rest) =
      s.uses negated ++ Fragment.namesUsed negated false rest
  | .single p, rest => Phrase.namesUsed_fragments negated p false rest
  | .extend s op p, rest => by
    rw [Sentence.fragments, List.append_assoc, Sentence.namesUsed_fragments negated s,
      List.cons_append, Fragment.namesUsed, Phrase.namesUsed_fragments negated p false rest,
      Sentence.uses, List.append_assoc]
    all_goals simp

end

theorem Sentence.namesUsed_eq (negated : Bool) (s : Sentence Atom) :
    Fragment.namesUsed negated false s.fragments = s.uses negated := by
  have h := s.namesUsed_fragments negated []
  rwa [List.append_nil, Fragment.namesUsed, List.append_nil] at h

/-! ## Fixed polarity -/

/-- A name by itself, plain or negated. -/
def Phrase.isName : Phrase Atom → Bool
  | .atom (.name _) => true
  | .negated (.atom (.name _)) => true
  | _ => false

/-- A name by itself, plain or negated. -/
def Sentence.isName : Sentence Atom → Bool
  | .single p => p.isName
  | .extend _ _ _ => false

mutual

/-- Names stand plain where `pos` allows it, negated where `neg` does, and nowhere in a
group of their own or behind two negations. -/
def Phrase.Signed (pos neg : String → Prop) : Phrase Atom → Prop
  | .atom (.name w) => pos w
  | .atom (.place _) => True
  | .negated (.atom (.name w)) => neg w
  | .negated p => p.Signed pos neg ∧ p.isName = false
  | .group s => s.Signed pos neg ∧ s.isName = false

/-- The same of every phrase of a sentence. -/
def Sentence.Signed (pos neg : String → Prop) : Sentence Atom → Prop
  | .single p => p.Signed pos neg
  | .extend s _ p => s.Signed pos neg ∧ p.Signed pos neg

end

section

variable {pos neg : String → Prop}

theorem Phrase.signed_negated {p : Phrase Atom} (h : p.Signed pos neg) (hname : p.isName = false) :
    (Phrase.negated p).Signed pos neg ∧ (Phrase.negated p).isName = false := by
  cases p with
  | atom a =>
    cases a with
    | name w => cases hname
    | place k => exact ⟨⟨h, hname⟩, rfl⟩
  | negated p => exact ⟨⟨h, hname⟩, rfl⟩
  | group s => exact ⟨⟨h, hname⟩, rfl⟩

theorem Sentence.signed_lone {s : Sentence Atom} {p : Phrase Atom} (h : s.lone? = some p) :
    (p.Signed pos neg ↔ s.Signed pos neg) ∧ p.isName = s.isName := by
  unfold Sentence.lone? at h
  split at h
  · cases h
    exact ⟨Iff.rfl, rfl⟩
  · cases h
    exact ⟨Iff.rfl, rfl⟩
  · cases h

mutual

theorem Phrase.signed_strip : ∀ p : Phrase Atom, p.Signed pos neg →
    p.strip.Signed pos neg ∧ p.strip.isName = p.isName
  | .atom _, h => ⟨h, rfl⟩
  | .negated (.atom (.name _)), h => ⟨h, rfl⟩
  | .negated (.atom (.place _)), h => ⟨h, rfl⟩
  | .negated (.negated p), ⟨h, hname⟩ => by
    obtain ⟨signed, same⟩ := Phrase.signed_strip (.negated p) h
    exact Phrase.signed_negated signed (same.trans hname)
  | .negated (.group s), ⟨h, hname⟩ => by
    obtain ⟨signed, same⟩ := Phrase.signed_strip (.group s) h
    exact Phrase.signed_negated signed (same.trans hname)
  | .group s, ⟨h, hname⟩ => by
    obtain ⟨signed, same⟩ := Sentence.signed_strip s h
    rw [Phrase.strip]
    split
    · rename_i p hlone
      obtain ⟨signed_iff, isName_eq⟩ := s.signed_lone hlone
      exact ⟨signed_iff.mpr h, isName_eq.trans hname⟩
    · exact ⟨⟨signed, same.trans hname⟩, rfl⟩

theorem Sentence.signed_strip : ∀ s : Sentence Atom, s.Signed pos neg →
    s.strip.Signed pos neg ∧ s.strip.isName = s.isName
  | .single p, h => Phrase.signed_strip p h
  | .extend s _ p, ⟨h, h'⟩ => ⟨⟨(Sentence.signed_strip s h).1, (Phrase.signed_strip p h').1⟩, rfl⟩

end

mutual

theorem Phrase.signed_cancel : ∀ p : Phrase Atom, p.Signed pos neg →
    p.cancel.Signed pos neg ∧ p.cancel.isName = p.isName
  | .atom _, h => ⟨h, rfl⟩
  | .negated (.atom (.name _)), h => ⟨h, rfl⟩
  | .negated (.atom (.place _)), h => ⟨h, rfl⟩
  | .negated (.negated (.atom (.name _))), ⟨_, hname⟩ => by cases hname
  | .negated (.negated (.atom (.place _))), _ => ⟨trivial, rfl⟩
  | .negated (.negated (.negated p)), ⟨⟨h, hname⟩, _⟩ => by
    obtain ⟨signed, same⟩ := Phrase.signed_cancel (.negated p) h
    exact ⟨signed, same.trans hname⟩
  | .negated (.negated (.group s)), ⟨⟨h, hname⟩, _⟩ => by
    obtain ⟨signed, same⟩ := Phrase.signed_cancel (.group s) h
    exact ⟨signed, same.trans hname⟩
  | .negated (.group s), ⟨h, hname⟩ => by
    obtain ⟨signed, same⟩ := Phrase.signed_cancel (.group s) h
    exact Phrase.signed_negated signed (same.trans hname)
  | .group s, ⟨h, hname⟩ => by
    obtain ⟨signed, same⟩ := Sentence.signed_cancel s h
    exact ⟨⟨signed, same.trans hname⟩, rfl⟩

theorem Sentence.signed_cancel : ∀ s : Sentence Atom, s.Signed pos neg →
    s.cancel.Signed pos neg ∧ s.cancel.isName = s.isName
  | .single p, h => Phrase.signed_cancel p h
  | .extend s _ p, ⟨h, h'⟩ =>
    ⟨⟨(Sentence.signed_cancel s h).1, (Phrase.signed_cancel p h').1⟩, rfl⟩

end

theorem Sentence.isName_of_lone {s : Sentence Atom} (h : s.lone? = none) : s.isName = false := by
  unfold Sentence.lone? at h
  split at h
  · cases h
  · cases h
  · rename_i plain negated
    unfold Sentence.isName
    split
    · rename_i p
      unfold Phrase.isName
      split
      · exact absurd rfl (plain _)
      · exact absurd rfl (negated _)
      · rfl
    · rfl

mutual

/-- In a tidy phrase every name stands in the polarity in which it is used. -/
theorem Phrase.signed_of_tidy : ∀ p : Phrase Atom, p.Tidy →
    (∀ w ∈ p.uses false false, pos w) → (∀ w ∈ p.uses true false, neg w) → p.Signed pos neg
  | .atom (.name w), _, hpos, _ => hpos w (by simp [Phrase.uses])
  | .atom (.place _), _, _, _ => trivial
  | .negated (.atom (.name w)), _, _, hneg => hneg w (by simp [Phrase.uses])
  | .negated (.atom (.place _)), _, _, _ => ⟨trivial, rfl⟩
  | .negated (.negated _), ⟨_, twice⟩, _, _ => by cases twice
  | .negated (.group s), ⟨tidy, _⟩, hpos, hneg =>
    ⟨Phrase.signed_of_tidy (.group s) tidy hpos hneg, rfl⟩
  | .group s, ⟨tidy, hlone⟩, hpos, hneg =>
    ⟨Sentence.signed_of_tidy s tidy hpos hneg, s.isName_of_lone hlone⟩

theorem Sentence.signed_of_tidy : ∀ s : Sentence Atom, s.Tidy →
    (∀ w ∈ s.uses false, pos w) → (∀ w ∈ s.uses true, neg w) → s.Signed pos neg
  | .single p, tidy, hpos, hneg => Phrase.signed_of_tidy p tidy hpos hneg
  | .extend s _ p, ⟨tidy, tidy'⟩, hpos, hneg =>
    ⟨Sentence.signed_of_tidy s tidy (fun w hw => hpos w (List.mem_append_left _ hw))
        (fun w hw => hneg w (List.mem_append_left _ hw)),
      Phrase.signed_of_tidy p tidy' (fun w hw => hpos w (List.mem_append_right _ hw))
        (fun w hw => hneg w (List.mem_append_right _ hw))⟩

end

end

end SwitchingAlgebra
