-- Tidying keeps sentences sentences: taking groups of one operand apart and cancelling
-- double negations are changes of the tree, and they keep what it stands for.
import SwitchingAlgebra.Parsing.Reduction
import SwitchingAlgebra.Proofs.Grammar

namespace SwitchingAlgebra

/-! ## Tidying a tree -/

/-- The only operand of a sentence, a negated one included. -/
def Sentence.lone? {α : Type} : Sentence α → Option (Phrase α)
  | .single (.atom a) => some (.atom a)
  | .single (.negated (.atom a)) => some (.negated (.atom a))
  | _ => none

mutual

/-- Takes the groups of one operand apart. -/
def Phrase.strip {α : Type} : Phrase α → Phrase α
  | .atom a => .atom a
  | .negated p => .negated p.strip
  | .group s =>
    match s.lone? with
    | some p => p
    | none => .group s.strip

/-- Takes the groups of one operand apart. -/
def Sentence.strip {α : Type} : Sentence α → Sentence α
  | .single p => .single p.strip
  | .extend s op p => .extend s.strip op p.strip

end

mutual

/-- Cancels double negations. -/
def Phrase.cancel {α : Type} : Phrase α → Phrase α
  | .atom a => .atom a
  | .negated (.negated p) => p.cancel
  | .negated p => .negated p.cancel
  | .group s => .group s.cancel

/-- Cancels double negations. -/
def Sentence.cancel {α : Type} : Sentence α → Sentence α
  | .single p => .single p.cancel
  | .extend s op p => .extend s.cancel op p.cancel

end

/-! ## Interpretations -/

/-- What sentences stand for, given for each way to put one together. Two negations cancel
out. -/
structure Interpretation (W : Type) where
  negate : W → W
  join : Operator → W → W → W
  negate_negate : ∀ x, negate (negate x) = x

section

variable {α W : Type} (A : Interpretation W) (ι : α → W)

mutual

/-- What a phrase stands for. -/
def Phrase.interpret : Phrase α → W
  | .atom a => ι a
  | .negated p => A.negate p.interpret
  | .group s => s.interpret

/-- What a sentence stands for. -/
def Sentence.interpret : Sentence α → W
  | .single p => p.interpret
  | .extend s op p => A.join op s.interpret p.interpret

end

theorem Sentence.interpret_lone {s : Sentence α} {p : Phrase α} (h : s.lone? = some p) :
    p.interpret A ι = s.interpret A ι := by
  unfold Sentence.lone? at h
  split at h
  · cases h
    rfl
  · cases h
    rfl
  · cases h

mutual

theorem Phrase.interpret_strip : ∀ p : Phrase α, p.strip.interpret A ι = p.interpret A ι
  | .atom _ => rfl
  | .negated p => congrArg A.negate (Phrase.interpret_strip p)
  | .group s => by
    rw [Phrase.strip]
    split
    · rename_i p h
      exact s.interpret_lone A ι h
    · exact Sentence.interpret_strip s

theorem Sentence.interpret_strip : ∀ s : Sentence α, s.strip.interpret A ι = s.interpret A ι
  | .single p => Phrase.interpret_strip p
  | .extend s op p => by
    rw [Sentence.strip, Sentence.interpret, Sentence.interpret, Sentence.interpret_strip s,
      Phrase.interpret_strip p]

end

mutual

theorem Phrase.interpret_cancel : ∀ p : Phrase α, p.cancel.interpret A ι = p.interpret A ι
  | .atom _ => rfl
  | .negated (.atom _) => rfl
  | .negated (.negated p) => by
    rw [Phrase.cancel, Phrase.interpret_cancel p, Phrase.interpret, Phrase.interpret,
      A.negate_negate]
  | .negated (.group s) => congrArg A.negate (Sentence.interpret_cancel s)
  | .group s => Sentence.interpret_cancel s

theorem Sentence.interpret_cancel : ∀ s : Sentence α, s.cancel.interpret A ι = s.interpret A ι
  | .single p => Phrase.interpret_cancel p
  | .extend s op p => by
    rw [Sentence.cancel, Sentence.interpret, Sentence.interpret, Sentence.interpret_cancel s,
      Phrase.interpret_cancel p]

end

end

/-! ## The atoms stay -/

section

variable {α : Type}

theorem Sentence.atoms_lone {s : Sentence α} {p : Phrase α} (h : s.lone? = some p) :
    p.atoms = s.atoms := by
  unfold Sentence.lone? at h
  split at h
  · cases h
    rfl
  · cases h
    rfl
  · cases h

mutual

theorem Phrase.atoms_strip : ∀ p : Phrase α, p.strip.atoms = p.atoms
  | .atom _ => rfl
  | .negated p => Phrase.atoms_strip p
  | .group s => by
    rw [Phrase.strip]
    split
    · rename_i p h
      exact s.atoms_lone h
    · exact Sentence.atoms_strip s

theorem Sentence.atoms_strip : ∀ s : Sentence α, s.strip.atoms = s.atoms
  | .single p => Phrase.atoms_strip p
  | .extend s op p => by
    rw [Sentence.strip, Sentence.atoms, Sentence.atoms, Sentence.atoms_strip s,
      Phrase.atoms_strip p]

end

mutual

theorem Phrase.atoms_cancel : ∀ p : Phrase α, p.cancel.atoms = p.atoms
  | .atom _ => rfl
  | .negated (.atom _) => rfl
  | .negated (.negated p) => Phrase.atoms_cancel p
  | .negated (.group s) => Sentence.atoms_cancel s
  | .group s => Sentence.atoms_cancel s

theorem Sentence.atoms_cancel : ∀ s : Sentence α, s.cancel.atoms = s.atoms
  | .single p => Phrase.atoms_cancel p
  | .extend s op p => by
    rw [Sentence.cancel, Sentence.atoms, Sentence.atoms, Sentence.atoms_cancel s,
      Phrase.atoms_cancel p]

end

end

/-! ## Tidying fragments is tidying the tree -/

namespace Fragment

/-- A lone operand stands in front of a closing parenthesis. -/
def LoneAhead (fs : List Fragment) : Prop :=
  ∃ (a : Atom) (rest : List Fragment),
    fs = a.fragment :: .closing :: rest ∨ fs = .negation :: a.fragment :: .closing :: rest

theorem stripGroups_opening {fs : List Fragment} (h : ¬ LoneAhead fs) :
    stripGroups (.opening :: fs) = .opening :: stripGroups fs := by
  rw [stripGroups]
  · rintro w rest _ rfl
    exact h ⟨.name w, rest, .inl rfl⟩
  · rintro k rest _ rfl
    exact h ⟨.place k, rest, .inl rfl⟩
  · rintro w rest _ rfl
    exact h ⟨.name w, rest, .inr rfl⟩
  · rintro k rest _ rfl
    exact h ⟨.place k, rest, .inr rfl⟩

theorem stripGroups_cons {f : Fragment} (h : f ≠ .opening) (fs : List Fragment) :
    stripGroups (f :: fs) = f :: stripGroups fs := by
  cases f <;> first | exact absurd rfl h | simp [stripGroups]

theorem cancelNegations_cons {f : Fragment} (h : f ≠ .negation) (fs : List Fragment) :
    cancelNegations (f :: fs) = f :: cancelNegations fs := by
  cases f <;> first | exact absurd rfl h | simp [cancelNegations]

theorem cancelNegations_negation {f : Fragment} (h : f ≠ .negation) (fs : List Fragment) :
    cancelNegations (.negation :: f :: fs) = .negation :: cancelNegations (f :: fs) := by
  cases f <;> first | exact absurd rfl h | simp [cancelNegations]

end Fragment

open Fragment

theorem Atom.fragment_ne_opening (a : Atom) : a.fragment ≠ .opening := by
  cases a <;> simp [Atom.fragment]

theorem Atom.fragment_ne_negation (a : Atom) : a.fragment ≠ .negation := by
  cases a <;> simp [Atom.fragment]

/-- A lone operand in front of what follows a sentence is all of the sentence. -/
theorem Sentence.lone?_of_loneAhead : ∀ (s : Sentence Atom) (rest : List Fragment),
    LoneAhead (s.fragments ++ rest) → s.lone?.isSome ∧ ∃ rest', rest = .closing :: rest'
  | .single (.atom a), rest, ⟨b, rest', h⟩ => by
    rcases h with h | h
    · exact ⟨rfl, rest', (List.cons.inj h).2⟩
    · exact absurd (List.cons.inj h).1 a.fragment_ne_negation
  | .single (.negated (.atom a)), rest, ⟨b, rest', h⟩ => by
    rcases h with h | h
    · exact absurd (List.cons.inj h).1.symm b.fragment_ne_negation
    · exact ⟨rfl, rest', (List.cons.inj (List.cons.inj h).2).2⟩
  | .single (.negated (.negated p)), rest, ⟨b, rest', h⟩ => by
    rcases h with h | h
    · exact absurd (List.cons.inj h).1.symm b.fragment_ne_negation
    · exact absurd (List.cons.inj (List.cons.inj h).2).1.symm b.fragment_ne_negation
  | .single (.negated (.group s)), rest, ⟨b, rest', h⟩ => by
    rcases h with h | h
    · exact absurd (List.cons.inj h).1.symm b.fragment_ne_negation
    · exact absurd (List.cons.inj (List.cons.inj h).2).1.symm b.fragment_ne_opening
  | .single (.group s), rest, ⟨b, rest', h⟩ => by
    rcases h with h | h
    · exact absurd (List.cons.inj h).1.symm b.fragment_ne_opening
    · cases (List.cons.inj h).1
  | .extend s op p, rest, h => by
    rw [Sentence.fragments, List.append_assoc] at h
    obtain ⟨_, rest', hrest⟩ := Sentence.lone?_of_loneAhead s _ h
    cases (List.cons.inj hrest).1

mutual

theorem Phrase.stripGroups_fragments : ∀ (p : Phrase Atom) (rest : List Fragment),
    stripGroups (p.fragments ++ rest) = p.strip.fragments ++ stripGroups rest
  | .atom a, rest => stripGroups_cons a.fragment_ne_opening rest
  | .negated p, rest => by
    rw [Phrase.fragments, Phrase.strip, Phrase.fragments, List.cons_append,
      stripGroups_cons (by simp), Phrase.stripGroups_fragments p rest, List.cons_append]
  | .group s, rest => by
    rw [Phrase.strip]
    split
    · rename_i p h
      unfold Sentence.lone? at h
      split at h
      · rename_i a
        cases h
        cases a <;> simp [Phrase.fragments, Sentence.fragments, Atom.fragment, stripGroups]
      · rename_i a
        cases h
        cases a <;> simp [Phrase.fragments, Sentence.fragments, Atom.fragment, stripGroups]
      · cases h
    · rename_i h
      have ahead : ¬ LoneAhead (s.fragments ++ .closing :: rest) := by
        intro hlone
        have := (s.lone?_of_loneAhead _ hlone).1
        rw [h] at this
        cases this
      have inside := Sentence.stripGroups_fragments s (.closing :: rest)
      rw [stripGroups_cons (by simp)] at inside
      rw [Phrase.fragments, Phrase.fragments, List.cons_append, List.append_assoc,
        List.singleton_append, stripGroups_opening ahead, inside]
      simp

theorem Sentence.stripGroups_fragments : ∀ (s : Sentence Atom) (rest : List Fragment),
    stripGroups (s.fragments ++ rest) = s.strip.fragments ++ stripGroups rest
  | .single p, rest => Phrase.stripGroups_fragments p rest
  | .extend s op p, rest => by
    rw [Sentence.fragments, Sentence.strip, Sentence.fragments, List.append_assoc,
      Sentence.stripGroups_fragments s, List.cons_append, stripGroups_cons (by simp),
      Phrase.stripGroups_fragments p, List.append_assoc, List.cons_append]

end

mutual

theorem Phrase.cancelNegations_fragments : ∀ (p : Phrase Atom) (rest : List Fragment),
    cancelNegations (p.fragments ++ rest) = p.cancel.fragments ++ cancelNegations rest
  | .atom a, rest => cancelNegations_cons a.fragment_ne_negation rest
  | .negated (.atom a), rest => by
    simp only [Phrase.fragments, Phrase.cancel, List.cons_append, List.nil_append]
    rw [cancelNegations_negation a.fragment_ne_negation,
      cancelNegations_cons a.fragment_ne_negation]
  | .negated (.negated p), rest => by
    rw [Phrase.cancel, ← Phrase.cancelNegations_fragments p rest]
    rfl
  | .negated (.group s), rest => by
    have inside := Sentence.cancelNegations_fragments s (.closing :: rest)
    rw [cancelNegations_cons (by simp)] at inside
    simp only [Phrase.fragments, Phrase.cancel, List.cons_append, List.append_assoc,
      List.nil_append]
    rw [cancelNegations_negation (by simp), cancelNegations_cons (by simp), inside]
  | .group s, rest => by
    have inside := Sentence.cancelNegations_fragments s (.closing :: rest)
    rw [cancelNegations_cons (by simp)] at inside
    simp only [Phrase.fragments, Phrase.cancel, List.cons_append, List.append_assoc,
      List.nil_append]
    rw [cancelNegations_cons (by simp), inside]

theorem Sentence.cancelNegations_fragments : ∀ (s : Sentence Atom) (rest : List Fragment),
    cancelNegations (s.fragments ++ rest) = s.cancel.fragments ++ cancelNegations rest
  | .single p, rest => Phrase.cancelNegations_fragments p rest
  | .extend s op p, rest => by
    rw [Sentence.fragments, Sentence.cancel, Sentence.fragments, List.append_assoc,
      Sentence.cancelNegations_fragments s, List.cons_append, cancelNegations_cons (by simp),
      Phrase.cancelNegations_fragments p, List.append_assoc, List.cons_append]

end

/-! ## When nothing is left to tidy -/

/-- The phrase begins with a negation. -/
def Phrase.isNegated {α : Type} : Phrase α → Bool
  | .negated _ => true
  | _ => false

mutual

/-- There is no group of one operand and no double negation. -/
def Phrase.Tidy {α : Type} : Phrase α → Prop
  | .atom _ => True
  | .negated p => p.Tidy ∧ p.isNegated = false
  | .group s => s.Tidy ∧ s.lone? = none

/-- There is no group of one operand and no double negation. -/
def Sentence.Tidy {α : Type} : Sentence α → Prop
  | .single p => p.Tidy
  | .extend s _ p => s.Tidy ∧ p.Tidy

end

theorem Sentence.fragments_lone {s : Sentence Atom} {p : Phrase Atom} (h : s.lone? = some p) :
    p.fragments = s.fragments := by
  unfold Sentence.lone? at h
  split at h
  · cases h
    rfl
  · cases h
    rfl
  · cases h

mutual

theorem Phrase.length_strip_le : ∀ p : Phrase Atom,
    p.strip.fragments.length ≤ p.fragments.length
  | .atom _ => Nat.le_refl _
  | .negated p => Nat.succ_le_succ (Phrase.length_strip_le p)
  | .group s => by
    have inside := Sentence.length_strip_le s
    rw [Phrase.strip]
    split
    · rename_i p h
      simp only [s.fragments_lone h, Phrase.fragments, List.length_cons, List.length_append]
      omega
    · simp only [Phrase.fragments, List.length_cons, List.length_append]
      omega

theorem Sentence.length_strip_le : ∀ s : Sentence Atom,
    s.strip.fragments.length ≤ s.fragments.length
  | .single p => Phrase.length_strip_le p
  | .extend s op p => by
    have first := Sentence.length_strip_le s
    have second := Phrase.length_strip_le p
    simp only [Sentence.strip, Sentence.fragments, List.length_append, List.length_cons]
    omega

end

mutual

theorem Phrase.length_cancel_le : ∀ p : Phrase Atom,
    p.cancel.fragments.length ≤ p.fragments.length
  | .atom _ => Nat.le_refl _
  | .negated (.atom _) => Nat.le_refl _
  | .negated (.negated p) =>
    Nat.le_trans (Phrase.length_cancel_le p) (Nat.le_add_right p.fragments.length 2)
  | .negated (.group s) => by
    have inside := Sentence.length_cancel_le s
    simp only [Phrase.cancel, Phrase.fragments, List.length_cons, List.length_append]
    omega
  | .group s => by
    have inside := Sentence.length_cancel_le s
    simp only [Phrase.cancel, Phrase.fragments, List.length_cons, List.length_append]
    omega

theorem Sentence.length_cancel_le : ∀ s : Sentence Atom,
    s.cancel.fragments.length ≤ s.fragments.length
  | .single p => Phrase.length_cancel_le p
  | .extend s op p => by
    have first := Sentence.length_cancel_le s
    have second := Phrase.length_cancel_le p
    simp only [Sentence.cancel, Sentence.fragments, List.length_append, List.length_cons]
    omega

end

mutual

/-- What neither change makes shorter is tidy. -/
theorem Phrase.tidy_of_length : ∀ p : Phrase Atom,
    p.fragments.length ≤ p.strip.fragments.length →
    p.fragments.length ≤ p.cancel.fragments.length → p.Tidy
  | .atom _, _, _ => trivial
  | .negated (.atom _), _, _ => ⟨trivial, rfl⟩
  | .negated (.negated p), _, h => by
    have shorter := Phrase.length_cancel_le p
    simp only [Phrase.cancel, Phrase.fragments, List.length_cons] at h
    omega
  | .negated (.group s), h, h' =>
    ⟨Phrase.tidy_of_length (.group s) (Nat.le_of_succ_le_succ h) (Nat.le_of_succ_le_succ h'), rfl⟩
  | .group s, h, h' => by
    have inside := Sentence.length_strip_le s
    cases hlone : s.lone? with
    | some p =>
      simp only [Phrase.strip, hlone, s.fragments_lone hlone, Phrase.fragments, List.length_cons,
        List.length_append] at h
      omega
    | none =>
      simp only [Phrase.strip, hlone, Phrase.cancel, Phrase.fragments, List.length_cons,
        List.length_append] at h h'
      exact ⟨Sentence.tidy_of_length s (by omega) (by omega), hlone⟩

theorem Sentence.tidy_of_length : ∀ s : Sentence Atom,
    s.fragments.length ≤ s.strip.fragments.length →
    s.fragments.length ≤ s.cancel.fragments.length → s.Tidy
  | .single p, h, h' => Phrase.tidy_of_length p h h'
  | .extend s op p, h, h' => by
    have first := Sentence.length_strip_le s
    have second := Phrase.length_strip_le p
    have first' := Sentence.length_cancel_le s
    have second' := Phrase.length_cancel_le p
    simp only [Sentence.strip, Sentence.cancel, Sentence.fragments, List.length_append,
      List.length_cons] at h h'
    exact ⟨Sentence.tidy_of_length s (by omega) (by omega),
      Phrase.tidy_of_length p (by omega) (by omega)⟩

end

theorem Sentence.stripGroups_eq (s : Sentence Atom) :
    stripGroups s.fragments = s.strip.fragments := by
  have h := s.stripGroups_fragments []
  rwa [List.append_nil, stripGroups, List.append_nil] at h

theorem Sentence.cancelNegations_eq (s : Sentence Atom) :
    cancelNegations s.fragments = s.cancel.fragments := by
  have h := s.cancelNegations_fragments []
  rwa [List.append_nil, cancelNegations, List.append_nil] at h

/-- Tidying a sentence leaves a sentence. -/
theorem Sentence.tidy?_eq_some {s : Sentence Atom} {fs : List Fragment}
    (h : tidy? s.fragments = some fs) : fs = s.strip.fragments ∨ fs = s.cancel.fragments := by
  unfold tidy? at h
  rw [s.stripGroups_eq, s.cancelNegations_eq] at h
  simp only at h
  split at h
  · exact .inl (Option.some.inj h).symm
  · split at h
    · exact .inr (Option.some.inj h).symm
    · cases h

theorem Sentence.tidy_of_tidy? {s : Sentence Atom} (h : tidy? s.fragments = none) : s.Tidy := by
  unfold tidy? at h
  rw [s.stripGroups_eq, s.cancelNegations_eq] at h
  simp only at h
  split at h
  · cases h
  · split at h
    · cases h
    · exact s.tidy_of_length (by omega) (by omega)

end SwitchingAlgebra
