-- Every formula is read, and into an expression of its own value. Negated names are
-- inverted inputs there, or nested when they are used plain too.
import SwitchingAlgebra.Proofs.Reading
import SwitchingAlgebra.Proofs.Soundness

namespace SwitchingAlgebra

/-! ## Names -/

mutual

theorem Phrase.mem_atoms_of_uses {negated : Bool} {w : String} : ∀ p : Phrase String,
    w ∈ p.core.uses negated → w ∈ p.atoms
  | .atom n, h => by
    change w ∈ if false == negated then [n] else [] at h
    split at h
    · exact h
    · cases h
  | .negated p, h => by
    obtain ⟨_, h⟩ := Core.mem_uses_negate h
    exact Phrase.mem_atoms_of_uses p h
  | .group s, h => Sentence.mem_atoms_of_uses s h

theorem Sentence.mem_atoms_of_uses {negated : Bool} {w : String} : ∀ s : Sentence String,
    w ∈ s.core.uses negated → w ∈ s.atoms
  | .single p, h => Phrase.mem_atoms_of_uses p h
  | .extend s op p, h => by
    rw [Sentence.atoms, List.mem_append]
    exact (List.mem_append.mp h).imp (Sentence.mem_atoms_of_uses s) (Phrase.mem_atoms_of_uses p)

end

/-! ## The worth of a formula -/

mutual

theorem Phrase.value_worth (v : String → Bool) : ∀ p : Phrase String,
    p.core.worth.value v = p.value v
  | .atom n => Bool.xor_false (v n)
  | .negated p => by
    change p.core.negate.worth.value v = !p.value v
    rw [Core.worth_negate, ← Phrase.value_worth v p]
    rfl
  | .group s => Sentence.value_worth v s

theorem Sentence.value_worth (v : String → Bool) : ∀ s : Sentence String,
    s.core.worth.value v = s.value v
  | .single p => Phrase.value_worth v p
  | .extend s op p => congrArg₂ op.apply (Sentence.value_worth v s) (Phrase.value_worth v p)

end

mutual

theorem Phrase.level_worth_le : ∀ p : Phrase String, p.core.worth.level ≤ p.nesting
  | .atom _ => Nat.le_refl 0
  | .negated p => by
    change p.core.negate.worth.level ≤ p.nesting
    rw [Core.worth_negate]
    exact Phrase.level_worth_le p
  | .group s => Sentence.level_worth_le s

/-- A formula is read into an expression that is nested one level deeper at most. -/
theorem Sentence.level_worth_le : ∀ s : Sentence String, s.core.worth.level ≤ s.nesting + 1
  | .single p => Nat.le_succ_of_le (Phrase.level_worth_le p)
  | .extend s op p => by
    have first := Sentence.level_worth_le s
    have second := Phrase.level_worth_le p
    change max s.core.worth.level (p.core.worth.level + 1) ≤ max s.nesting p.nesting + 1
    omega

end

/-! ## Values of what is read -/

namespace Expression

/-- What carries a worth has its value under every assignment of its names, unless it is nested
too deep. -/
theorem Carries.valueOf {flags : Flags} {x : Worth} {e : Expression} (h : e.Carries flags x)
    {s : Assignment} {v : String → Bool}
    (hs : ∀ n flag, flags n = some flag → s.get? n = some (v n)) :
    e.valueOf s = if e.depth ≤ maxNestingDepth then .ok (some (x.value v))
      else .error (.tooDeeplyNested maxNestingDepth) := by
  split
  · rename_i shallow
    have seen : ∀ n ∈ e.mentions, (e.scope s).values n = flags.values v n := by
      intro n hn
      obtain ⟨b, hb⟩ := Option.isSome_iff_exists.mp (h.bound n hn)
      obtain ⟨-, flag⟩ := h.flagged n b hb
      rw [Bindings.values, scope, Assignment.get?_applyTo, hs n b.inverted flag, hb, Flags.values,
        flag]
      rfl
    rw [valueOf_eq_meaning h.bound shallow, e.meaning_congr seen, e.meaning_eq, h.value]
    rfl
  · rename_i deep
    exact valueOf_eq_error h.bound (Nat.lt_of_not_le deep) s

/-- What the fragments of a formula are read into has the value of the formula, unless it is
nested too deep. -/
theorem valueOf_of_ofFragments {f : Sentence String} {e : Expression}
    (h : ofFragments (f.map Atom.name).fragments = .ok e) {s : Assignment} {v : String → Bool}
    (hs : ∀ n ∈ f.atoms, s.get? n = some (v n)) :
    e.valueOf s = if e.depth ≤ maxNestingDepth then .ok (some (f.value v))
      else .error (.tooDeeplyNested maxNestingDepth) := by
  obtain rfl := Except.ok.inj (h.symm.trans (ofFragments_core f))
  obtain ⟨carries, -⟩ := f.core.carries (fun _ => Core.flags_plain) (fun _ => Core.flags_negated)
  rw [← f.value_worth]
  refine carries.valueOf (fun n flag hn => ?_)
  obtain ⟨_, used⟩ := Core.mem_uses_of_flags hn
  exact hs n (f.mem_atoms_of_uses used)

/-- The fragments of a formula are read into an expression of its value. -/
theorem ofFragments_formula (f : Sentence String) (deep : f.nesting < maxNestingDepth) :
    ∃ e, ofFragments (f.map Atom.name).fragments = .ok e ∧
      ∀ (s : Assignment) (v : String → Bool), (∀ n ∈ f.atoms, s.get? n = some (v n)) →
        e.valueOf s = .ok (some (f.value v)) := by
  obtain ⟨carries, -⟩ := f.core.carries (fun _ => Core.flags_plain) (fun _ => Core.flags_negated)
  have shallow : (f.core.expression f.core.mixedNames).depth ≤ maxNestingDepth := by
    have depth := carries.depth
    have level := f.level_worth_le
    omega
  refine ⟨_, ofFragments_core f, fun s v hs => ?_⟩
  rw [valueOf_of_ofFragments (ofFragments_core f) hs, if_pos shallow]

end Expression

end SwitchingAlgebra
