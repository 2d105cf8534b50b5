-- An evaluation reads the names that are referenced, at any depth, and no others: what an
-- assignment says of another name is neither used nor able to make the evaluation fail.
import SwitchingAlgebra.Proofs.Flipping

namespace SwitchingAlgebra

/-! ## Values that are left out -/

/-- The values of the names that pass the test. -/
def Assignment.keep (s : Assignment) (p : String → Bool) : Assignment :=
  ⟨s.values.filter (fun (n, _) => p n)⟩

theorem Assignment.get?_keep (s : Assignment) (p : String → Bool) (n : String) :
    (s.keep p).get? n = if p n then s.get? n else none :=
  lookup_filter p s.values n

namespace Expression

/-! ## Assignments that agree on what is referenced -/

/-- What an assignment says of a name decides what is seen of it in the scope. -/
theorem seen_scope_congr (e : Expression) {s s' : Assignment} {n : String}
    (h : s'.get? n = s.get? n) : (e.scope s').seen n = (e.scope s).seen n := by
  simp only [Bindings.seen, scope, Assignment.get?_applyTo, h]

theorem valueOf_congr_referenced (e : Expression) {s s' : Assignment}
    (agree : ∀ n ∈ e.referencedInputs, s'.get? n = s.get? n) : e.valueOf s' = e.valueOf s :=
  fold_congr (fun n mentioned =>
    e.seen_scope_congr (agree n ((e.mem_referencedInputs n).mpr mentioned)))

/-- Two assignments that say the same of every referenced name come to the same value, or to the
same error; so it does not matter if the values of all other names are left out. -/
theorem valueOf_reads_referenced (e : Expression) (s : Assignment) :
    (∀ s' : Assignment, (∀ n ∈ e.referencedInputs, s'.get? n = s.get? n) →
      e.valueOf s' = e.valueOf s) ∧
      e.valueOf (s.keep e.referencedInputs.contains) = e.valueOf s := by
  refine ⟨fun s' agree => e.valueOf_congr_referenced agree, ?_⟩
  refine e.valueOf_congr_referenced (fun n referenced => ?_)
  rw [Assignment.get?_keep, List.contains_iff_mem.mpr referenced, if_pos rfl]

/-- The raw terms bind nothing, the nested sum binds `c` and `z` for itself. `b` is assigned by
neither, and neither evaluation finds it; `z` is not referenced. -/
theorem valueOf_reads_referenced_of_unbound :
    let sum := { ofTerms [⟨.or, [.input "c", .input "b"]⟩] with
      inputs := (Bindings.empty.assign "c" true).assign "z" true }
    let e := ofTerms [⟨.and, [.input "a", .nested sum]⟩]
    let s : Assignment := ⟨[("z", true), ("a", true)]⟩
    let s' : Assignment := ⟨[("a", true), ("y", false), ("a", false)]⟩
    (∀ n ∈ e.referencedInputs, s'.get? n = s.get? n) ∧
      e.valueOf s' = .error (.unknownInput "b") ∧ e.valueOf s = .error (.unknownInput "b") := by
  intro sum e s s'
  have agree : ∀ n ∈ e.referencedInputs, s'.get? n = s.get? n := by decide
  have value : e.valueOf s = .error (.unknownInput "b") := by decide
  exact ⟨agree, ((e.valueOf_reads_referenced s).1 s' agree).trans value, value⟩

end Expression

end SwitchingAlgebra
