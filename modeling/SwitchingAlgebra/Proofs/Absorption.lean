-- The laws of dual operators: absorption and distribution. An AND or an OR is decided by
-- its absorbing value, so each law is a statement on where that value occurs.
import SwitchingAlgebra.Proofs.Laws

namespace SwitchingAlgebra

/-! ## The laws on values -/

/-- What an operator with absorbing value `z` gives over known values. -/
def verdict (z : Bool) (vs : List (Option Bool)) : Bool := if some z ∈ vs then z else !z

namespace Running

variable {op op' : Operator} {z : Bool}

theorem gather_known (h : op.absorbing? = some z) {vs : List (Option Bool)} (hn : vs ≠ [])
    (hk : none ∉ vs) : gather op vs = .known (verdict z vs) := by
  rw [gather_of_absorbing h hn, if_neg hk, verdict]

theorem gather_leading_unknown {xs ys : List (Option Bool)} (h : none ∈ xs) :
    gather op' ((gather op xs).operands ++ ys) = .unknown := by
  rw [gather_eq_unknown h]
  exact gather_eq_unknown (by simp [operands])

/-- A value that both operators are applied to decides alone. -/
theorem absorb_shared (h : op.absorbing? = some z) (h' : op'.absorbing? = some (!z))
    {xs ys : List (Option Bool)} {v : Option Bool} (hx : v ∈ xs) (hy : v ∈ ys) :
    (gather op' ((gather op xs).operands ++ ys)).AtMost (gather op' ys) := by
  by_cases kx : none ∈ xs
  · exact .inl (gather_leading_unknown kx)
  by_cases ky : none ∈ ys
  · exact .inl (gather_eq_unknown (List.mem_append_right _ ky))
  right
  rw [gather_known h (List.ne_nil_of_mem hx) kx, operands, List.singleton_append,
    gather_known h' (by simp) (by simp [ky]), gather_known h' (List.ne_nil_of_mem hy) ky]
  congr 1
  have decided : some z ∉ xs → some (!z) ∈ ys := by
    intro hz
    obtain ⟨c, rfl⟩ := Option.ne_none_iff_exists'.mp (fun hv => kx (hv ▸ hx))
    have hc : c = !z := by
      cases c <;> cases z <;> first | rfl | exact absurd hx hz
    exact hc ▸ hy
  by_cases hz : some z ∈ xs
  · simp [verdict, hz]
  · simp [verdict, hz, decided hz]

/-- Fewer operands decide more often: what the larger group says is absorbed. -/
theorem absorb_into (h : op.absorbing? = some z) (h' : op'.absorbing? = some (!z))
    {xs ys : List (Option Bool)} (hn : ys ≠ []) (hsub : ys ⊆ xs) :
    (gather op' ((gather op xs).operands ++ [(gather op ys).value])).AtMost (gather op ys) := by
  by_cases kx : none ∈ xs
  · exact .inl (gather_leading_unknown kx)
  have ky : none ∉ ys := by
    intro hy
    exact kx (hsub hy)
  have hx : xs ≠ [] := by
    intro hx
    exact hn (List.subset_nil.mp (hx ▸ hsub))
  right
  rw [gather_known h hx kx, gather_known h hn ky, operands, value, List.singleton_append,
    gather_known h' (by simp) (by simp)]
  congr 1
  by_cases hy : some z ∈ ys
  · have hz := hsub hy
    simp [verdict, hy, hz]
  · simp [verdict, hy]

/-- A group of more operands says nothing new beside a group of some of them. -/
theorem absorb_nested (h : op.absorbing? = some z) (h' : op'.absorbing? = some (!z))
    {xs ys before behind : List (Option Bool)} (hn : xs ≠ []) (hsub : xs ⊆ ys) :
    (gather op' ((gather op xs).operands ++ (before ++ (gather op ys).value :: behind))).AtMost
      (gather op' ((gather op xs).operands ++ (before ++ behind))) := by
  by_cases kx : none ∈ xs
  · exact .inl (gather_leading_unknown kx)
  by_cases ky : none ∈ ys
  · left
    rw [gather_eq_unknown ky]
    exact gather_eq_unknown (by simp [value])
  by_cases kw : none ∈ before ++ behind
  · left
    refine gather_eq_unknown (List.mem_append_right _ ?_)
    rcases List.mem_append.mp kw with hw | hw
    · exact List.mem_append_left _ hw
    · exact List.mem_append_right _ (List.mem_cons_of_mem _ hw)
  have hy : ys ≠ [] := by
    intro hy
    exact hn (List.subset_nil.mp (hy ▸ hsub))
  right
  simp only [List.mem_append, not_or] at kw
  rw [gather_known h hn kx, gather_known h hy ky, operands, value, List.singleton_append,
    List.singleton_append, gather_known h' (by simp) (by simp [kw]),
    gather_known h' (by simp) (by simp [kw])]
  congr 1
  by_cases hx : some z ∈ xs
  · have hz := hsub hx
    simp [verdict, hx, hz]
  · simp [verdict, hx]

/-- A common part is taken out of two groups. A value that is missing in one of them is missing
in the common part or in what is left. -/
theorem distribute_common (h : op.absorbing? = some z) (h' : op'.absorbing? = some (!z))
    {xs ys common left right : List (Option Bool)} (hl : left ≠ []) (hr : right ≠ [])
    (hc : common ≠ []) (hxs : ∀ v, v ∈ xs ↔ v ∈ common ∨ v ∈ left)
    (hys : ∀ v, v ∈ ys ↔ v ∈ common ∨ v ∈ right) :
    gather op (common ++
        [(gather op' [(gather op left).value, (gather op right).value]).value]) =
      gather op' ((gather op xs).operands ++ [(gather op ys).value]) := by
  by_cases kc : none ∈ common
  · rw [gather_eq_unknown (List.mem_append_left _ kc),
      gather_leading_unknown ((hxs none).mpr (.inl kc))]
  by_cases kl : none ∈ left
  · have below : gather op' [(gather op left).value, (gather op right).value] = .unknown := by
      rw [gather_eq_unknown kl]
      exact gather_eq_unknown (by simp [value])
    rw [below, gather_leading_unknown ((hxs none).mpr (.inr kl))]
    exact gather_eq_unknown (by simp [value])
  by_cases kr : none ∈ right
  · have below : gather op' [(gather op left).value, (gather op right).value] = .unknown := by
      rw [gather_eq_unknown kr]
      exact gather_eq_unknown (by simp [value])
    have second : gather op ys = .unknown := gather_eq_unknown ((hys none).mpr (.inr kr))
    rw [below, second]
    exact (gather_eq_unknown (by simp [value])).trans (gather_eq_unknown (by simp [value])).symm
  have hx : xs ≠ [] := by
    obtain ⟨v, hv⟩ := List.exists_mem_of_ne_nil common hc
    exact List.ne_nil_of_mem ((hxs v).mpr (.inl hv))
  have hy : ys ≠ [] := by
    obtain ⟨v, hv⟩ := List.exists_mem_of_ne_nil common hc
    exact List.ne_nil_of_mem ((hys v).mpr (.inl hv))
  rw [gather_known h hx (by rw [hxs]; tauto), gather_known h hy (by rw [hys]; tauto),
    gather_known h hl kl, gather_known h hr kr, operands, value, List.singleton_append,
    value, value, gather_known h' (by simp) (by simp), gather_known h' (by simp) (by simp), value,
    gather_known h (by simp) (by simp [kc])]
  congr 1
  simp only [verdict, hxs, hys]
  by_cases common_decides : some z ∈ common
  · simp [common_decides]
  · by_cases left_decides : some z ∈ left <;> by_cases right_decides : some z ∈ right <;>
      simp [common_decides, left_decides, right_decides]

end Running

theorem Operator.ne_not_of_isDual {op op' : Operator} (h : op.isDual op') :
    op ≠ .not ∧ op' ≠ .not := by
  obtain ⟨z, hz, hz'⟩ := Operator.isDual_iff.mp h
  exact ⟨Operator.ne_not_of_absorbing hz, Operator.ne_not_of_absorbing hz'⟩

theorem Operator.absorbing_of_isDual {op op' : Operator} (h : op.isDual op') :
    op.absorbing?.isSome ∧ op'.absorbing?.isSome := by
  obtain ⟨z, hz, hz'⟩ := Operator.isDual_iff.mp h
  rw [hz, hz']
  exact ⟨rfl, rfl⟩

/-! ## Expressions of one term -/

theorem Expression.soleOperands?_eq_some {n : Expression} {op : Operator} {xs : List Operand}
    (h : n.soleOperands? op = some xs) : n.terms = [⟨op, xs⟩] := by
  unfold soleOperands? at h
  split at h
  · rename_i t ht
    split at h
    · obtain ⟨_, _⟩ := t
      subst ‹_ = op›
      cases h
      exact ht
    · cases h
  · cases h

/-- A term without a result before it. -/
theorem Term.run_blank {op : Operator} (h : op ≠ .not) (xs : List Operand) (v : Valuation) :
    Term.run v ⟨op, xs⟩ .blank = Running.gather op (xs.map (Operand.meaning v)) := by
  rw [Term.run, Running.step_eq_gather h]
  rfl

theorem Expression.meaning_sole {n : Expression} {op : Operator} (h : op ≠ .not)
    {xs : List Operand} (hn : n.terms = [⟨op, xs⟩]) (v : Valuation) :
    n.meaning v = (Running.gather op (xs.map (Operand.meaning v))).value := by
  rw [n.meaning_eq, Expression.run, hn, Term.runAll_cons, Term.runAll_nil, Term.run_blank h]

/-- A second term after the first. -/
theorem Term.run_second {op op' : Operator} (h : op ≠ .not) (h' : op' ≠ .not)
    (xs ys : List Operand) (v : Valuation) (acc : Running) :
    Term.run v ⟨op', ys⟩ (Term.run v ⟨op, xs⟩ acc) =
      Running.gather op' ((Running.gather op
        (acc.operands ++ xs.map (Operand.meaning v))).operands ++ ys.map (Operand.meaning v)) := by
  rw [Term.run, Term.run, Running.step_eq_gather h', Running.step_eq_gather h]

/-- A term other than `NOT` that has no operands changes nothing. -/
theorem Term.run_of_no_operands {t : Term} (h : t.operator ≠ .not)
    (hempty : t.operands = []) (v : Valuation) (acc : Running) : t.run v acc = acc := by
  rw [Term.run, hempty, List.map_nil, Running.step_eq_gather h, List.append_nil,
    Running.gather_singleton h]

/-- New terms at the head that know as much as the first two. -/
theorem Expression.run_of_head {e e' : Expression} {first second : Term} {rest : List Term}
    (ts : List Term) (he : e.terms = first :: second :: rest) (he' : e'.terms = ts ++ rest)
    (v : Valuation) (value : (second.run v (first.run v .blank)).AtMost (Term.runAll v ts .blank)) :
    (e.run v).AtMost (e'.run v) := by
  simp only [run, he, he', Term.runAll_append, Term.runAll_cons]
  exact Term.runAll_atMost rest value

/-- New terms at the head stand for the first two as soon as they do so in value. -/
theorem Expression.standsFor_of_head {e e' : Expression} {first second : Term}
    {rest : List Term} (ts : List Term) (he : e.terms = first :: second :: rest)
    (he' : e'.terms = ts ++ rest) (outputs : e'.outputs = e.outputs)
    (journal : e'.journal = e.journal)
    (inputs : ∀ n b, e.inputs.get? n = some b → e'.inputs.get? n = some b)
    (fits : ∀ S limit, e.Fits S limit → ∀ t ∈ ts, t.Everywhere (Term.Fits S limit))
    (value : ∀ v, (e.run v).AtMost (e'.run v)) : e'.StandsFor e := by
  refine ⟨fun S limit h t ht => ?_, inputs, fun _ => value, outputs, fun _ h => journal ▸ h⟩
  rw [he', List.mem_append] at ht
  rcases ht with ht | ht
  · exact fits S limit h t ht
  · exact h t (by simp [he, ht])

/-! ## Two terms with dual operators -/

/-- A term that shares an operand with the one before it gives the same by itself. -/
theorem Term.run_shared {t u : Term} (dual : t.operator.isDual u.operator)
    (shared : Operand.anyAmong t.operands u.operands) (v : Valuation) (acc : Running) :
    (u.run v (t.run v acc)).AtMost (u.run v .blank) := by
  obtain ⟨op, xs⟩ := t
  obtain ⟨op', ys⟩ := u
  obtain ⟨z, hz, hz'⟩ := Operator.isDual_iff.mp dual
  obtain ⟨x, hx, hxy⟩ := List.any_eq_true.mp shared
  have hnot := Operator.ne_not_of_absorbing hz
  have hnot' := Operator.ne_not_of_absorbing hz'
  rw [Term.run_second hnot hnot', Term.run_blank hnot']
  exact Running.absorb_shared hz hz'
    (List.mem_append_right _ (List.mem_map_of_mem hx)) (Operand.mem_values_of_isAmong hxy v)

section

variable {op op' : Operator} {xs : List Operand} (dual : op.isDual op')
include dual

/-- A group of some operands of the first term gives the same by itself. -/
theorem Term.run_into {n : Expression} {inner : List Operand} (hn : n.terms = [⟨op, inner⟩])
    (inner_ne : inner ≠ []) (hall : Operand.allAmong inner xs) (v : Valuation) :
    (Term.run v ⟨op', [.nested n]⟩ (Term.run v ⟨op, xs⟩ .blank)).AtMost
      (Term.run v ⟨op, inner⟩ .blank) := by
  obtain ⟨z, hz, hz'⟩ := Operator.isDual_iff.mp dual
  have hnot := Operator.ne_not_of_absorbing hz
  have hnot' := Operator.ne_not_of_absorbing hz'
  rw [Term.run_second hnot hnot', Term.run_blank hnot, List.map_cons, List.map_nil,
    Operand.meaning_nested, Expression.meaning_sole hnot hn]
  exact Running.absorb_into hz hz' (by simpa using inner_ne)
    (Operand.values_subset_of_allAmong hall v)

/-- A group of all operands of the first term and more can be left out. -/
theorem Term.run_beside {n : Expression} {inner : List Operand} (hn : n.terms = [⟨op, inner⟩])
    (xs_ne : xs ≠ []) (hall : Operand.allAmong xs inner) (v : Valuation)
    (before behind : List Operand) :
    (Term.run v ⟨op', before ++ .nested n :: behind⟩ (Term.run v ⟨op, xs⟩ .blank)).AtMost
      (Term.run v ⟨op', before ++ behind⟩ (Term.run v ⟨op, xs⟩ .blank)) := by
  obtain ⟨z, hz, hz'⟩ := Operator.isDual_iff.mp dual
  have hnot := Operator.ne_not_of_absorbing hz
  have hnot' := Operator.ne_not_of_absorbing hz'
  rw [Term.run_second hnot hnot', Term.run_second hnot hnot', List.map_append,
    List.map_append, List.map_cons, Operand.meaning_nested, Expression.meaning_sole hnot hn]
  exact Running.absorb_nested hz hz' (by simpa [Running.operands] using xs_ne)
    (Operand.values_subset_of_allAmong hall v)

end

/-! ## Absorption -/

theorem Term.absorbed?_eq_some {ts us : List Term} {xs : List Operand} {op : Operator}
    (h : Term.absorbed? ts = some (xs, op, us)) :
    ∃ before t u rest, ts = before ++ t :: u :: rest ∧ us = u :: rest ∧
      t.operator.isDual u.operator ∧ Operand.anyAmong t.operands u.operands := by
  induction ts generalizing xs with
  | nil => cases h
  | cons t ts ih =>
    cases ts with
    | nil => cases h
    | cons u rest =>
      simp only [Term.absorbed?] at h
      split at h
      · rename_i hfound
        rw [Bool.and_eq_true] at hfound
        cases h
        exact ⟨[], t, u, rest, rfl, rfl, hfound.1, hfound.2⟩
      · obtain ⟨⟨xs', op', us'⟩, hrest, heq⟩ := Option.map_eq_some_iff.mp h
        cases heq
        obtain ⟨before, t', u', rest', hts, hus, hdual, hany⟩ := ih hrest
        exact ⟨t :: before, t', u', rest', by rw [hts]; rfl, hus, hdual, hany⟩

theorem Operand.takeSuperset?_eq_some {op : Operator} {xs ys zs : List Operand} {y : Operand}
    (h : Operand.takeSuperset? op xs ys = some (y, zs)) :
    ∃ before behind n inner, ys = before ++ y :: behind ∧ zs = before ++ behind ∧
      y = .nested n ∧ n.terms = [⟨op, inner⟩] ∧ Operand.allAmong xs inner := by
  induction ys generalizing zs with
  | nil => cases h
  | cons x ys ih =>
    have later : (Operand.takeSuperset? op xs ys).map (fun found => (found.1, x :: found.2)) =
        some (y, zs) → ∃ before behind n inner, x :: ys = before ++ y :: behind ∧
          zs = before ++ behind ∧ y = .nested n ∧ n.terms = [⟨op, inner⟩] ∧
          Operand.allAmong xs inner := by
      intro hmap
      obtain ⟨⟨y', zs'⟩, hrest, heq⟩ := Option.map_eq_some_iff.mp hmap
      cases heq
      obtain ⟨before, behind, n, inner, hys, hzs, hy, hn, hall⟩ := ih hrest
      exact ⟨x :: before, behind, n, inner, by rw [hys]; rfl, by rw [hzs]; rfl, hy, hn, hall⟩
    simp only [Operand.takeSuperset?] at h
    split at h
    · rename_i inner hinner
      split at h
      · rename_i hall
        obtain ⟨n, hnested, hsole⟩ := Option.bind_eq_some_iff.mp hinner
        obtain ⟨rfl, rfl⟩ := Prod.mk.inj (Option.some.inj h)
        cases x with
        | input m => cases hnested
        | nested n' =>
          cases hnested
          exact ⟨[], ys, n, inner, rfl, rfl, rfl, Expression.soleOperands?_eq_some hsole, hall⟩
      · exact later h
    · exact later h

namespace Expression

/-- Absorption by a later term: the terms up to it are left out. -/
theorem absorbShared?_eq_some {e e' : Expression} {step : Step}
    (h : e.absorbShared? = some (e', step)) :
    ∃ before t u rest, e.terms = before ++ t :: u :: rest ∧ t.operator.isDual u.operator ∧
      Operand.anyAmong t.operands u.operands ∧ e' = { e with terms := u :: rest } := by
  obtain ⟨⟨xs, op, us⟩, hfound, heq⟩ := Option.map_eq_some_iff.mp h
  cases heq
  obtain ⟨before, t, u, rest, hts, rfl, hdual, hany⟩ := Term.absorbed?_eq_some hfound
  exact ⟨before, t, u, rest, hts, hdual, hany, rfl⟩

/-- Absorption into a nested expression: the operands of that take the place of the first
two terms. -/
theorem absorbIntoNested?_eq_some {e e' : Expression} {step : Step}
    (h : e.absorbIntoNested? = some (e', step)) :
    ∃ op op' xs n inner rest, e.terms = ⟨op, xs⟩ :: ⟨op', [.nested n]⟩ :: rest ∧
      n.terms = [⟨op, inner⟩] ∧ inner ≠ [] ∧ Operand.allAmong inner xs ∧
      e' = { e with inputs := e.inputs.merge n.inputs, terms := ⟨op, inner⟩ :: rest } := by
  unfold absorbIntoNested? at h
  split at h
  · rename_i first op' n rest he
    obtain ⟨op, xs⟩ := first
    split at h
    · rename_i inner hsole
      split at h
      · rename_i hinner
        rw [Bool.and_eq_true] at hinner
        cases h
        exact ⟨op, op', xs, n, inner, rest, he, soleOperands?_eq_some hsole,
          by simpa using hinner.1, hinner.2, rfl⟩
      · cases h
    · cases h
  · cases h

/-- Absorption of a nested expression: it is left out, and the term with it when it was the
only operand. -/
theorem absorbNested?_eq_some {e e' : Expression} {step : Step}
    (h : e.absorbNested? = some (e', step)) :
    ∃ op op' xs before n inner behind rest,
      e.terms = ⟨op, xs⟩ :: ⟨op', before ++ .nested n :: behind⟩ :: rest ∧
      n.terms = [⟨op, inner⟩] ∧ Operand.allAmong xs inner ∧
      e' = { e with terms := ⟨op, xs⟩ :: (if (before ++ behind).isEmpty then rest
        else ⟨op', before ++ behind⟩ :: rest) } := by
  unfold absorbNested? at h
  split at h
  · rename_i first second rest he
    obtain ⟨op, xs⟩ := first
    obtain ⟨op', ys⟩ := second
    obtain ⟨⟨y, zs⟩, hfound, heq⟩ := Option.map_eq_some_iff.mp h
    obtain ⟨before, behind, n, inner, rfl, rfl, rfl, hn, hall⟩ :=
      Operand.takeSuperset?_eq_some hfound
    cases heq
    exact ⟨op, op', xs, before, n, inner, behind, rest, he, hn, hall, rfl⟩
  · cases h

/-- The ways of absorption. -/
theorem absorb?_eq_some {e e' : Expression} {step : Step} (h : e.absorb? = some (e', step)) :
    e.absorbShared? = some (e', step) ∨ (e.headIsDual ∧
      (e.absorbIntoNested? = some (e', step) ∨ e.absorbNested? = some (e', step))) := by
  rcases Option.or_eq_some_iff.mp h with shared | ⟨_, nested⟩
  · exact .inl shared
  · split at nested
    · rename_i dual
      rcases Option.or_eq_some_iff.mp nested with into | ⟨_, nested⟩
      · exact .inr ⟨dual, .inl into⟩
      · exact .inr ⟨dual, .inr nested⟩
    · cases nested

theorem headIsDual_iff {e : Expression} {first second : Term} {rest : List Term}
    (he : e.terms = first :: second :: rest) :
    e.headIsDual ↔ first.operator.isDual second.operator ∧ first.operands ≠ [] := by
  simp [headIsDual, he]

theorem absorbShared?_run {e e' : Expression} {step : Step}
    (h : e.absorbShared? = some (e', step)) (v : Valuation) : (e.run v).AtMost (e'.run v) := by
  obtain ⟨before, t, u, rest, hts, dual, shared, rfl⟩ := absorbShared?_eq_some h
  simp only [run, hts, Term.runAll_append, Term.runAll_cons]
  exact Term.runAll_atMost rest (Term.run_shared dual shared v _)

theorem absorbShared?_standsFor {e e' : Expression} {step : Step}
    (h : e.absorbShared? = some (e', step)) : e'.StandsFor e := by
  have value := absorbShared?_run h
  obtain ⟨before, ⟨op, xs⟩, ⟨op', ys⟩, rest, hts, hdual, hany, rfl⟩ := absorbShared?_eq_some h
  refine ⟨fun S limit hfit t ht => hfit t ?_, fun _ _ hb => hb, fun _ => value, rfl, fun _ h => h⟩
  rw [hts]
  exact List.mem_append_right _ (List.mem_cons_of_mem _ ht)

theorem absorbIntoNested?_run {e e' : Expression} {step : Step} (hd : e.headIsDual)
    (h : e.absorbIntoNested? = some (e', step)) (v : Valuation) : (e.run v).AtMost (e'.run v) := by
  obtain ⟨op, op', xs, n, inner, rest, he, hn, inner_ne, hall, rfl⟩ := absorbIntoNested?_eq_some h
  have dual : op.isDual op' := ((headIsDual_iff he).mp hd).1
  refine run_of_head [⟨op, inner⟩] he rfl v ?_
  rw [Term.runAll_cons, Term.runAll_nil]
  exact Term.run_into dual hn inner_ne hall v

theorem absorbIntoNested?_standsFor {e e' : Expression} {step : Step} (hd : e.headIsDual)
    (h : e.absorbIntoNested? = some (e', step)) : e'.StandsFor e := by
  have value := absorbIntoNested?_run hd h
  obtain ⟨op, op', xs, n, inner, rest, he, hn, inner_ne, hall, rfl⟩ := absorbIntoNested?_eq_some h
  refine standsFor_of_head [⟨op, inner⟩] he rfl rfl rfl
    (fun m b hb => Bindings.get?_merge_of_some hb _) (fun S limit hfit t ht => ?_) value
  have nested : n.Fits S limit := Operand.fits_nested.mp
    ((hfit ⟨op', [.nested n]⟩ (by simp [he])).operand_fits _ (by simp))
  exact nested t (by rw [hn]; exact ht)

theorem absorbNested?_run {e e' : Expression} {step : Step} (hd : e.headIsDual)
    (h : e.absorbNested? = some (e', step)) (v : Valuation) : (e.run v).AtMost (e'.run v) := by
  obtain ⟨op, op', xs, before, n, inner, behind, rest, he, hn, hall, rfl⟩ :=
    absorbNested?_eq_some h
  have dual : op.isDual op' := ((headIsDual_iff he).mp hd).1
  have shorter := Term.run_beside dual hn ((headIsDual_iff he).mp hd).2 hall v before behind
  by_cases hempty : before ++ behind = []
  · refine run_of_head [⟨op, xs⟩] he (by simp [hempty]) v ?_
    have hnot' : (⟨op', []⟩ : Term).operator ≠ .not := (Operator.ne_not_of_isDual dual).2
    rw [hempty, Term.run_of_no_operands hnot' rfl] at shorter
    rwa [Term.runAll_cons, Term.runAll_nil]
  · exact run_of_head [⟨op, xs⟩, ⟨op', before ++ behind⟩] he
      (by simp only [List.isEmpty_iff, if_neg hempty, List.cons_append, List.nil_append]) v
      (by simpa using shorter)

theorem absorbNested?_standsFor {e e' : Expression} {step : Step} (hd : e.headIsDual)
    (h : e.absorbNested? = some (e', step)) : e'.StandsFor e := by
  have value := absorbNested?_run hd h
  obtain ⟨op, op', xs, before, n, inner, behind, rest, he, hn, hall, rfl⟩ :=
    absorbNested?_eq_some h
  have hsub : before ++ behind ⊆ before ++ .nested n :: behind := by simp
  by_cases hempty : before ++ behind = []
  · exact standsFor_of_head [⟨op, xs⟩] he (by simp [hempty]) rfl rfl (fun _ _ hb => hb)
      (fun S limit hfit t ht => hfit t (by simp [he, List.mem_singleton.mp ht])) value
  · refine standsFor_of_head [⟨op, xs⟩, ⟨op', before ++ behind⟩] he
      (by simp only [List.isEmpty_iff, if_neg hempty, List.cons_append, List.nil_append]) rfl rfl
      (fun _ _ hb => hb) (fun S limit hfit t ht => ?_) value
    rcases List.mem_cons.mp ht with rfl | ht
    · exact hfit _ (by simp [he])
    · rw [List.mem_singleton.mp ht]
      exact (hfit ⟨op', before ++ .nested n :: behind⟩ (by simp [he])).fewer hsub (by simp)

/-- Absorption loses no known value, whatever is negated. -/
theorem absorb_run (e : Expression) (v : Valuation) : (e.run v).AtMost (e.absorb.1.run v) := by
  unfold absorb
  cases h : e.absorb? with
  | none => exact .refl _
  | some p =>
    obtain ⟨e', step⟩ := p
    rcases absorb?_eq_some h with shared | ⟨dual, into | nested⟩
    · exact absorbShared?_run shared v
    · exact absorbIntoNested?_run dual into v
    · exact absorbNested?_run dual nested v

theorem absorb_standsFor (e : Expression) : e.absorb.1.StandsFor e := by
  unfold absorb
  cases h : e.absorb? with
  | none => exact .refl e
  | some p =>
    obtain ⟨e', step⟩ := p
    rcases absorb?_eq_some h with shared | ⟨dual, into | nested⟩
    · exact absorbShared?_standsFor shared
    · exact absorbIntoNested?_standsFor dual into
    · exact absorbNested?_standsFor dual nested

/-! ## Distribution -/

/-- A group folds its operands and nothing else. -/
theorem terms_group (e : Expression) (op : Operator) (xs : List Operand) :
    (e.group op xs).terms = [⟨op, xs⟩] := rfl

theorem fits_group {e : Expression} {op : Operator} (h : op ≠ .not) {S : String → Prop}
    {limit : Option Nat} {xs : List Operand} (hxs : ∀ x ∈ xs, x.Fits S limit) :
    (Operand.nested (e.group op xs)).Fits S limit := by
  rw [Operand.fits_nested]
  intro t ht
  rw [terms_group, List.mem_singleton] at ht
  rw [ht, Term.everywhere_fits_of_ne_not h]
  exact hxs

theorem fits_factor {e : Expression} {op : Operator} (h : op ≠ .not) {S : String → Prop}
    {limit : Option Nat} {xs : List Operand} (hxs : ∀ x ∈ xs, x.Fits S limit) :
    (e.factor op xs).Fits S limit := by
  unfold factor
  split
  · exact hxs _ (by simp)
  · exact fits_group h hxs

theorem meaning_factor {e : Expression} {op : Operator} (h : op ≠ .not) (xs : List Operand)
    (v : Valuation) :
    (e.factor op xs).meaning v = (Running.gather op (xs.map (Operand.meaning v))).value := by
  unfold factor
  split
  · rename_i x
    have alone := Running.gather_singleton h (Running.ofValue (x.meaning v))
    rw [List.map_cons, List.map_nil]
    cases hx : x.meaning v <;> rw [hx] at alone <;>
      simp only [Running.ofValue, Running.operands] at alone <;> rw [alone] <;> rfl
  · exact meaning_sole h (terms_group e op xs) v

/-- What the distributive law does. -/
theorem distribute?_eq_some {e e' : Expression} (h : e.distribute? = some e') :
    ∃ op op' xs n inner rest common left right,
      e.terms = ⟨op, xs⟩ :: ⟨op', [.nested n]⟩ :: rest ∧ op.isDual op' ∧
      n.terms = [⟨op, inner⟩] ∧
      common = Operand.distinct [] (xs.filter (·.isAmong inner)) ∧
      left = xs.filter (!·.isAmong common) ∧ right = inner.filter (!·.isAmong common) ∧
      common ≠ [] ∧ left ≠ [] ∧ right ≠ [] ∧
      e' = { e with
        inputs := e.inputs.merge n.inputs
        terms := ⟨op, common ++
          [.nested (e.group op' [e.factor op left, e.factor op right])]⟩ :: rest } := by
  unfold distribute? at h
  split at h
  · rename_i first op' n rest he
    obtain ⟨op, xs⟩ := first
    split at h
    · rename_i hdual
      split at h
      · rename_i inner hsole
        simp only at h
        split at h
        · cases h
        · rename_i hparts
          simp only [Bool.or_eq_true, List.isEmpty_iff, not_or] at hparts
          exact ⟨op, op', xs, n, inner, rest, _, _, _, he, hdual, soleOperands?_eq_some hsole,
            rfl, rfl, rfl, hparts.1.1, hparts.1.2, hparts.2, (Option.some.inj h).symm⟩
      · cases h
    · cases h
  · cases h

/-- Every value of a list occurs in common or among what is left. -/
theorem mem_values_split {xs common : List Operand} (v : Valuation)
    (hsub : ∀ x ∈ common, x.meaning v ∈ xs.map (Operand.meaning v)) (w : Option Bool) :
    w ∈ xs.map (Operand.meaning v) ↔ w ∈ common.map (Operand.meaning v) ∨
      w ∈ (xs.filter (!·.isAmong common)).map (Operand.meaning v) := by
  constructor
  · intro h
    obtain ⟨x, hx, rfl⟩ := List.mem_map.mp h
    by_cases hc : x.isAmong common
    · exact .inl (Operand.mem_values_of_isAmong hc v)
    · exact .inr (List.mem_map_of_mem (List.mem_filter.mpr ⟨hx, by simpa using hc⟩))
  · rintro (h | h)
    · obtain ⟨x, hx, rfl⟩ := List.mem_map.mp h
      exact hsub x hx
    · obtain ⟨x, hx, rfl⟩ := List.mem_map.mp h
      exact List.mem_map_of_mem (List.mem_filter.mp hx).1

/-- The term that takes out what is common gives what the first two terms gave. -/
theorem run_distributed (e : Expression) {op op' : Operator} {n : Expression}
    {xs inner common left right : List Operand} (dual : op.isDual op')
    (hn : n.terms = [⟨op, inner⟩])
    (hcommon : common = Operand.distinct [] (xs.filter (·.isAmong inner)))
    (hleft : left = xs.filter (!·.isAmong common))
    (hright : right = inner.filter (!·.isAmong common)) (common_ne : common ≠ [])
    (left_ne : left ≠ []) (right_ne : right ≠ []) (v : Valuation) :
    Term.run v ⟨op, common ++
        [.nested (e.group op' [e.factor op left, e.factor op right])]⟩ .blank =
      Term.run v ⟨op', [.nested n]⟩ (Term.run v ⟨op, xs⟩ .blank) := by
  obtain ⟨z, hz, hz'⟩ := Operator.isDual_iff.mp dual
  have hnot := Operator.ne_not_of_absorbing hz
  have hnot' := Operator.ne_not_of_absorbing hz'
  have in_both : ∀ x ∈ common, x ∈ xs ∧ x.isAmong inner := by
    intro x hx
    rw [hcommon] at hx
    exact List.mem_filter.mp (Operand.mem_distinct hx)
  rw [Term.run_second hnot hnot', Term.run_blank hnot, List.map_cons, List.map_nil,
    List.map_append, List.map_cons, List.map_nil, Operand.meaning_nested, Operand.meaning_nested,
    meaning_sole hnot hn, meaning_sole hnot' (terms_group _ _ _), List.map_cons, List.map_cons,
    List.map_nil, meaning_factor hnot, meaning_factor hnot]
  refine Running.distribute_common hz hz' ?_ ?_ ?_ ?_ ?_
  · simpa using left_ne
  · simpa using right_ne
  · simpa using common_ne
  · rw [hleft]
    exact mem_values_split v (fun x hx => List.mem_map_of_mem (in_both x hx).1)
  · rw [hright]
    exact mem_values_split v (fun x hx => Operand.mem_values_of_isAmong (in_both x hx).2 v)

theorem distribute?_run {e e' : Expression} (h : e.distribute? = some e') (v : Valuation) :
    e'.run v = e.run v := by
  obtain ⟨op, op', xs, n, inner, rest, common, left, right, he, dual, hn, hcommon, hleft, hright,
    common_ne, left_ne, right_ne, rfl⟩ := distribute?_eq_some h
  simp only [run, he, Term.runAll_cons]
  rw [run_distributed e dual hn hcommon hleft hright common_ne left_ne right_ne]

theorem distribute?_standsFor {e e' : Expression} (h : e.distribute? = some e') :
    e'.StandsFor e := by
  have value := distribute?_run h
  obtain ⟨op, op', xs, n, inner, rest, common, left, right, he, hdual, hn, hcommon, hleft, hright,
    -, -, -, rfl⟩ := distribute?_eq_some h
  obtain ⟨z, hz, hz'⟩ := Operator.isDual_iff.mp hdual
  have hnot := Operator.ne_not_of_absorbing hz
  have hnot' := Operator.ne_not_of_absorbing hz'
  refine standsFor_of_head
    [⟨op, common ++ [.nested (e.group op' [e.factor op left, e.factor op right])]⟩] he rfl rfl rfl
    (fun m b hb => Bindings.get?_merge_of_some hb _) (fun S limit hfit t ht => ?_)
    (fun v => .inr (value v).symm)
  rw [List.mem_singleton.mp ht, Term.everywhere_fits_of_ne_not hnot]
  have first : ∀ x ∈ xs, x.Fits S limit := (hfit ⟨op, xs⟩ (by simp [he])).operand_fits
  have nested : n.Fits S limit := Operand.fits_nested.mp
    ((hfit ⟨op', [.nested n]⟩ (by simp [he])).operand_fits _ (by simp))
  have second : ∀ x ∈ inner, x.Fits S limit := (nested ⟨op, inner⟩ (by simp [hn])).operand_fits
  intro x hx
  rcases List.mem_append.mp hx with hx | hx
  · rw [hcommon] at hx
    exact first x (List.mem_filter.mp (Operand.mem_distinct hx)).1
  · rw [List.mem_singleton.mp hx]
    apply fits_group hnot'
    intro y hy
    rcases List.mem_cons.mp hy with rfl | hy
    · exact fits_factor hnot (fun x hx => first x (List.mem_filter.mp (hleft ▸ hx)).1)
    · rw [List.mem_singleton.mp hy]
      exact fits_factor hnot (fun x hx => second x (List.mem_filter.mp (hright ▸ hx)).1)

/-! ## Terms without operands -/

theorem clean_run (e : Expression) (v : Valuation) : e.clean.run v = e.run v := by
  rw [← e.unnest_run v]
  simp only [run, clean]
  generalize Running.blank = acc
  induction e.unnest.terms generalizing acc with
  | nil => rfl
  | cons t ts ih =>
    rw [List.filter_cons, Term.runAll_cons, ← ih]
    split
    · rw [Term.runAll_cons]
    · rename_i hdrop
      simp only [Bool.or_eq_true, decide_eq_true_eq, Bool.not_eq_true', List.isEmpty_eq_false_iff,
        not_or, not_not] at hdrop
      rw [Term.run_of_no_operands hdrop.1 hdrop.2]

theorem clean_standsFor (e : Expression) : e.clean.StandsFor e := by
  refine StandsFor.trans ?_ (unnest_standsFor e)
  refine ⟨fun S limit h t ht => h t (List.mem_filter.mp ht).1, fun _ _ hb => hb, fun _ v => .inr ?_,
    rfl, fun _ h => h⟩
  rw [clean_run, unnest_run]

/-- Distribution keeps every value, whatever is negated. -/
theorem distribute_run (e : Expression) (v : Valuation) : e.distribute.1.run v = e.run v := by
  unfold distribute
  cases h : e.distribute? with
  | none => rfl
  | some e' => exact (e'.clean_run v).trans (distribute?_run h v)

theorem distribute_standsFor (e : Expression) : e.distribute.1.StandsFor e := by
  unfold distribute
  cases h : e.distribute? with
  | none => exact .refl e
  | some e' => exact (clean_standsFor e').trans (distribute?_standsFor h)

/-! ## One level -/

/-- The laws in their order. -/
theorem simplifyLevel_result (e : Expression) : e.simplifyLevel.result =
    e.unnest.sortOperands.1.unnest.dropRepeated.1.associate.1.absorb.1.distribute.1 := by
  simp only [simplifyLevel]

/-- All laws on one level together. -/
theorem simplifyLevel_standsFor (e : Expression) : e.simplifyLevel.result.StandsFor e := by
  rw [simplifyLevel_result]
  exact (distribute_standsFor _).trans ((absorb_standsFor _).trans ((associate_standsFor _).trans
    ((dropRepeated_standsFor _).trans ((unnest_standsFor _).trans
      ((sortOperands_standsFor _).trans (unnest_standsFor e))))))

end Expression

end SwitchingAlgebra
