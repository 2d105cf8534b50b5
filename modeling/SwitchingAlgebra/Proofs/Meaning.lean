-- The meaning of an expression: what it is worth when every name is bound and nothing is
-- nested too deeply. The checked evaluation gives just this, or fails for one of the two
-- reasons.
import SwitchingAlgebra.Proofs.Nesting

namespace SwitchingAlgebra

/-- A value for each name, where it has one. -/
abbrev Valuation := String → Option Bool

/-- The effective values of bound names. -/
def Bindings.values (m : Bindings) : Valuation := fun n => (m.get? n).bind Binding.value

/-! ## The meaning -/

mutual

/-- The value of an expression whose names have these values. -/
def Expression.meaning (v : Valuation) : Expression → Option Bool
  | { terms, .. } => (Term.runAll v terms .blank).value

/-- The result of a list of terms after the result so far. -/
def Term.runAll (v : Valuation) : List Term → Running → Running
  | [], acc => acc
  | ⟨op, xs⟩ :: ts, acc => Term.runAll v ts (acc.step op (Operand.meanings v xs))

/-- The values of operands, from left to right. -/
def Operand.meanings (v : Valuation) : List Operand → List (Option Bool)
  | [] => []
  | x :: xs => x.meaning v :: Operand.meanings v xs

/-- The value of an operand. -/
def Operand.meaning (v : Valuation) : Operand → Option Bool
  | .input n => v n
  | .nested e => e.meaning v

end

/-- The result of one term after the result so far. -/
def Term.run (v : Valuation) (t : Term) (acc : Running) : Running :=
  acc.step t.operator (t.operands.map (Operand.meaning v))

/-- The result of an expression, blank when no term gives one. -/
def Expression.run (v : Valuation) (e : Expression) : Running := Term.runAll v e.terms .blank

theorem Operand.meanings_eq_map (v : Valuation) (xs : List Operand) :
    Operand.meanings v xs = xs.map (Operand.meaning v) := by
  induction xs with
  | nil => rfl
  | cons x xs ih => simp [Operand.meanings, ih]

theorem Term.runAll_eq_foldl (v : Valuation) (ts : List Term) (acc : Running) :
    Term.runAll v ts acc = ts.foldl (fun acc t => t.run v acc) acc := by
  induction ts generalizing acc with
  | nil => rfl
  | cons t ts ih =>
    obtain ⟨op, xs⟩ := t
    simp [Term.runAll, ih, Term.run, Operand.meanings_eq_map]

@[simp] theorem Term.runAll_nil (v : Valuation) (acc : Running) : Term.runAll v [] acc = acc := rfl

@[simp] theorem Term.runAll_cons (v : Valuation) (t : Term) (ts : List Term) (acc : Running) :
    Term.runAll v (t :: ts) acc = Term.runAll v ts (t.run v acc) := by
  simp [Term.runAll_eq_foldl]

@[simp] theorem Term.runAll_append (v : Valuation) (ts us : List Term) (acc : Running) :
    Term.runAll v (ts ++ us) acc = Term.runAll v us (Term.runAll v ts acc) := by
  simp [Term.runAll_eq_foldl]

theorem Expression.meaning_eq (v : Valuation) (e : Expression) : e.meaning v = (e.run v).value := by
  cases e; rfl

@[simp] theorem Operand.meaning_input (v : Valuation) (n : String) :
    (Operand.input n).meaning v = v n := rfl

@[simp] theorem Operand.meaning_nested (v : Valuation) (e : Expression) :
    (Operand.nested e).meaning v = e.meaning v := rfl

/-! ## Only the names that are mentioned count -/

/-- Two lists of terms whose operands have the same values run alike. -/
theorem Term.runAll_congr {v w : Valuation} {ts : List Term} (acc : Running)
    (h : ∀ t ∈ ts, ∀ x ∈ t.operands, x.meaning v = x.meaning w) :
    Term.runAll v ts acc = Term.runAll w ts acc := by
  induction ts generalizing acc with
  | nil => rfl
  | cons t ts ih =>
    have here : t.operands.map (Operand.meaning v) = t.operands.map (Operand.meaning w) :=
      List.map_congr_left (h t (by simp))
    rw [runAll_cons, runAll_cons, Term.run, Term.run, here]
    exact ih _ (fun u hu => h u (List.mem_cons_of_mem _ hu))

theorem Operand.meaning_congr {v w : Valuation} (x : Operand)
    (h : ∀ n ∈ x.mentions, v n = w n) : x.meaning v = x.meaning w := by
  induction x using Operand.induct with
  | input n => exact h n (by simp [Operand.mentions])
  | nested e ih =>
    rw [meaning_nested, meaning_nested, Expression.meaning_eq, Expression.meaning_eq,
      Expression.run, Expression.run]
    congr 1
    refine Term.runAll_congr _ (fun t ht x hx => ih t ht x hx (fun n hn => h n ?_))
    exact (e.mem_mentions n).mpr ⟨t, ht, x, hx, hn⟩

theorem Expression.run_congr {v w : Valuation} (e : Expression)
    (h : ∀ n ∈ e.mentions, v n = w n) : e.run v = e.run w :=
  Term.runAll_congr _ (fun t ht x hx => Operand.meaning_congr x
    (fun n hn => h n ((e.mem_mentions n).mpr ⟨t, ht, x, hx, hn⟩)))

theorem Expression.meaning_congr {v w : Valuation} (e : Expression)
    (h : ∀ n ∈ e.mentions, v n = w n) : e.meaning v = e.meaning w := by
  rw [e.meaning_eq, e.meaning_eq, e.run_congr h]

/-! ## The checked evaluation -/

/-- Every name that the expression mentions is bound. -/
def Bindings.Binds (m : Bindings) (names : List String) : Prop := ∀ n ∈ names, m.contains n

instance (m : Bindings) (names : List String) : Decidable (m.Binds names) :=
  inferInstanceAs (Decidable (∀ n ∈ names, m.contains n))

theorem Bindings.get?_merge_of_contains {m : Bindings} {n : String} (h : m.contains n)
    (other : Bindings) : (m.merge other).get? n = m.get? n := by
  obtain ⟨b, hb⟩ := Option.isSome_iff_exists.mp h
  rw [get?_merge, hb, Option.some_or]

/-- A nested expression sees the bindings around it, as long as they hold its names. -/
theorem Expression.scopeIn_binds {e : Expression} {scope : Bindings} {names : List String}
    (h : scope.Binds names) : (e.scopeIn scope).Binds names := by
  intro n hn
  rw [Bindings.contains, Expression.scopeIn, Bindings.get?_merge_of_contains (h n hn)]
  exact h n hn

theorem Expression.values_scopeIn {e : Expression} {scope : Bindings} {n : String}
    (h : scope.contains n) : (e.scopeIn scope).values n = scope.values n := by
  rw [Bindings.values, Bindings.values, Expression.scopeIn, Bindings.get?_merge_of_contains h]

theorem Operand.valuesOf_eq {scope : Bindings} {d : Nat} {f : Operand → Option Bool}
    {xs : List Operand} (h : ∀ x ∈ xs, x.valueIn scope d = .ok (f x)) :
    Operand.valuesOf scope d xs = .ok (xs.map f) := by
  induction xs with
  | nil => rfl
  | cons x xs ih =>
    simp [Operand.valuesOf, h x (by simp), ih (fun y hy => h y (List.mem_cons_of_mem _ hy))]

theorem Term.foldAll_eq {scope : Bindings} {d : Nat} {v : Valuation} {ts : List Term}
    (acc : Running) (h : ∀ t ∈ ts, ∀ x ∈ t.operands, x.valueIn scope d = .ok (x.meaning v)) :
    Term.foldAll scope d ts acc = .ok (Term.runAll v ts acc) := by
  induction ts generalizing acc with
  | nil => rfl
  | cons t ts ih =>
    obtain ⟨op, xs⟩ := t
    have here := Operand.valuesOf_eq (h ⟨op, xs⟩ (by simp))
    simp only [Term.foldAll, here]
    rw [ih _ (fun u hu => h u (List.mem_cons_of_mem _ hu)), runAll_cons, Term.run]

theorem Expression.fold_of_operands {e : Expression} {scope : Bindings} {d : Nat} {v : Valuation}
    (hd : d ≤ maxNestingDepth)
    (h : ∀ t ∈ e.terms, ∀ x ∈ t.operands, x.valueIn scope d = .ok (x.meaning v)) :
    e.fold scope d = .ok (e.meaning v) := by
  obtain ⟨_, ts, _, _⟩ := e
  simp only [Expression.fold, Nat.not_lt.mpr hd, if_false, Term.foldAll_eq _ h]
  rfl

theorem Operand.valueIn_eq (x : Operand) {scope : Bindings} {d : Nat}
    (names : scope.Binds x.mentions) (hd : d + x.level ≤ maxNestingDepth) :
    x.valueIn scope d = .ok (x.meaning scope.values) := by
  induction x using Operand.induct generalizing scope d with
  | input n =>
    obtain ⟨b, hb⟩ := Option.isSome_iff_exists.mp (names n (by simp [Operand.mentions]))
    simp [Operand.valueIn, Bindings.values, hb]
  | nested e ih =>
    have deep : d + 1 + e.depth ≤ maxNestingDepth := by simp only [Operand.level] at hd; omega
    have same : e.meaning scope.values = e.meaning (e.scopeIn scope).values :=
      e.meaning_congr (fun n hn => (Expression.values_scopeIn (names n hn)).symm)
    rw [Operand.valueIn, meaning_nested, same]
    refine Expression.fold_of_operands (by omega) (fun t ht x hx => ih t ht x hx ?_ ?_)
    · exact Expression.scopeIn_binds
        (fun n hn => names n ((e.mem_mentions n).mpr ⟨t, ht, x, hx, hn⟩))
    · have := Expression.level_le_depth ht hx
      omega

/-- With every name bound and the depth in bounds, evaluation gives the meaning. -/
theorem Expression.fold_eq_meaning (e : Expression) {scope : Bindings} {d : Nat}
    (names : scope.Binds e.mentions) (hd : d + e.depth ≤ maxNestingDepth) :
    e.fold scope d = .ok (e.meaning scope.values) := by
  refine Expression.fold_of_operands (by omega) (fun t ht x hx => Operand.valueIn_eq x ?_ ?_)
  · exact fun n hn => names n ((e.mem_mentions n).mpr ⟨t, ht, x, hx, hn⟩)
  · have := Expression.level_le_depth ht hx
    omega

/-! ## An evaluation that succeeds -/

theorem Operand.valueIn_of_valuesOf {scope : Bindings} {d : Nat} {xs : List Operand}
    {vs : List (Option Bool)} (h : Operand.valuesOf scope d xs = .ok vs) {x : Operand}
    (hx : x ∈ xs) : ∃ v, x.valueIn scope d = .ok v := by
  induction xs generalizing vs with
  | nil => cases hx
  | cons y xs ih =>
    simp only [Operand.valuesOf] at h
    split at h
    · cases h
    · rename_i v hv
      split at h
      · cases h
      · rename_i hvs
        rcases List.mem_cons.mp hx with rfl | hx
        · exact ⟨v, hv⟩
        · exact ih hvs hx

theorem Term.valueIn_of_foldAll {scope : Bindings} {d : Nat} {ts : List Term} {acc r : Running}
    (h : Term.foldAll scope d ts acc = .ok r) {t : Term} (ht : t ∈ ts) {x : Operand}
    (hx : x ∈ t.operands) : ∃ v, x.valueIn scope d = .ok v := by
  induction ts generalizing acc with
  | nil => cases ht
  | cons u ts ih =>
    obtain ⟨op, xs⟩ := u
    simp only [Term.foldAll] at h
    split at h
    · cases h
    · rename_i hvs
      rcases List.mem_cons.mp ht with rfl | ht
      · exact Operand.valueIn_of_valuesOf hvs hx
      · exact ih h ht

/-- An evaluation that succeeds has evaluated every operand. -/
theorem Expression.valueIn_of_fold {e : Expression} {scope : Bindings} {d : Nat}
    {v : Option Bool} (h : e.fold scope d = .ok v) :
    d ≤ maxNestingDepth ∧ ∀ t ∈ e.terms, ∀ x ∈ t.operands, ∃ v, x.valueIn scope d = .ok v := by
  obtain ⟨_, ts, _, _⟩ := e
  simp only [Expression.fold] at h
  split at h
  · cases h
  · rename_i hd
    cases hr : Term.foldAll scope d ts .blank with
    | error err => simp [hr, Except.map] at h
    | ok r => exact ⟨by omega, fun t ht x hx => Term.valueIn_of_foldAll hr ht hx⟩

theorem Operand.level_of_valueIn (x : Operand) {scope : Bindings} {d : Nat} {v : Option Bool}
    (h : x.valueIn scope d = .ok v) (hd : d ≤ maxNestingDepth) :
    d + x.level ≤ maxNestingDepth := by
  induction x using Operand.induct generalizing scope d v with
  | input n => exact hd
  | nested e ih =>
    obtain ⟨hd', operands⟩ := Expression.valueIn_of_fold h
    have below : e.depth ≤ maxNestingDepth - (d + 1) := by
      apply (e.depth_le _).mpr
      intro t ht x hx
      obtain ⟨w, hw⟩ := operands t ht x hx
      have := ih t ht x hx hw hd'
      omega
    simp only [Operand.level]
    omega

/-- What evaluates is not nested too deeply. -/
theorem Expression.depth_of_fold {e : Expression} {scope : Bindings} {d : Nat} {v : Option Bool}
    (h : e.fold scope d = .ok v) : d + e.depth ≤ maxNestingDepth := by
  obtain ⟨hd, operands⟩ := Expression.valueIn_of_fold h
  have below : e.depth ≤ maxNestingDepth - d := by
    apply (e.depth_le _).mpr
    intro t ht x hx
    obtain ⟨w, hw⟩ := operands t ht x hx
    have := x.level_of_valueIn hw hd
    omega
  omega

/-! ## An evaluation that fails -/

theorem Operand.error_of_valuesOf {scope : Bindings} {d : Nat} {xs : List Operand}
    {err : EvaluationError} (h : Operand.valuesOf scope d xs = .error err) :
    ∃ x ∈ xs, x.valueIn scope d = .error err := by
  induction xs with
  | nil => cases h
  | cons x xs ih =>
    simp only [Operand.valuesOf] at h
    split at h
    · rename_i hx
      cases h
      exact ⟨x, by simp, hx⟩
    · split at h
      · rename_i hxs
        obtain ⟨y, hy, failed⟩ := ih (hxs.trans h)
        exact ⟨y, List.mem_cons_of_mem _ hy, failed⟩
      · cases h

theorem Term.error_of_foldAll {scope : Bindings} {d : Nat} {ts : List Term} {acc : Running}
    {err : EvaluationError} (h : Term.foldAll scope d ts acc = .error err) :
    ∃ t ∈ ts, ∃ x ∈ t.operands, x.valueIn scope d = .error err := by
  induction ts generalizing acc with
  | nil => cases h
  | cons t ts ih =>
    obtain ⟨op, xs⟩ := t
    simp only [Term.foldAll] at h
    split at h
    · rename_i hxs
      cases h
      exact ⟨⟨op, xs⟩, by simp, Operand.error_of_valuesOf hxs⟩
    · obtain ⟨t, ht, failed⟩ := ih h
      exact ⟨t, List.mem_cons_of_mem _ ht, failed⟩

/-- An evaluation that fails is nested too deeply itself, or fails in an operand. -/
theorem Expression.error_of_fold {e : Expression} {scope : Bindings} {d : Nat}
    {err : EvaluationError} (h : e.fold scope d = .error err) :
    err = .tooDeeplyNested maxNestingDepth ∨
      ∃ t ∈ e.terms, ∃ x ∈ t.operands, x.valueIn scope d = .error err := by
  obtain ⟨_, ts, _, _⟩ := e
  simp only [Expression.fold] at h
  split at h
  · exact .inl (Except.error.inj h).symm
  · cases hr : Term.foldAll scope d ts .blank with
    | error err' =>
      rw [hr] at h
      exact .inr (Term.error_of_foldAll (hr.trans (congrArg _ (Except.error.inj h))))
    | ok r =>
      rw [hr] at h
      cases h

/-- With every name bound only the nesting can make an evaluation fail. -/
theorem Operand.error_of_valueIn (x : Operand) {scope : Bindings} {d : Nat}
    {err : EvaluationError} (names : scope.Binds x.mentions)
    (h : x.valueIn scope d = .error err) : err = .tooDeeplyNested maxNestingDepth := by
  induction x using Operand.induct generalizing scope d with
  | input n =>
    obtain ⟨b, hb⟩ := Option.isSome_iff_exists.mp (names n (by simp [Operand.mentions]))
    simp [Operand.valueIn, hb] at h
  | nested e ih =>
    rcases Expression.error_of_fold h with deep | ⟨t, ht, x, hx, failed⟩
    · exact deep
    · exact ih t ht x hx (Expression.scopeIn_binds
        (fun n hn => names n ((e.mem_mentions n).mpr ⟨t, ht, x, hx, hn⟩))) failed

theorem Expression.error_of_fold_of_binds {e : Expression} {scope : Bindings} {d : Nat}
    {err : EvaluationError} (names : scope.Binds e.mentions) (h : e.fold scope d = .error err) :
    err = .tooDeeplyNested maxNestingDepth := by
  rcases Expression.error_of_fold h with deep | ⟨t, ht, x, hx, failed⟩
  · exact deep
  · exact x.error_of_valueIn
      (fun n hn => names n ((e.mem_mentions n).mpr ⟨t, ht, x, hx, hn⟩)) failed

/-- With every name bound an expression that is nested too deeply fails for this reason. -/
theorem Expression.fold_eq_error (e : Expression) {scope : Bindings} {d : Nat}
    (names : scope.Binds e.mentions) (hd : maxNestingDepth < d + e.depth) :
    e.fold scope d = .error (.tooDeeplyNested maxNestingDepth) := by
  cases hf : e.fold scope d with
  | ok v =>
    have := Expression.depth_of_fold hf
    omega
  | error err => rw [Expression.error_of_fold_of_binds names hf]

end SwitchingAlgebra
