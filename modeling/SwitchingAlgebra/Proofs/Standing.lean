-- When one expression stands for another: it mentions no new name, binds what was bound
-- before, is worth the same wherever the value was known, and holds the same outputs.
import SwitchingAlgebra.Proofs.Running

namespace SwitchingAlgebra

/-! ## What terms are made of -/

/-- The names of a term pass the test, and where there is a limit a `NOT` has no more
operands than that. -/
structure Term.Fits (S : String → Prop) (limit : Option Nat) (t : Term) : Prop where
  names : ∀ n, Operand.input n ∈ t.operands → S n
  negates : t.operator = .not → ∀ k, limit = some k → t.operands.length ≤ k

/-- The same of an operand and of all that is nested in it. -/
def Operand.Fits (S : String → Prop) (limit : Option Nat) (x : Operand) : Prop :=
  (∀ n, x = .input n → S n) ∧ x.Everywhere (Term.Fits S limit)

/-- The same of an expression, at every level. -/
def Expression.Fits (S : String → Prop) (limit : Option Nat) (e : Expression) : Prop :=
  e.Everywhere (Term.Fits S limit)

section Fits

variable {S : String → Prop} {limit : Option Nat}

theorem Operand.fits_nested {e : Expression} : (Operand.nested e).Fits S limit ↔ e.Fits S limit := by
  simp [Operand.Fits, Expression.Fits, Operand.everywhere_nested]

/-- A term that is no `NOT` is made of its operands alone. -/
theorem Term.everywhere_fits_of_ne_not {op : Operator} (h : op ≠ .not) {xs : List Operand} :
    Term.Everywhere (Term.Fits S limit) ⟨op, xs⟩ ↔ ∀ x ∈ xs, x.Fits S limit := by
  constructor
  · rintro ⟨here, below⟩ x hx
    exact ⟨fun n hn => here.names n (hn ▸ hx), below x hx⟩
  · intro hxs
    exact ⟨⟨fun n hn => (hxs _ hn).1 n rfl, fun hop => absurd hop h⟩, fun x hx => (hxs x hx).2⟩

theorem Term.Everywhere.operand_fits {t : Term} (h : t.Everywhere (Term.Fits S limit)) :
    ∀ x ∈ t.operands, x.Fits S limit :=
  fun x hx => ⟨fun n hn => h.1.names n (hn ▸ hx), h.2 x hx⟩

/-- Fewer of its operands make a term that fits as well. -/
theorem Term.Everywhere.fewer {t : Term} {ys : List Operand}
    (h : t.Everywhere (Term.Fits S limit)) (hsub : ys ⊆ t.operands)
    (hlen : ys.length ≤ t.operands.length) :
    Term.Everywhere (Term.Fits S limit) ⟨t.operator, ys⟩ :=
  ⟨⟨fun n hn => h.1.names n (hsub hn), fun hop k hk => Nat.le_trans hlen (h.1.negates hop k hk)⟩,
    fun x hx => h.2 x (hsub hx)⟩

/-- An expression fits names without a limit when it mentions only such names. -/
theorem Operand.fits_none_iff (x : Operand) :
    x.Fits S none ↔ ∀ n ∈ x.mentions, S n := by
  induction x using Operand.induct with
  | input n => simp [Operand.Fits, Operand.mentions, Operand.Everywhere.input]
  | nested e ih =>
    rw [Operand.fits_nested]
    constructor
    · intro h n hn
      obtain ⟨t, ht, x, hx, hnx⟩ := (e.mem_mentions n).mp hn
      exact (ih t ht x hx).mp ((h t ht).operand_fits x hx) n hnx
    · intro h t ht
      have operands : ∀ x ∈ t.operands, x.Fits S none := fun x hx =>
        (ih t ht x hx).mpr (fun n hn => h n ((e.mem_mentions n).mpr ⟨t, ht, x, hx, hn⟩))
      exact ⟨⟨fun n hn => (operands _ hn).1 n rfl, fun _ k hk => by cases hk⟩,
        fun x hx => (operands x hx).2⟩

theorem Expression.fits_none_iff (e : Expression) : e.Fits S none ↔ ∀ n ∈ e.mentions, S n := by
  rw [← Operand.fits_nested]
  exact Operand.fits_none_iff (.nested e)

end Fits

theorem Expression.fits_one_iff (e : Expression) :
    e.Fits (fun _ => True) (some 1) ↔ e.Everywhere Term.NegatesOne := by
  have same : Term.Fits (fun _ => True) (some 1) = Term.NegatesOne := by
    funext t
    refine propext ⟨fun h hop => h.negates hop 1 rfl, fun h => ⟨fun _ _ => trivial, ?_⟩⟩
    intro hop k hk
    cases hk
    exact h hop
  rw [Expression.Fits, same]

/-! ## Standing for an expression -/

/-- The first expression may take the place of the second. -/
structure Expression.StandsFor (e' e : Expression) : Prop where
  fits : ∀ S limit, e.Fits S limit → e'.Fits S limit
  bindings : ∀ n b, e.inputs.get? n = some b → e'.inputs.get? n = some b
  value : e.Everywhere Term.NegatesOne → ∀ v, (e.run v).AtMost (e'.run v)
  outputs : e'.outputs = e.outputs
  remembers : ∀ text, e.journal.firstText = some text → e'.journal.firstText = some text

namespace Expression.StandsFor

theorem refl (e : Expression) : e.StandsFor e :=
  ⟨fun _ _ h => h, fun _ _ h => h, fun _ _ => .refl _, rfl, fun _ h => h⟩

theorem negatesOne {e e' : Expression} (h : e'.StandsFor e) (he : e.Everywhere Term.NegatesOne) :
    e'.Everywhere Term.NegatesOne :=
  e'.fits_one_iff.mp (h.fits _ _ (e.fits_one_iff.mpr he))

theorem trans {e e' e'' : Expression} (h' : e''.StandsFor e') (h : e'.StandsFor e) :
    e''.StandsFor e where
  fits S limit he := h'.fits S limit (h.fits S limit he)
  bindings n b hb := h'.bindings n b (h.bindings n b hb)
  value he v := (h.value he v).trans (h'.value (h.negatesOne he) v)
  outputs := h'.outputs.trans h.outputs
  remembers text ht := h'.remembers text (h.remembers text ht)

/-- No name is mentioned that was not mentioned before. -/
theorem mentions {e e' : Expression} (h : e'.StandsFor e) : ∀ n ∈ e'.mentions, n ∈ e.mentions :=
  e'.fits_none_iff.mp (h.fits _ _ (e.fits_none_iff.mpr (fun _ hn => hn)))

end Expression.StandsFor

theorem Bindings.get?_merge_of_some {m : Bindings} {n : String} {b : Binding}
    (h : m.get? n = some b) (other : Bindings) : (m.merge other).get? n = some b := by
  rw [get?_merge, h, Option.some_or]

end SwitchingAlgebra
