-- Expressions combined by an operator. Both sides are nested in one new term, and where
-- both bind a name the left side's binding counts for the right side too. Where the two
-- bindings say the same, a combination has the value of the operator on the two values.
import SwitchingAlgebra.Proofs.Bound
import SwitchingAlgebra.Proofs.Soundness

namespace SwitchingAlgebra

namespace Running

/-- Two operands in one term of an operator that any number of operands may follow. -/
theorem value_gather_pair {op : Operator} (h : op.isUnbounded) (x : Bool)
    (z : Option Bool) : (gather op [some x, z]).value = z.map (op.apply x) := by
  cases z with
  | none => rw [gather_eq_unknown (by simp)]; rfl
  | some y =>
    have pair : op.reduce ([x, y].map some) = some (op.apply x y) := by
      rw [Operator.reduce_map_some, Operator.combine_cons h]
      rfl
    exact congrArg (fun v => (ofValue v).value) pair

end Running

namespace Expression

/-! ## What a combination is made of -/

/-- The expression with the names that `l` binds bound as there. -/
def within (r l : Expression) : Expression := { r with inputs := r.scopeIn l.inputs }

theorem mentions_within (r l : Expression) : (r.within l).mentions = r.mentions :=
  mentions_of_terms rfl

theorem depth_within (r l : Expression) : (r.within l).depth = r.depth := depth_of_terms rfl

theorem meaning_within (r l : Expression) (v : Valuation) :
    (r.within l).meaning v = r.meaning v := by
  rw [meaning_eq, meaning_eq]
  exact congrArg Running.value (run_of_terms rfl v)

theorem mentions_combine (op : Operator) (l r : Expression) (n : String) :
    n ∈ (combine op l r).mentions ↔ n ∈ l.mentions ∨ n ∈ r.mentions := by
  have none_first : n ∉ empty.mentions := by
    intro h
    cases h
  rw [combine, mentions_append]
  simp [none_first, Operand.mentions]

theorem depth_combine {op : Operator} {l r : Expression} {d : Nat} (hl : l.depth < d)
    (hr : r.depth < d) : (combine op l r).depth ≤ d := by
  apply (depth_le _ d).mpr
  intro t ht x hx
  rw [List.mem_singleton.mp ht] at hx
  rcases List.mem_cons.mp hx with rfl | hx
  · exact hl
  · rw [List.mem_singleton.mp hx]
    exact hr

/-- The left side binds first. -/
theorem inputs_combine (op : Operator) (l r : Expression) :
    (combine op l r).inputs = (r.within l).inputs := by
  have left : Bindings.empty.merge l.inputs = l.inputs := by
    apply Bindings.ext_get?
    intro n
    rw [Bindings.get?_merge, Bindings.get?_empty, Option.none_or]
  have both : (combine op l r).inputs = (Bindings.empty.merge l.inputs).merge r.inputs := rfl
  rw [both, left]
  rfl

theorem scope_combine (op : Operator) (l r : Expression) (s : Assignment) :
    (combine op l r).scope s = (r.within l).scope s := by
  rw [scope, scope, inputs_combine]

theorem within_binds {l r : Expression} (hr : r.inputs.Binds r.mentions) :
    (r.within l).inputs.Binds r.mentions :=
  fun n hn => (l.inputs.contains_merge r.inputs n).mpr (.inr (hr n hn))

/-- Behind the left side's bindings the left side sees its own. -/
theorem values_within_of_left (r : Expression) {l : Expression} (s : Assignment) {n : String}
    (hn : l.inputs.contains n) : ((r.within l).scope s).values n = (l.scope s).values n :=
  Bindings.values_congr (s.applyTo_congr (Bindings.get?_merge_of_contains hn r.inputs))

/-! ## Values -/

/-- The value of a combination: the operator on the value of the left side and on what the
right side is worth behind the left side's bindings. -/
theorem valueOf_combine {op : Operator} (h : op.isUnbounded) {l r : Expression}
    (hl : l.inputs.Binds l.mentions) (hr : r.inputs.Binds r.mentions)
    (dl : l.depth < maxNestingDepth) (dr : r.depth < maxNestingDepth) {s : Assignment} {x : Bool}
    {z : Option Bool} (hx : l.valueOf s = .ok (some x)) (hz : (r.within l).valueOf s = .ok z) :
    (combine op l r).valueOf s = .ok (z.map (op.apply x)) := by
  have names : (combine op l r).inputs.Binds (combine op l r).mentions := by
    intro n hn
    rw [inputs_combine]
    rcases (mentions_combine op l r n).mp hn with hn | hn
    · exact (l.inputs.contains_merge r.inputs n).mpr (.inl (hl n hn))
    · exact within_binds hr n hn
  have left : l.meaning ((r.within l).scope s).values = some x := by
    rw [valueOf_eq_meaning hl (by omega)] at hx
    rw [l.meaning_congr (fun n hn => values_within_of_left r s (hl n hn))]
    exact Except.ok.inj hx
  have right : r.meaning ((r.within l).scope s).values = z := by
    rw [valueOf_eq_meaning (r.mentions_within l ▸ within_binds hr)
      (by rw [depth_within]; omega), meaning_within] at hz
    exact Except.ok.inj hz
  have sole : (combine op l r).terms = [⟨op, [.nested l, .nested r]⟩] := rfl
  rw [valueOf_eq_meaning names (depth_combine dl dr), scope_combine,
    meaning_sole (Operator.ne_not_of_isUnbounded h) sole, List.map_cons, List.map_cons,
    List.map_nil, Operand.meaning_nested, Operand.meaning_nested, left, right,
    Running.value_gather_pair h]

/-- A negation has the opposite of a known value. -/
theorem valueOf_negate {e : Expression} (names : e.inputs.Binds e.mentions)
    (hd : e.depth ≤ maxNestingDepth) {s : Assignment} {x : Bool}
    (hx : e.valueOf s = .ok (some x)) : e.negate.valueOf s = .ok (some (!x)) := by
  have same : ∀ n, n ∈ e.negate.mentions ↔ n ∈ e.mentions := by
    intro n
    rw [negate, mentions_append]
    simp
  have depth : e.negate.depth ≤ maxNestingDepth := by
    apply (depth_le _ _).mpr
    intro t ht y hy
    rcases List.mem_append.mp ht with ht | ht
    · exact (depth_le e _).mp hd t ht y hy
    · rw [List.mem_singleton.mp ht] at hy
      cases hy
  have run : e.run (e.scope s).values = .known x := by
    rw [valueOf_eq_meaning names hd, meaning_eq] at hx
    cases hr : e.run (e.scope s).values with
    | blank => rw [hr] at hx; cases hx
    | unknown => rw [hr] at hx; cases hx
    | known b => rw [hr] at hx; cases hx; rfl
  have bound : e.negate.inputs.Binds e.negate.mentions := fun n hn => names n ((same n).mp hn)
  rw [valueOf_eq_meaning bound depth, meaning_eq]
  change Except.ok (Term.runAll (e.scope s).values (e.terms ++ [⟨.not, []⟩]) .blank).value = _
  rw [Term.runAll_append, ← Expression.run, run]
  rfl

/-- Where the names that the right side mentions have one value on both sides, the left
side's bindings change nothing. -/
theorem valueOf_within {l r : Expression} (hr : r.inputs.Binds r.mentions)
    (dr : r.depth ≤ maxNestingDepth) {s : Assignment}
    (agree : ∀ n ∈ r.mentions, l.inputs.contains n → (l.scope s).values n = (r.scope s).values n) :
    (r.within l).valueOf s = r.valueOf s := by
  rw [valueOf_eq_meaning (r.mentions_within l ▸ within_binds hr) (by rwa [depth_within]),
    valueOf_eq_meaning hr dr, meaning_within]
  refine congrArg Except.ok (r.meaning_congr (fun n hn => ?_))
  by_cases hl : l.inputs.contains n
  · rw [values_within_of_left r s hl, agree n hn hl]
  · have absent : l.inputs.get? n = none := by simpa [Bindings.contains] using hl
    refine Bindings.values_congr (s.applyTo_congr ?_)
    rw [within, scopeIn, Bindings.get?_merge, absent, Option.none_or]

/-- The operators compose known values, as far as the two sides agree: where a name that
the right side mentions has another value on the left side, the left side's counts. -/
theorem operators_compose {l r : Expression} (hl : l.inputs.Binds l.mentions)
    (hr : r.inputs.Binds r.mentions) (dl : l.depth < maxNestingDepth)
    (dr : r.depth < maxNestingDepth) {s : Assignment} {x y : Bool}
    (hx : l.valueOf s = .ok (some x)) (hy : r.valueOf s = .ok (some y)) :
    l.negate.valueOf s = .ok (some (!x)) ∧
    ((∀ n ∈ r.mentions, l.inputs.contains n → (l.scope s).values n = (r.scope s).values n) →
      (l.conj r).valueOf s = .ok (some (x && y)) ∧
      (l.disj r).valueOf s = .ok (some (x || y)) ∧
      (l.exclusive r).valueOf s = .ok (some (x ^^ y))) ∧
    (∀ z, (r.within l).valueOf s = .ok (some z) →
      (l.conj r).valueOf s = .ok (some (x && z)) ∧
      (l.disj r).valueOf s = .ok (some (x || z)) ∧
      (l.exclusive r).valueOf s = .ok (some (x ^^ z))) := by
  have composed : ∀ z, (r.within l).valueOf s = .ok (some z) →
      (l.conj r).valueOf s = .ok (some (x && z)) ∧
      (l.disj r).valueOf s = .ok (some (x || z)) ∧
      (l.exclusive r).valueOf s = .ok (some (x ^^ z)) := by
    intro z hz
    exact ⟨valueOf_combine rfl hl hr dl dr hx hz, valueOf_combine rfl hl hr dl dr hx hz,
      valueOf_combine rfl hl hr dl dr hx hz⟩
  refine ⟨valueOf_negate hl (by omega) hx, fun agree => composed y ?_, composed⟩
  rw [valueOf_within hr (by omega) agree, hy]

/-- A name that is inverted on both sides. -/
theorem operators_compose_of_shared :
    let l := (empty.append .and [.input "a", .input "b"]).setInverted "a" true
    let r := (empty.append .or [.input "c", .input "a"]).setInverted "a" true
    let s : Assignment := ⟨[("a", true), ("b", true), ("c", true)]⟩
    l.valueOf s = .ok (some false) ∧ r.valueOf s = .ok (some true) ∧
      l.negate.valueOf s = .ok (some true) ∧ (l.conj r).valueOf s = .ok (some false) ∧
      (l.disj r).valueOf s = .ok (some true) ∧ (l.exclusive r).valueOf s = .ok (some true) := by
  intro l r s
  have hx : l.valueOf s = .ok (some false) := by rfl
  have hy : r.valueOf s = .ok (some true) := by rfl
  have composed := operators_compose (l := l) (r := r) (by decide) (by decide) (by decide)
    (by decide) hx hy
  exact ⟨hx, hy, composed.1, composed.2.1 (by decide)⟩

/-- An input that is inverted on the left side only is inverted for the right side too. -/
theorem combine_can_override :
    let l := (empty.append .and [.input "a"]).setInverted "a" true
    let r := empty.append .and [.input "a"]
    let s : Assignment := ⟨[("a", true)]⟩
    l.inputs.Binds l.mentions ∧ r.inputs.Binds r.mentions ∧ l.depth < maxNestingDepth ∧
      r.depth < maxNestingDepth ∧ l.valueOf s = .ok (some false) ∧
      r.valueOf s = .ok (some true) ∧ (l.disj r).valueOf s ≠ .ok (some (false || true)) := by
  decide

end Expression

end SwitchingAlgebra
