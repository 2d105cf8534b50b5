-- The text of what is built from a core has parentheses nested at least as deep as the
-- expression. What is too deep to be shown is so behind more parentheses than are ever read.
import SwitchingAlgebra.Proofs.Building
import SwitchingAlgebra.Proofs.Writing

namespace SwitchingAlgebra

/-! ## Nested texts -/

namespace Text

theorem le_nestingFrom (cs : List Char) (opened : Nat) : opened ≤ nestingFrom opened cs := by
  induction opened, cs using nestingFrom.induct with
  | case1 opened => exact Nat.le_refl _
  | case2 opened cs ih => exact Nat.le_trans (Nat.le_succ _) ih
  | case3 opened cs _ => exact Nat.le_max_left _ _
  | case4 opened c cs h h' ih => rwa [nestingFrom_cons h h']

/-- Blanks do not change how deep parentheses are nested. -/
theorem nestingFrom_filter (opened : Nat) (cs : List Char) :
    nestingFrom opened (cs.filter (!isBlank ·)) = nestingFrom opened cs := by
  induction opened, cs using nestingFrom.induct with
  | case1 opened => rfl
  | case2 opened cs ih => rw [List.filter_cons_of_pos (by decide), nestingFrom, nestingFrom, ih]
  | case3 opened cs ih => rw [List.filter_cons_of_pos (by decide), nestingFrom, nestingFrom, ih]
  | case4 opened c cs h h' ih =>
    rw [nestingFrom_cons h h', ← ih, List.filter_cons]
    split
    · rw [nestingFrom_cons h h']
    · rfl

/-- Parentheses are nested so deep in the text, and all of them are closed in it. -/
def Nests (text : String) (n : Nat) : Prop := ∀ opened rest,
  nestingFrom opened (text.toList ++ rest) = max (opened + n) (nestingFrom opened rest)

variable {a b : String} {m n : Nat}

theorem Nests.nesting_eq (h : Nests a n) : nesting a = n := by
  have whole := h 0 []
  rw [List.append_nil, nestingFrom] at whole
  rw [nesting, whole]
  omega

theorem nests_of_bare (h : ∀ c ∈ a.toList, c ≠ '(' ∧ c ≠ ')') : Nests a 0 := by
  intro opened rest
  rw [nestingFrom_append h]
  exact (Nat.max_eq_right (le_nestingFrom rest opened)).symm

theorem nests_of_all (h : a.toList.all (fun c => c != '(' && c != ')') = true) : Nests a 0 := by
  refine nests_of_bare (fun c hc => ?_)
  simpa using List.all_eq_true.mp h c hc

theorem Nests.append (h : Nests a m) (h' : Nests b n) : Nests (a ++ b) (max m n) := by
  intro opened rest
  rw [String.toList_append, List.append_assoc, h, h']
  omega

theorem Nests.parenthesized (h : Nests a n) : Nests ("(" ++ a ++ ")") (n + 1) := by
  intro opened rest
  have inside := h (opened + 1) (')' :: rest)
  have text : ("(" ++ a ++ ")").toList ++ rest = '(' :: (a.toList ++ ')' :: rest) := by
    simp
  rw [text, nestingFrom, inside, nestingFrom, Nat.add_sub_cancel]
  omega

end Text

open Text

theorem nests_pairText {op : Operator} (hop : op ≠ .not) (parens : Bool) {a b : String} {m n : Nat}
    (h : Nests a m) (h' : Nests b n) :
    Nests (pairText op parens a b) (max m n + parens.toNat) := by
  have separator : Nests op.separator 0 := nests_of_all (by cases op <;> decide)
  have joined := (h.append separator).append h'
  rw [Nat.max_zero] at joined
  cases parens with
  | false => exact joined
  | true => exact joined.parenthesized

theorem nests_negated {a : String} {n : Nat} (h : Nests a n) :
    Nests (Operator.not.glyph.toString ++ a) n := by
  have sign : Nests Operator.not.glyph.toString 0 := nests_of_all (by decide)
  have whole := sign.append h
  rwa [Nat.zero_max] at whole

/-! ## Texts of terms -/

/-- The text of the terms has parentheses nested at least as deep as the terms, and one deeper
when the last term stands in parentheses too. What does not fit below the level `d` may be cut
off. -/
def Term.ShowDepth (scope : Bindings) (parens : Bool) (d : Nat) (ts : List Term) : Prop :=
  ∃ text n, Term.textAll scope true parens d ts none = some text ∧
    Nests text (n + parens.toNat) ∧
    (d + n ≤ maxNestingDepth → ∀ t ∈ ts, ∀ x ∈ t.operands, x.level ≤ n)

/-- The text of the operand has parentheses nested at least as deep as the operand. -/
def Operand.ShowsDepth (scope : Bindings) (d : Nat) (x : Operand) : Prop :=
  ∃ n, Nests (x.textIn scope true d) n ∧ (d + n ≤ maxNestingDepth → x.level ≤ n)

section

variable {scope : Bindings} {d : Nat}

theorem Operand.showsDepth_input {w : String} (bare : Nests (inputText scope true w) 0) :
    (Operand.input w).ShowsDepth scope d :=
  ⟨0, bare, fun _ => Nat.le_refl _⟩

theorem Operand.showsDepth_nested {e : Expression}
    (h : Term.ShowDepth (e.scopeIn scope) true (d + 1) e.terms) :
    (Operand.nested e).ShowsDepth scope d := by
  by_cases hd : d < maxNestingDepth
  · obtain ⟨text, n, htext, nests, deep⟩ := h
    refine ⟨n + 1, ?_, fun room => Nat.succ_le_succ ((e.depth_le n).mpr (deep (by omega)))⟩
    rw [textIn_nested hd htext]
    exact nests
  · -- an ellipsis stands for it, behind too many parentheses
    refine ⟨1, ?_, by omega⟩
    have ellipsis : Nests "…" 0 := nests_of_all (by decide)
    rw [textIn, if_pos (by omega)]
    exact ellipsis.parenthesized

theorem Term.showDepth_name {w : String} (bare : Nests (inputText scope true w) 0)
    (parens : Bool) : Term.ShowDepth scope parens d [⟨.and, [.input w]⟩] := by
  refine ⟨_, 0, Term.textAll_name scope parens d w, ?_, by simp [Operand.level]⟩
  cases parens with
  | false => exact bare
  | true => exact bare.parenthesized

variable {op : Operator} {b : Operand} (hop : op ≠ .not) (hb : b.ShowsDepth scope d)

include hop hb in
theorem Term.showDepth_pair {a : Operand} (ha : a.ShowsDepth scope d) (parens : Bool) :
    Term.ShowDepth scope parens d [⟨op, [a, b]⟩] := by
  obtain ⟨m, nestsa, levela⟩ := ha
  obtain ⟨n, nestsb, levelb⟩ := hb
  refine ⟨_, max m n, Term.textAll_pair scope parens d hop a b,
    nests_pairText hop parens nestsa nestsb, fun room => ?_⟩
  simp only [List.forall_mem_cons]
  exact ⟨⟨by omega, by omega, by simp⟩, by simp⟩

variable {ts : List Term} (h : Term.ShowDepth scope true d ts)
include h

include hop hb in
theorem Term.ShowDepth.chain (parens : Bool) :
    Term.ShowDepth scope parens d (ts ++ [⟨op, [b]⟩]) := by
  obtain ⟨text, m, htext, nests, levels⟩ := h
  obtain ⟨n, nestsb, levelb⟩ := hb
  refine ⟨_, max (m + 1) n, Term.textAll_chain parens htext hop b,
    nests_pairText hop parens nests nestsb, fun room => ?_⟩
  have levels := levels (by omega)
  simp only [List.forall_mem_append, List.forall_mem_cons]
  refine ⟨fun t ht x hx => ?_, ⟨by omega, by simp⟩, by simp⟩
  have := levels t ht x hx
  omega

theorem Term.ShowDepth.negated (parens : Bool) :
    Term.ShowDepth scope parens d (ts ++ [⟨.not, []⟩]) := by
  obtain ⟨text, n, htext, nests, levels⟩ := h
  have same : ∀ k, (∀ t ∈ ts, ∀ x ∈ t.operands, x.level ≤ k) →
      ∀ t ∈ ts ++ [⟨.not, []⟩], ∀ x ∈ t.operands, x.level ≤ k := by
    intro k levels
    simp only [List.forall_mem_append, List.forall_mem_cons]
    exact ⟨levels, by simp, by simp⟩
  refine ⟨_, if parens then n else n + 1, Term.textAll_negated parens htext, ?_, fun room => ?_⟩
  · cases parens with
    | false => exact nests_negated nests
    | true => exact nests_negated nests
  · refine same _ (fun t ht x hx => ?_)
    cases parens with
    | false => exact Nat.le_succ_of_le (levels (Nat.le_of_succ_le room) t ht x hx)
    | true => exact levels room t ht x hx

end

/-! ## Texts of cores -/

namespace Core

/-- No name is shown with a parenthesis in it. -/
def Bare (shown : String → String) (x : Core) : Prop := ∀ n ∈ x.names, Nests (shown n) 0

theorem Bare.left {negated : Bool} {op : Operator} {left right : Core} {shown : String → String}
    (h : (pair negated op left right).Bare shown) : left.Bare shown :=
  fun n hn => h n (List.mem_append_left _ hn)

theorem Bare.right {negated : Bool} {op : Operator} {left right : Core} {shown : String → String}
    (h : (pair negated op left right).Bare shown) : right.Bare shown :=
  fun n hn => h n (List.mem_append_right _ hn)

section

variable {shown : String → String} {mixed : List String} {scope : Bindings} {d : Nat}

theorem showsDepth_operand {x : Core} {e : Expression} (shows : scope.Shows shown x.names)
    (bare : x.Bare shown) (h : Term.ShowDepth (e.scopeIn scope) true (d + 1) e.terms) :
    (x.operand mixed e).ShowsDepth scope d := by
  cases x with
  | name negated w =>
    have named : w ∈ (Core.name negated w).names := List.mem_singleton_self w
    rw [operand]
    split
    · exact Operand.showsDepth_nested h
    · refine Operand.showsDepth_input ?_
      rw [(shows w named).2]
      exact bare w named
  | pair _ _ _ _ => exact Operand.showsDepth_nested h

theorem showDepth_name {negated : Bool} {w : String}
    (shows : scope.Shows shown (name negated w).names) (bare : (name negated w).Bare shown)
    (parens : Bool) : Term.ShowDepth scope parens d [⟨.and, [.input w]⟩] := by
  have named : w ∈ (name negated w).names := List.mem_singleton_self w
  refine Term.showDepth_name ?_ parens
  rw [(shows w named).2]
  exact bare w named

/-- The text of whatever is built from a core shows how deep it is nested. -/
theorem Made.showDepth {x : Core} {e : Expression} (h : x.Made mixed e) (binary : x.Binary)
    (shows : scope.Shows shown x.names) (bare : x.Bare shown) (parens : Bool) :
    Term.ShowDepth scope parens d e.terms := by
  induction h generalizing scope d parens with
  | name _ he =>
    rw [he]
    exact showDepth_name shows bare parens
  | mixed _ he =>
    rw [he]
    exact (showDepth_name shows bare true).negated parens
  | @nested op left right l r e _ _ he ihl ihr =>
    have first : Term.ShowDepth (l.scopeIn scope) true (d + 1) l.terms :=
      ihl binary.2.1 (shows.left.scopeIn l) bare.left true
    have second : Term.ShowDepth (r.scopeIn scope) true (d + 1) r.terms :=
      ihr binary.2.2 (shows.right.scopeIn r) bare.right true
    rw [he]
    exact Term.showDepth_pair binary.1 (showsDepth_operand shows.right bare.right second)
      (showsDepth_operand shows.left bare.left first) parens
  | @chain op left right l r e _ _ _ he ihl ihr =>
    have first : Term.ShowDepth scope true d l.terms := ihl binary.2.1 shows.left bare.left true
    have second : Term.ShowDepth (r.scopeIn scope) true (d + 1) r.terms :=
      ihr binary.2.2 (shows.right.scopeIn r) bare.right true
    rw [he]
    exact first.chain binary.1 (showsDepth_operand shows.right bare.right second) parens
  | negated _ he ih =>
    rw [he]
    exact (ih binary shows bare true).negated parens

/-- An expression whose text nests parentheses within the limit is nested within the limit. -/
theorem Made.depth_le_of_nesting {x : Core} {e : Expression} (h : x.Made mixed e)
    (binary : x.Binary) (shows : e.inputs.Shows shown x.names) (bare : x.Bare shown)
    (shallow : Text.nesting e.text ≤ maxNestingDepth) : e.depth ≤ maxNestingDepth := by
  obtain ⟨text, n, htext, nests, levels⟩ :
      Term.ShowDepth e.inputs false 0 e.terms := h.showDepth binary shows bare false
  rw [Expression.text_eq htext, nests.nesting_eq] at shallow
  have room : 0 + n ≤ maxNestingDepth := by
    simpa using shallow
  exact Nat.le_trans ((e.depth_le n).mpr (levels room)) (by simpa using shallow)

end

end Core

end SwitchingAlgebra
