-- The expressions that are built from a core. A pair on the left of a pair may be the chain
-- that the pair goes on with, or nested in it; either way the core decides on the names, the
-- value and the text.
import SwitchingAlgebra.Proofs.Reading
import SwitchingAlgebra.Proofs.Showing

namespace SwitchingAlgebra

namespace Core

/-- The terms of the expression are those of the core, as a chain or nested. -/
inductive Made (mixed : List String) : Core → Expression → Prop
  | name {negated : Bool} {w : String} {e : Expression} : (negated && mixed.contains w) = false →
      e.terms = [⟨.and, [.input w]⟩] → Made mixed (.name negated w) e
  | mixed {w : String} {e : Expression} : mixed.contains w = true →
      e.terms = [⟨.and, [.input w]⟩, ⟨.not, []⟩] → Made mixed (.name true w) e
  | nested {op : Operator} {left right : Core} {l r e : Expression} : Made mixed left l →
      Made mixed right r →
      e.terms = [⟨op, [left.operand mixed l, right.operand mixed r]⟩] →
      Made mixed (.pair false op left right) e
  | chain {op : Operator} {left right : Core} {l r e : Expression} : left.isPair = true →
      Made mixed left l → Made mixed right r →
      e.terms = l.terms ++ [⟨op, [right.operand mixed r]⟩] →
      Made mixed (.pair false op left right) e
  | negated {op : Operator} {left right : Core} {e e' : Expression} :
      Made mixed (.pair false op left right) e → e'.terms = e.terms ++ [⟨.not, []⟩] →
      Made mixed (.pair true op left right) e'

theorem Made.of_terms {mixed : List String} {x : Core} {e e' : Expression} (h : x.Made mixed e)
    (terms : e'.terms = e.terms) : x.Made mixed e' := by
  cases h with
  | name plain he => exact .name plain (terms.trans he)
  | mixed hmixed he => exact .mixed hmixed (terms.trans he)
  | nested hl hr he => exact .nested hl hr (terms.trans he)
  | chain hpair hl hr he => exact .chain hpair hl hr (terms.trans he)
  | negated h he => exact .negated h (terms.trans he)

/-- What a core is read into is built from it. -/
theorem made_expression (mixed : List String) (x : Core) : x.Made mixed (x.expression mixed) := by
  induction x with
  | name negated w =>
    rw [expression]
    split
    · rename_i h
      rw [Bool.and_eq_true] at h
      rw [h.1]
      exact .mixed h.2 rfl
    · rename_i h
      exact .name (Bool.not_eq_true _ ▸ h) (Reduction.terms_extend _ _ _ _)
  | pair negated op left right ihl ihr =>
    have plain : Made mixed (.pair false op left right)
        ((pair false op left right).expression mixed) := by
      by_cases hpair : left.isPair
      · refine .chain hpair ihl ihr ?_
        rw [expression, if_pos hpair]
        exact Reduction.terms_extend _ _ _ _
      · refine .nested ihl ihr ?_
        rw [expression, if_neg hpair]
        exact Reduction.terms_extend _ _ _ _
    cases negated with
    | false => exact plain
    | true => exact .negated plain rfl

/-! ## Names and depth -/

/-- Every name of a core, from left to right. -/
def names : Core → List String
  | .name _ w => [w]
  | .pair _ _ left right => left.names ++ right.names

theorem mem_names (x : Core) (n : String) : n ∈ x.names ↔ n ∈ x.uses false ∨ n ∈ x.uses true := by
  induction x with
  | name negated w => cases negated <;> simp [names, uses]
  | pair negated op left right ihl ihr =>
    simp only [names, uses, List.mem_append, ihl, ihr]
    exact or_or_or_comm

/-- How deep the operators of a core are nested. -/
def height : Core → Nat
  | .name _ _ => 0
  | .pair _ _ left right => max left.height right.height + 1

theorem mem_mentions_operand {mixed : List String} {x : Core} {e : Expression}
    (h : ∀ n, n ∈ e.mentions ↔ n ∈ x.names) (n : String) :
    n ∈ (x.operand mixed e).mentions ↔ n ∈ x.names := by
  cases x with
  | name negated w =>
    rw [operand]
    split
    · exact h n
    · rfl
  | pair _ _ _ _ => exact h n

theorem Made.mentions {mixed : List String} {x : Core} {e : Expression} (h : x.Made mixed e)
    (n : String) : n ∈ e.mentions ↔ n ∈ x.names := by
  induction h generalizing n with
  | name _ he => simp [Expression.mem_mentions, he, names, Operand.mentions]
  | mixed _ he => simp [Expression.mem_mentions, he, names, Operand.mentions]
  | nested _ _ he ihl ihr =>
    simp [Expression.mem_mentions, he, names, mem_mentions_operand ihl, mem_mentions_operand ihr]
  | @chain op left right l r e _ _ _ he ihl ihr =>
    have chain := ihl n
    rw [Expression.mem_mentions] at chain
    rw [Expression.mem_mentions, he]
    simp only [List.mem_append, List.mem_singleton, or_and_right, exists_or, exists_eq_left, chain,
      names, mem_mentions_operand ihr]
  | @negated op left right e e' _ he ih =>
    rw [Expression.mem_mentions, he]
    simpa [Expression.mem_mentions, names] using ih n

theorem level_operand_le {mixed : List String} {x : Core} {e : Expression}
    (h : e.depth ≤ x.height) : (x.operand mixed e).level ≤ x.height + 1 := by
  cases x with
  | name negated w =>
    rw [operand]
    split
    · exact Nat.succ_le_succ h
    · exact Nat.zero_le _
  | pair _ _ _ _ => exact Nat.succ_le_succ h

/-- Operators are nested at least as deep as expressions. -/
theorem Made.depth {mixed : List String} {x : Core} {e : Expression} (h : x.Made mixed e) :
    e.depth ≤ x.height := by
  induction h with
  | name _ he => simp [Expression.depth_le, he, Operand.level]
  | mixed _ he => simp [Expression.depth_le, he, Operand.level]
  | @nested op left right l r e _ _ he ihl ihr =>
    have first : (left.operand mixed l).level ≤ _ := level_operand_le ihl
    have second : (right.operand mixed r).level ≤ _ := level_operand_le ihr
    rw [Expression.depth_le, he]
    simp only [List.forall_mem_cons, height]
    refine ⟨⟨by omega, by omega, by simp⟩, by simp⟩
  | @chain op left right l r e _ _ _ he ihl ihr =>
    have first := (Expression.depth_le _ _).mp ihl
    have second : (right.operand mixed r).level ≤ _ := level_operand_le ihr
    rw [Expression.depth_le, he]
    simp only [List.forall_mem_append, List.forall_mem_cons, height]
    refine ⟨fun t ht x hx => ?_, ⟨by omega, by simp⟩, by simp⟩
    have := first t ht x hx
    omega
  | negated _ he ih =>
    have below := (Expression.depth_le _ _).mp ih
    rw [Expression.depth_le, he]
    simp only [List.forall_mem_append, List.forall_mem_cons]
    exact ⟨below, by simp, by simp⟩

/-! ## Values -/

/-- The result of the terms that are built from a core. -/
def run (mixed : List String) (v : Valuation) : Core → Running
  | .name negated w => .ofValue (if negated && mixed.contains w then (v w).map (!·) else v w)
  | .pair negated op left right =>
    let r := Running.blank.step op [(left.run mixed v).value, (right.run mixed v).value]
    if negated then r.step .not [] else r

theorem value_ofValue (r : Option Bool) : (Running.ofValue r).value = r := by
  cases r <;> rfl

theorem step_not_ofValue (r : Option Bool) :
    (Running.ofValue r).step .not [] = .ofValue (r.map (!·)) := by
  cases r <;> rfl

theorem step_single (r : Option Bool) : Running.blank.step .and [r] = .ofValue r := by
  cases r <;> rfl

/-- What was folded so far is the first operand of a pair. -/
theorem step_ofValue (op : Operator) (a b : Option Bool) :
    (Running.ofValue a).step op [b] = Running.blank.step op [a, b] := by
  cases op <;> cases a <;> cases b <;> rfl

theorem step_blank_pair (op : Operator) (a b : Option Bool) :
    ∃ r, Running.blank.step op [a, b] = .ofValue r := by
  cases op <;> exact ⟨_, rfl⟩

theorem run_eq_ofValue (mixed : List String) (v : Valuation) (x : Core) :
    x.run mixed v = .ofValue (x.run mixed v).value := by
  have known : ∃ r, x.run mixed v = .ofValue r := by
    cases x with
    | name negated w => exact ⟨_, rfl⟩
    | pair negated op left right =>
      obtain ⟨r, hr⟩ :=
        step_blank_pair op (left.run mixed v).value (right.run mixed v).value
      rw [run, hr]
      cases negated with
      | false => exact ⟨r, rfl⟩
      | true => exact ⟨_, step_not_ofValue r⟩
  obtain ⟨r, hr⟩ := known
  rw [hr, value_ofValue]

theorem meaning_operand {mixed : List String} {v : Valuation} {x : Core} {e : Expression}
    (h : e.run v = x.run mixed v) : (x.operand mixed e).meaning v = (x.run mixed v).value := by
  have nested : (Operand.nested e).meaning v = (x.run mixed v).value := by
    rw [Operand.meaning_nested, Expression.meaning_eq, h]
  cases x with
  | name negated w =>
    rw [operand]
    split
    · exact nested
    · rename_i plain
      rw [run, if_neg plain, value_ofValue]
      rfl
  | pair _ _ _ _ => exact nested

/-- Whatever is built from a core evaluates alike. -/
theorem Made.run_eq {mixed : List String} {x : Core} {e : Expression} (h : x.Made mixed e)
    (v : Valuation) : e.run v = x.run mixed v := by
  induction h with
  | @name negated w e plain he =>
    rw [Expression.run, he, run, plain]
    exact step_single (v w)
  | @mixed w e hmixed he =>
    rw [Expression.run, he, run, hmixed, Term.runAll_cons, Term.run]
    simp only [List.map_cons, List.map_nil, Operand.meaning_input, step_single]
    exact step_not_ofValue (v w)
  | nested _ _ he ihl ihr =>
    rw [Expression.run, he, Term.runAll_cons, Term.runAll_nil, Term.run]
    simp only [List.map_cons, List.map_nil, meaning_operand ihl, meaning_operand ihr]
    rfl
  | @chain op left right l r e _ _ _ he ihl ihr =>
    rw [Expression.run, he, Term.runAll_append, Term.runAll_cons, Term.runAll_nil, Term.run]
    change (l.run v).step op _ = _
    simp only [ihl, List.map_cons, List.map_nil, meaning_operand ihr]
    conv => lhs; rw [run_eq_ofValue mixed v left]
    exact step_ofValue op _ _
  | @negated op left right e e' _ he ih =>
    rw [Expression.run, he, Term.runAll_append]
    change (e.run v).step .not [] = _
    rw [ih]
    rfl

/-! ## Texts -/

/-- No operator joins less than two operands. -/
def Binary : Core → Prop
  | .name _ _ => True
  | .pair _ op left right => op ≠ .not ∧ left.Binary ∧ right.Binary

theorem binary_negate {x : Core} : x.negate.Binary ↔ x.Binary := by
  cases x <;> rfl

section

variable (shown : String → String) (mixed : List String)

/-- The text of a core as an operand, when its names are shown like this. -/
def text : Core → String
  | .name negated w =>
    if negated && mixed.contains w then Operator.not.glyph.toString ++ ("(" ++ shown w ++ ")")
    else shown w
  | .pair negated op left right =>
    let joined := "(" ++ (left.text ++ op.separator ++ right.text) ++ ")"
    if negated then Operator.not.glyph.toString ++ joined else joined

/-- The text of the terms of a core. Parentheses around all of it are left out unless `parens`
is set. -/
def termsText (parens : Bool) : Core → String
  | .name negated w =>
    if negated && mixed.contains w then Operator.not.glyph.toString ++ ("(" ++ shown w ++ ")")
    else if parens then "(" ++ shown w ++ ")"
    else shown w
  | .pair negated op left right =>
    let first := left.text shown mixed
    let second := right.text shown mixed
    if negated then Operator.not.glyph.toString ++ pairText op true first second
    else pairText op parens first second

end

end Core

mutual

theorem Phrase.binary_core : ∀ p : Phrase String,
    (∀ op, .operator op ∈ (p.map Atom.name).fragments → op ≠ .not) → p.core.Binary
  | .atom _, _ => trivial
  | .negated p, h =>
    Core.binary_negate.mpr (Phrase.binary_core p (fun op hop => h op (List.mem_cons_of_mem _ hop)))
  | .group s, h => by
    refine Sentence.binary_core s (fun op hop => h op ?_)
    exact List.mem_cons_of_mem _ (List.mem_append_left _ hop)

theorem Sentence.binary_core : ∀ s : Sentence String,
    (∀ op, .operator op ∈ (s.map Atom.name).fragments → op ≠ .not) → s.core.Binary
  | .single p, h => Phrase.binary_core p h
  | .extend s op p, h =>
    ⟨h op (List.mem_append_right _ (List.mem_cons_self ..)),
      Sentence.binary_core s (fun op' hop => h op' (List.mem_append_left _ hop)),
      Phrase.binary_core p (fun op' hop =>
        h op' (List.mem_append_right _ (List.mem_cons_of_mem _ hop)))⟩

end

/-- The names are bound, and shown like this. -/
def Bindings.Shows (m : Bindings) (shown : String → String) (names : List String) : Prop :=
  ∀ n ∈ names, m.contains n ∧ inputText m true n = shown n

theorem Bindings.Shows.mono {m : Bindings} {shown : String → String} {names names' : List String}
    (h : m.Shows shown names) (sub : ∀ n ∈ names', n ∈ names) : m.Shows shown names' :=
  fun n hn => h n (sub n hn)

theorem Bindings.Shows.left {m : Bindings} {shown : String → String} {negated : Bool}
    {op : Operator} {left right : Core}
    (h : m.Shows shown (Core.pair negated op left right).names) : m.Shows shown left.names :=
  h.mono (fun _ hn => List.mem_append_left _ hn)

theorem Bindings.Shows.right {m : Bindings} {shown : String → String} {negated : Bool}
    {op : Operator} {left right : Core}
    (h : m.Shows shown (Core.pair negated op left right).names) : m.Shows shown right.names :=
  h.mono (fun _ hn => List.mem_append_right _ hn)

theorem Bindings.Shows.scopeIn {m : Bindings} {shown : String → String} {names : List String}
    (h : m.Shows shown names) (e : Expression) : (e.scopeIn m).Shows shown names := by
  intro n hn
  obtain ⟨bound, text⟩ := h n hn
  have same := Bindings.get?_merge_of_contains bound e.inputs
  refine ⟨(m.contains_merge e.inputs n).mpr (.inl bound), ?_⟩
  rw [← text, inputText, inputText, Expression.scopeIn, same]

namespace Core

section

variable {shown : String → String} {mixed : List String} {scope : Bindings} {d : Nat}

theorem termsText_pair {negated : Bool} {op : Operator} {left right : Core} :
    (pair negated op left right).termsText shown mixed true =
      (pair negated op left right).text shown mixed := by
  cases negated <;> rfl

/-- An operand shows the text of the core, when what is nested in it does. -/
theorem hasText_operand {x : Core} {e : Expression} (shows : scope.Shows shown x.names)
    (h : Term.HaveText (e.scopeIn scope) true (d + 1) e.terms (x.termsText shown mixed true)) :
    (x.operand mixed e).HasText scope d (x.text shown mixed) := by
  cases x with
  | name negated w =>
    by_cases hmixed : negated && mixed.contains w
    · rw [termsText, if_pos hmixed] at h
      rw [operand, if_pos hmixed, text, if_pos hmixed]
      exact Operand.hasText_nested h
    · rw [operand, if_neg hmixed, text, if_neg hmixed]
      exact fun _ => (shows w (List.mem_singleton_self w)).2
  | pair negated op left right =>
    rw [termsText_pair] at h
    exact Operand.hasText_nested h

theorem haveText_name {negated : Bool} {w : String}
    (shows : scope.Shows shown (name negated w).names) (parens : Bool) :
    Term.HaveText scope parens d [⟨.and, [.input w]⟩]
      (if parens then "(" ++ shown w ++ ")" else shown w) := by
  intro _
  rw [Term.textAll_name, (shows w (List.mem_singleton_self w)).2]

/-- Whatever is built from a core has one text, unless it is nested too deep to be shown. -/
theorem Made.haveText {x : Core} {e : Expression} (h : x.Made mixed e) (binary : x.Binary)
    (shows : scope.Shows shown x.names) (parens : Bool) :
    Term.HaveText scope parens d e.terms (x.termsText shown mixed parens) := by
  induction h generalizing scope d parens with
  | name plain he =>
    rw [he, termsText, plain]
    exact haveText_name shows parens
  | mixed hmixed he =>
    rw [he, termsText, hmixed]
    exact (haveText_name shows true).negated parens
  | @nested op left right l r e _ _ he ihl ihr =>
    rw [he]
    exact Term.haveText_pair binary.1
      (hasText_operand shows.right (ihr binary.2.2 (shows.right.scopeIn r) true))
      (hasText_operand shows.left (ihl binary.2.1 (shows.left.scopeIn l) true)) parens
  | @chain op left right l r e hpair _ _ he ihl ihr =>
    have first : Term.HaveText scope true d l.terms (left.text shown mixed) := by
      cases left with
      | name _ _ => cases hpair
      | pair _ _ _ _ =>
        rw [← termsText_pair]
        exact ihl binary.2.1 shows.left true
    rw [he]
    exact first.chain binary.1
      (hasText_operand shows.right (ihr binary.2.2 (shows.right.scopeIn r) true)) parens
  | negated _ he ih =>
    rw [he]
    exact (ih binary shows true).negated parens

/-- The text of whatever is built from a core. -/
theorem Made.text_eq {x : Core} {e : Expression} (h : x.Made mixed e) (binary : x.Binary)
    (shows : e.inputs.Shows shown x.names) (deep : e.depth ≤ maxNestingDepth) :
    e.text = x.termsText shown mixed false := by
  refine Expression.text_eq (h.haveText binary shows false (fun t ht x hx => ?_))
  have := Expression.level_le_depth ht hx
  omega

end

end Core

end SwitchingAlgebra
