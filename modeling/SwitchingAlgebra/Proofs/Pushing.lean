-- Pushing the terms of what was read. The parser appends terms without a look at the number of
-- their operands; what it makes of a formula is still within the limits of every operator, but
-- for a chain that begins with one binary operator twice.
import SwitchingAlgebra.Proofs.Coupling
import SwitchingAlgebra.Proofs.Printing

namespace SwitchingAlgebra

/-! ## Chains of terms -/

/-- A term that a chain begins with: one name, or two operands. -/
def Term.Begins (t : Term) : Prop :=
  t.operator = .and ∧ t.operands.length = 1 ∨ t.operator ≠ .not ∧ t.operands.length = 2

/-- A term that a chain goes on with: one operand more, or a negation of all before it. -/
def Term.GoesOn (t : Term) : Prop :=
  t.operator ≠ .not ∧ t.operands.length = 1 ∨ t.operator = .not ∧ t.operands = []

/-- One term begins the chain, and the others go on with it. -/
def IsChain : List Term → Prop
  | [] => False
  | t :: ts => t.Begins ∧ ∀ u ∈ ts, u.GoesOn

theorem IsChain.concat {ts : List Term} {t : Term} (h : IsChain ts) (ht : t.GoesOn) :
    IsChain (ts ++ [t]) := by
  cases ts with
  | nil => exact h.elim
  | cons first ts =>
    refine ⟨h.1, List.forall_mem_append.mpr ⟨h.2, ?_⟩⟩
    simpa using ht

namespace Core

/-- What is built from a core is a chain at every level. -/
theorem Made.isChain {mixed : List String} {x : Core} {e : Expression} (h : x.Made mixed e)
    (binary : x.Binary) : e.Throughout (fun f => IsChain f.terms) := by
  -- an operand is an input, or what is built from its own core
  have operand : ∀ {y : Core} {f : Expression}, f.Throughout (fun f => IsChain f.terms) →
      (y.operand mixed f).Throughout (fun f => IsChain f.terms) := by
    intro y f hf
    cases y with
    | name negated w =>
      rw [Core.operand]
      split
      · exact Operand.throughout_nested.mpr hf
      · exact .input w
    | pair _ _ _ _ => exact Operand.throughout_nested.mpr hf
  induction h with
  | @name negated w e _ he =>
    rw [Expression.Throughout, he]
    exact ⟨⟨.inl ⟨rfl, rfl⟩, by simp⟩, by simpa using Operand.Throughout.input w⟩
  | @mixed w e _ he =>
    rw [Expression.Throughout, he]
    refine ⟨⟨.inl ⟨rfl, rfl⟩, ?_⟩, by simpa using Operand.Throughout.input w⟩
    simpa using .inr ⟨rfl, rfl⟩
  | @nested op left right l r e _ _ he ihl ihr =>
    obtain ⟨hop, hl, hr⟩ := binary
    rw [Expression.Throughout, he]
    refine ⟨⟨.inr ⟨hop, rfl⟩, by simp⟩, ?_⟩
    simpa using ⟨operand (ihl hl), operand (ihr hr)⟩
  | @chain op left right l r e _ _ _ he ihl ihr =>
    obtain ⟨hop, hl, hr⟩ := binary
    obtain ⟨before, below⟩ := ihl hl
    rw [Expression.Throughout, he]
    refine ⟨before.concat (.inl ⟨hop, rfl⟩), List.forall_mem_append.mpr ⟨below, ?_⟩⟩
    simpa using operand (ihr hr)
  | @negated op left right e e' _ he ih =>
    obtain ⟨before, below⟩ := ih binary
    rw [Expression.Throughout, he]
    exact ⟨before.concat (.inr ⟨rfl, rfl⟩), List.forall_mem_append.mpr ⟨below, by simp⟩⟩

end Core

/-! ## The limits of operators -/

/-- The term has the operator of the first one, and the operator is defined on two values only. -/
def Term.Repeats (t first : Term) : Prop :=
  t.operator = first.operator ∧ t.operator.isBinaryOnly = true

/-- An operator with more than two values has no limit that a chain could reach. -/
theorem Operator.maxOperands?_of_binary {op : Operator} (h : op ≠ .not) :
    op.maxOperands? = if op.isBinaryOnly then some 2 else none := by
  cases op <;> first | rfl | exact absurd rfl h

namespace Expression

/-- Up to two operands are within the limit of a first term. -/
theorem arityFault?_of_begins {t : Term} (h : t.Begins) :
    arityFault? [] t.operator t.operands.length = none := by
  rcases h with ⟨hop, -⟩ | ⟨hop, two⟩
  · rw [hop]
    rfl
  · rw [arityFault?, Operator.maxOperands?_of_binary hop, two]
    cases t.operator.isBinaryOnly <;> rfl

/-- A term that goes on with a chain is over the limit together with the term before it, when
that is the first and has two operands for the same operator. -/
theorem arityFault?_of_goesOn {before : List Term} {t : Term} (h : IsChain before)
    (ht : t.GoesOn) :
    (∀ first, before = [first] → t.Repeats first →
      arityFault? before t.operator t.operands.length = some (.chainedBinary t.operator 2 1)) ∧
    ((∀ first, before = [first] → ¬ t.Repeats first) →
      arityFault? before t.operator t.operands.length = none) := by
  rcases ht with ⟨hop, one⟩ | ⟨hop, none_given⟩
  · rw [arityFault?, Operator.maxOperands?_of_binary hop, one]
    constructor
    · rintro first rfl ⟨same, binary⟩
      obtain ⟨⟨hand, -⟩ | ⟨-, two⟩, -⟩ := h
      · rw [same, hand] at binary
        cases binary
      · rw [same] at binary ⊢
        simp [binary, two]
    · intro apart
      cases binary : t.operator.isBinaryOnly with
      | false => rfl
      | true =>
        simp only [if_true, Nat.not_lt.mpr (by decide : 1 ≤ 2), gt_iff_lt, if_false]
        cases hlast : before.getLast? with
        | none => rfl
        | some last =>
          simp only [Bool.and_eq_true, decide_eq_true_eq, ite_eq_right_iff, reduceCtorEq, imp_false,
            not_and]
          intro same
          obtain ⟨others, rfl⟩ := List.getLast?_eq_some_iff.mp hlast
          cases others with
          | nil => exact absurd ⟨same.symm, binary⟩ (apart last rfl)
          | cons first others =>
            -- a later term has one operand, so that both together have two
            rcases h.2 last (by simp) with ⟨-, one⟩ | ⟨negates, -⟩
            · omega
            · rw [← same, negates] at binary
              cases binary
  · rw [arityFault?, hop, none_given]
    constructor
    · rintro first rfl ⟨-, binary⟩
      rw [hop] at binary
      cases binary
    · exact fun _ => rfl

/-! ## Pushing terms -/

/-- Pushes terms one after the other onto an expression. -/
def pushAll (e : Expression) (ts : List Term) : Except ArityError Expression :=
  ts.foldlM (fun e t => e.push t.operator t.operands) e

theorem exists_push {e : Expression} {t : Term}
    (h : arityFault? e.terms t.operator t.operands.length = none) :
    ∃ e', e.push t.operator t.operands = .ok e' ∧ e'.terms = e.terms ++ [t] := by
  obtain ⟨op, xs⟩ := t
  unfold push
  rw [h]
  simp only
  split
  · exact ⟨_, rfl, rfl⟩
  · exact ⟨_, rfl, rfl⟩

theorem push_eq_error {e : Expression} {t : Term} {fault : ArityError}
    (h : arityFault? e.terms t.operator t.operands.length = some fault) :
    e.push t.operator t.operands = .error fault := by
  unfold push
  rw [h]

theorem pushAll_cons_of_ok {e e' : Expression} {t : Term} (h : e.push t.operator t.operands = .ok e')
    (ts : List Term) : e.pushAll (t :: ts) = e'.pushAll ts := by
  rw [pushAll, List.foldlM_cons, h]
  rfl

theorem pushAll_cons_of_error {e : Expression} {t : Term} {fault : ArityError}
    (h : e.push t.operator t.operands = .error fault) (ts : List Term) :
    e.pushAll (t :: ts) = .error fault := by
  rw [pushAll, List.foldlM_cons, h]
  rfl

/-- Where each term can be pushed onto those before it, all of them can be. -/
theorem exists_pushAll {e : Expression} {ts : List Term}
    (each : ∀ before t behind, ts = before ++ t :: behind →
      arityFault? (e.terms ++ before) t.operator t.operands.length = none) :
    ∃ e', e.pushAll ts = .ok e' ∧ e'.terms = e.terms ++ ts := by
  induction ts generalizing e with
  | nil => exact ⟨e, rfl, (List.append_nil _).symm⟩
  | cons t ts ih =>
    obtain ⟨e₁, pushed, terms⟩ := exists_push (by simpa using each [] t ts rfl)
    obtain ⟨e₂, others, terms'⟩ := @ih e₁ (by
      intro before u behind hts
      rw [terms, List.append_assoc]
      exact each (t :: before) u behind (by rw [hts]; rfl))
    refine ⟨e₂, (pushAll_cons_of_ok pushed ts).trans others, ?_⟩
    rw [terms', terms, List.append_assoc]
    rfl

end Expression

/-! ## Pushing what was read -/

/-- A term of a chain, after those before it. -/
theorem IsChain.arityFault? {before behind : List Term} {t : Term}
    (h : IsChain (before ++ t :: behind)) :
    (∀ first, before = [first] → t.Repeats first →
      Expression.arityFault? before t.operator t.operands.length =
        some (.chainedBinary t.operator 2 1)) ∧
    ((∀ first, before = [first] → ¬ t.Repeats first) →
      Expression.arityFault? before t.operator t.operands.length = none) := by
  cases before with
  | nil => exact ⟨by simp, fun _ => Expression.arityFault?_of_begins h.1⟩
  | cons first before =>
    refine Expression.arityFault?_of_goesOn ⟨h.1, fun u hu => ?_⟩ (h.2 t (by simp))
    exact h.2 u (List.mem_append_left _ hu)

namespace Expression

/-- The terms of what was read, at every level, can be pushed one after the other onto a new
expression, but for a second term with the binary operator of the first one. -/
theorem pushAll_of_parse {text : String} {e : Expression} (h : parse text = .ok e) :
    e.Throughout (fun f =>
      (∀ before t behind, f.terms = before ++ t :: behind → ∀ g : Expression, g.terms = before →
        (∀ first, before = [first] → t.Repeats first →
          g.push t.operator t.operands = .error (.chainedBinary t.operator 2 1)) ∧
        ((∀ first, before = [first] → ¬ t.Repeats first) →
          ∃ g', g.push t.operator t.operands = .ok g' ∧ g'.terms = before ++ [t])) ∧
      ((∃ g, empty.pushAll f.terms = .ok g ∧ g.terms = f.terms) ↔
        ∀ first second rest, f.terms = first :: second :: rest → ¬ second.Repeats first)) := by
  obtain ⟨s, source⟩ := exists_isReadFrom h
  refine (source.made.isChain source.binary).imp (fun f chain => ⟨?_, ?_, ?_⟩)
  · rintro before t behind hf g rfl
    obtain ⟨refused, taken⟩ := (hf ▸ chain).arityFault?
    exact ⟨fun first hfirst repeated => push_eq_error (refused first hfirst repeated),
      fun apart => exists_push (taken apart)⟩
  · -- the second term would be refused
    rintro ⟨g, pushed, -⟩ first second rest hf repeated
    rw [hf] at chain pushed
    have behind_first : IsChain ([first] ++ second :: rest) := chain
    have refused := behind_first.arityFault?.1 first rfl repeated
    obtain ⟨g₁, first_pushed, terms⟩ := exists_push (e := empty) (arityFault?_of_begins chain.1)
    have second_refused := push_eq_error (e := g₁) (t := second) (by rw [terms]; exact refused)
    rw [pushAll_cons_of_ok first_pushed, pushAll_cons_of_error second_refused] at pushed
    cases pushed
  · intro apart
    refine exists_pushAll (e := empty) (fun before t behind hf => ?_)
    refine (hf ▸ chain).arityFault?.2 ?_
    rintro first rfl
    exact apart first t behind hf

/-- A chain that begins with `⊼` twice, and in its last operand one that changes its operator. -/
theorem pushAll_of_parse_of_chains : ∃ e, parse "a ⊼ b ⊼ (c ⊽ ~d ⊼ a)" = .ok e ∧
    e.Throughout (fun f => (∃ g, empty.pushAll f.terms = .ok g ∧ g.terms = f.terms) ↔
      ∀ first second rest, f.terms = first :: second :: rest → ¬ second.Repeats first) := by
  have name : ∀ w : String, isAsciiName w → Spelling [.name w] w.toList :=
    fun _ h => (Lexeme.name h).spelling
  have spelled : Spelled [.name "a", .operator .nand, .name "b", .operator .nand, .opening,
      .name "c", .operator .nor, .negation, .name "d", .operator .nand, .name "a", .closing]
      "a ⊼ b ⊼ (c ⊽ ~d ⊼ a)".toList :=
    @Spelled.next [] ['a'] _ [_] _ rfl (name "a" (by decide)) <|
    @Spelled.next [' '] ['⊼'] _ [_] _ rfl (.sign (by decide)) <|
    @Spelled.next [' '] ['b'] _ [_] _ rfl (name "b" (by decide)) <|
    @Spelled.next [' '] ['⊼'] _ [_] _ rfl (.sign (by decide)) <|
    @Spelled.next [' '] ['('] _ [_] _ rfl (.sign (by decide)) <|
    @Spelled.next [] ['c'] _ [_] _ rfl (name "c" (by decide)) <|
    @Spelled.next [' '] ['⊽'] _ [_] _ rfl (.sign (by decide)) <|
    @Spelled.next [' '] ['~'] _ [_] _ rfl (.sign (by decide)) <|
    @Spelled.next [] ['d'] _ [_] _ rfl (name "d" (by decide)) <|
    @Spelled.next [' '] ['⊼'] _ [_] _ rfl (.sign (by decide)) <|
    @Spelled.next [' '] ['a'] _ [_] _ rfl (name "a" (by decide)) <|
    @Spelled.next [] [')'] _ [_] _ rfl (.sign (by decide)) (@Spelled.done [] rfl)
  let f : Sentence String := .extend (.extend (.single (.atom "a")) .nand (.atom "b")) .nand
    (.group (.extend (.extend (.single (.atom "c")) .nor (.negated (.atom "d"))) .nand (.atom "a")))
  have parsed := @parse_eq_of_spelled (f.map Atom.name) _ _ spelled (by decide) (ofFragments_core f)
  exact ⟨_, parsed, (pushAll_of_parse parsed).imp (fun _ pushes => pushes.2)⟩

/-- The parser goes on with a `⊼` of two names by a third one, which `push` refuses. -/
theorem pushAll_of_parse_can_fail : ∃ e, parse "a⊼b⊼c" = .ok e ∧
    empty.pushAll e.terms = .error (.chainedBinary .nand 2 1) := by
  have name : ∀ w : String, isAsciiName w → Spelling [.name w] w.toList :=
    fun _ h => (Lexeme.name h).spelling
  have spelled : Spelled [.name "a", .operator .nand, .name "b", .operator .nand, .name "c"]
      "a⊼b⊼c".toList :=
    @Spelled.next [] ['a'] _ [_] _ rfl (name "a" (by decide)) <|
    @Spelled.next [] ['⊼'] _ [_] _ rfl (.sign (by decide)) <|
    @Spelled.next [] ['b'] _ [_] _ rfl (name "b" (by decide)) <|
    @Spelled.next [] ['⊼'] _ [_] _ rfl (.sign (by decide)) <|
    @Spelled.next [] ['c'] _ [_] _ rfl (name "c" (by decide)) (@Spelled.done [] rfl)
  let f : Sentence String := .extend (.extend (.single (.atom "a")) .nand (.atom "b")) .nand
    (.atom "c")
  have parsed := @parse_eq_of_spelled (f.map Atom.name) _ _ spelled (by decide) (ofFragments_core f)
  exact ⟨_, parsed, rfl⟩

end Expression

end SwitchingAlgebra
