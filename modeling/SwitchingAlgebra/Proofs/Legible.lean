-- The text of an expression renders a formula of its value, in every style that allows the bars
-- and the operators of its terms.
import SwitchingAlgebra.Proofs.Rendered
import SwitchingAlgebra.Proofs.Showing
import SwitchingAlgebra.Proofs.Soundness

namespace SwitchingAlgebra

/-! ## Legible names -/

/-- The names that a `NOT` negates may be barred, and any other operator may join. -/
structure Term.Follows (σ : Style) (t : Term) : Prop where
  bars : t.operator = .not → ∀ n, .input n ∈ t.operands → σ.bars n
  joins : t.operator ≠ .not → σ.joins t.operator

/-- Names that can be shown in a style: all are ASCII, and those with the flag may be barred. -/
structure Legible (σ : Style) (flag : String → Bool) (names : List String) : Prop where
  ascii : ∀ n ∈ names, isAsciiName n
  barred : ∀ n ∈ names, flag n = true → σ.bars n

/-- The inversion flag of a name. -/
def Bindings.isInverted (m : Bindings) (n : String) : Bool :=
  ((m.get? n).getD .unresolved).inverted

theorem Bindings.isInverted_eq {m : Bindings} {n : String} {b : Binding} (h : m.get? n = some b) :
    m.isInverted n = b.inverted := by
  rw [isInverted, h]
  rfl

/-- The bindings give these flags to the names. -/
def Bindings.FlagsAs (m : Bindings) (flag : String → Bool) (names : List String) : Prop :=
  ∀ n ∈ names, ∃ raw, m.get? n = some ⟨raw, flag n⟩

/-- The effective values of names with these flags and raw values. -/
def flagged (flag v : String → Bool) : Valuation := fun n => some (v n != flag n)

section

variable {σ : Style} {flag v : String → Bool} {names : List String} {scope : Bindings}

/-- An input is shown with its effective value. -/
theorem rendersPhrase_inputText (legible : Legible σ flag names)
    (hscope : scope.FlagsAs flag names) {n : String} (hn : n ∈ names) :
    RendersPhrase σ v names (inputText scope true n) (v n != flag n) := by
  obtain ⟨raw, hb⟩ := hscope n hn
  have ascii := legible.ascii n hn
  simp only [inputText, hb, Option.getD_some, Bool.not_true]
  cases hflag : flag n with
  | false => simpa [hflag] using RendersPhrase.name hn ascii
  | true => simpa [hflag] using RendersPhrase.barred hn ascii (legible.barred n hn hflag)

/-- A bar over what an input is shown as negates it. -/
theorem rendersPhrase_bar_inputText (legible : Legible σ flag names)
    (hscope : scope.FlagsAs flag names) {n : String} (hn : n ∈ names) (hbar : σ.bars n) :
    RendersPhrase σ v names (Text.bar (inputText scope true n)) (!(v n != flag n)) := by
  obtain ⟨raw, hb⟩ := hscope n hn
  have ascii := legible.ascii n hn
  simp only [inputText, hb, Option.getD_some, Bool.not_true]
  cases hflag : flag n with
  | false => simpa [hflag] using RendersPhrase.barred hn ascii hbar
  | true =>
    obtain ⟨hne, word⟩ := wordLike_of_isAsciiName ascii
    obtain ⟨on, off⟩ := Text.bar_bare hne (fun c hc => (word c hc).bar)
    have double : Text.bar (Text.bar n) = n := by rw [on, off]
    simpa [hflag, double] using RendersPhrase.name hn ascii

/-! ## One term -/

/-- The text so far is a phrase of the result so far, or both are blank. -/
def Running.Shown (σ : Style) (v : String → Bool) (names : List String) :
    Running → Option String → Prop
  | .blank, none => True
  | .known b, some text => RendersPhrase σ v names text b
  | _, _ => False

/-- Where the operand has a value, its text is a phrase of this value. -/
def Operand.Shown (σ : Style) (flag v : String → Bool) (names : List String) (scope : Bindings)
    (d : Nat) (x : Operand) : Prop :=
  ∀ b, x.meaning (flagged flag v) = some b → RendersPhrase σ v names (x.textIn scope true d) b

variable {d : Nat} {xs : List Operand} {acc : Running} {text : Option String}

theorem Operand.shown_textAll (h : ∀ x ∈ xs, x.Shown σ flag v names scope d) {bs : List Bool}
    (hbs : xs.map (Operand.meaning (flagged flag v)) = bs.map some) :
    List.Forall₂ (RendersPhrase σ v names) (Operand.textAll scope true d xs) bs := by
  induction xs generalizing bs with
  | nil =>
    rw [List.map_eq_nil_iff.mp hbs.symm]
    exact .nil
  | cons x xs ih =>
    rw [List.forall_mem_cons] at h
    cases bs with
    | nil => cases hbs
    | cons b bs =>
      obtain ⟨hb, hbs⟩ := List.cons.inj hbs
      exact .cons (h.1 b hb) (ih h.2 hbs)

/-- A `NOT` is shown as a bar or a sign. -/
theorem Running.shown_negatedText (legible : Legible σ flag names)
    (hscope : scope.FlagsAs flag names) (h : acc.Shown σ v names text)
    (hxs : ∀ x ∈ xs, x.Shown σ flag v names scope d)
    (hnames : ∀ n, .input n ∈ xs → n ∈ names ∧ σ.bars n)
    (known : acc.step .not (xs.map (Operand.meaning (flagged flag v))) ≠ .unknown) :
    (acc.step .not (xs.map (Operand.meaning (flagged flag v)))).Shown σ v names
      (negatedText true xs (Operand.textAll scope true d xs) text) := by
  match acc, text, h with
  | .known b, some text, h => exact RendersPhrase.negated h
  | .blank, none, _ =>
    cases xs with
    | nil => trivial
    | cons x xs =>
      rw [List.forall_mem_cons] at hxs
      cases x with
      | input n =>
        obtain ⟨hn, hbar⟩ := hnames n (by simp)
        exact rendersPhrase_bar_inputText legible hscope hn hbar
      | nested e =>
        cases hv : (Operand.nested e).meaning (flagged flag v) with
        | none =>
          refine absurd ?_ known
          simp only [List.map_cons, hv]
          rfl
        | some b =>
          have negated := (hxs.1 b hv).negated
          simp only [List.map_cons, hv]
          exact negated

/-- A term of another operator is shown as its operands, joined. -/
theorem Running.shown_joinedText {op : Operator} (hop : op ≠ .not) (joins : σ.joins op)
    (h : acc.Shown σ v names text) (hxs : ∀ x ∈ xs, x.Shown σ flag v names scope d) (parens : Bool)
    (known : acc.step op (xs.map (Operand.meaning (flagged flag v))) ≠ .unknown) :
    (acc.step op (xs.map (Operand.meaning (flagged flag v))) = .blank ∧
      joinedText op parens (Operand.textAll scope true d xs) text = none) ∨
    ∃ b joined, acc.step op (xs.map (Operand.meaning (flagged flag v))) = .known b ∧
      joinedText op parens (Operand.textAll scope true d xs) text = some joined ∧
      RendersSentence σ v names joined b ∧ (parens = true → RendersPhrase σ v names joined b) := by
  rw [step_eq_gather hop] at known ⊢
  have present : none ∉ acc.operands ++ xs.map (Operand.meaning (flagged flag v)) := by
    intro missing
    exact known (gather_eq_unknown missing)
  obtain ⟨bs, hbs⟩ := exists_map_some present
  have pieces : List.Forall₂ (RendersPhrase σ v names)
      (text.toList ++ Operand.textAll scope true d xs) bs := by
    match acc, text, h with
    | .blank, none, _ => exact Operand.shown_textAll hxs hbs
    | .known b, some text, h =>
      cases bs with
      | nil => cases hbs
      | cons b' bs =>
        obtain ⟨hb, rest⟩ := List.cons.inj hbs
        cases hb
        exact .cons h (Operand.shown_textAll hxs rest)
  rw [hbs] at known ⊢
  unfold joinedText
  generalize text.toList ++ Operand.textAll scope true d xs = texts at pieces
  cases hr : op.combine bs with
  | none =>
    cases pieces with
    | nil => exact .inl ⟨rfl, rfl⟩
    | cons _ _ => exact absurd (by rw [gather, Operator.reduce_map_some, hr]; rfl) known
  | some r =>
    have joined := rendersSentence_intercalate hop joins pieces hr
    cases pieces with
    | nil => exact .inl ⟨rfl, rfl⟩
    | cons _ _ =>
      refine .inr ⟨r, _, by rw [gather, Operator.reduce_map_some, hr]; rfl, rfl, ?_, ?_⟩
      · cases parens with
        | false => exact joined
        | true => exact joined.grouped.sentence
      · rintro rfl
        exact joined.grouped

/-! ## A whole expression -/

theorem Term.runAll_unknown (w : Valuation) (ts : List Term) :
    Term.runAll w ts .unknown = .unknown := by
  induction ts with
  | nil => rfl
  | cons t ts ih =>
    obtain ⟨op, xs⟩ := t
    cases op <;> exact ih

/-- Terms with a known result are shown as a sentence, and in parentheses as a phrase. -/
theorem Term.rendersSentence_textAll (legible : Legible σ flag names)
    (hscope : scope.FlagsAs flag names) (parens : Bool) {ts : List Term}
    (hts : ∀ t ∈ ts, ∀ x ∈ t.operands, x.Shown σ flag v names scope d)
    (named : ∀ t ∈ ts, ∀ n, .input n ∈ t.operands → n ∈ names) (follows : ∀ t ∈ ts, t.Follows σ)
    (h : acc.Shown σ v names text) {b : Bool}
    (hrun : Term.runAll (flagged flag v) ts acc = .known b) :
    ∃ result, Term.textAll scope true parens d ts text = some result ∧
      RendersSentence σ v names result b ∧ (parens = true → RendersPhrase σ v names result b) := by
  induction ts generalizing acc text with
  | nil =>
    cases hrun
    match text, h with
    | some text, h => exact ⟨text, rfl, h.sentence, fun _ => h⟩
  | cons t ts ih =>
    obtain ⟨op, xs⟩ := t
    rw [List.forall_mem_cons] at hts named follows
    rw [Term.runAll_cons, Term.run] at hrun
    have known : acc.step op (xs.map (Operand.meaning (flagged flag v))) ≠ .unknown := by
      intro unknown
      rw [unknown, Term.runAll_unknown] at hrun
      cases hrun
    rw [Term.textAll]
    by_cases hop : op = .not
    · subst hop
      have shown := Running.shown_negatedText legible hscope h hts.1
        (fun n hn => ⟨named.1 n hn, follows.1.bars rfl n hn⟩) known
      exact ih hts.2 named.2 follows.2 shown hrun
    · simp only [hop, if_false]
      rcases Running.shown_joinedText hop (follows.1.joins hop) h hts.1 (parens || !ts.isEmpty)
        known with ⟨blank, htext⟩ | ⟨r, joined, result, htext, sentence, phrase⟩
      · rw [blank] at hrun
        rw [htext]
        have shown : Running.Shown σ v names .blank none := trivial
        exact ih hts.2 named.2 follows.2 shown hrun
      · rw [result] at hrun
        rw [htext]
        cases ts with
        | nil =>
          -- only the last term may stand without parentheses
          cases hrun
          exact ⟨joined, rfl, sentence, fun hp => phrase (by simp [hp])⟩
        | cons u ts =>
          have shown : (Running.known r).Shown σ v names (some joined) := phrase (by simp)
          exact ih hts.2 named.2 follows.2 shown hrun

theorem Bindings.FlagsAs.scopeIn (h : scope.FlagsAs flag names) (e : Expression) :
    (e.scopeIn scope).FlagsAs flag names := by
  intro n hn
  obtain ⟨raw, hb⟩ := h n hn
  exact ⟨raw, by rw [Expression.scopeIn, Bindings.get?_merge, hb]; rfl⟩

theorem Expression.run_of_meaning {w : Valuation} (e : Expression) {b : Bool}
    (h : e.meaning w = some b) : e.run w = .known b := by
  rw [e.meaning_eq] at h
  cases hr : e.run w with
  | known b' =>
    rw [hr] at h
    exact congrArg Running.known (Option.some.inj h)
  | blank =>
    rw [hr] at h
    cases h
  | unknown =>
    rw [hr] at h
    cases h

/-- Where an expression has a value and its operands are shown, its terms are shown as a sentence
of this value. -/
theorem Expression.rendersSentence_terms (e : Expression) (legible : Legible σ flag names)
    (hscope : scope.FlagsAs flag names) (parens : Bool) (hnames : ∀ n ∈ e.mentions, n ∈ names)
    (follows : e.Everywhere (Term.Follows σ))
    (operands : ∀ t ∈ e.terms, ∀ x ∈ t.operands, (∀ n ∈ x.mentions, n ∈ names) →
      x.Everywhere (Term.Follows σ) → x.Shown σ flag v names scope d)
    {b : Bool} (h : e.meaning (flagged flag v) = some b) :
    ∃ result, Term.textAll scope true parens d e.terms none = some result ∧
      RendersSentence σ v names result b ∧ (parens = true → RendersPhrase σ v names result b) := by
  have mentioned : ∀ t ∈ e.terms, ∀ x ∈ t.operands, ∀ n ∈ x.mentions, n ∈ names := by
    intro t ht x hx n hn
    exact hnames n ((e.mem_mentions n).mpr ⟨t, ht, x, hx, hn⟩)
  have run : Term.runAll (flagged flag v) e.terms .blank = .known b := e.run_of_meaning h
  have shown : Running.Shown σ v names .blank none := trivial
  exact Term.rendersSentence_textAll legible hscope parens
    (fun t ht x hx => operands t ht x hx (mentioned t ht x hx) ((follows t ht).2 x hx))
    (fun t ht n hn => mentioned t ht _ hn n (by simp [Operand.mentions]))
    (fun t ht => (follows t ht).1) shown run

/-- Every operand is shown as a phrase, at any level above the deepest. -/
theorem Operand.shown_of_legible (x : Operand) (legible : Legible σ flag names)
    (hscope : scope.FlagsAs flag names) (hnames : ∀ n ∈ x.mentions, n ∈ names)
    (follows : x.Everywhere (Term.Follows σ)) (deep : d + x.level ≤ maxNestingDepth) :
    x.Shown σ flag v names scope d := by
  induction x using Operand.induct generalizing scope d with
  | input n =>
    intro b hb
    cases hb
    exact rendersPhrase_inputText legible hscope (hnames n (by simp [mentions]))
  | nested e ih =>
    intro b hb
    rw [Operand.everywhere_nested] at follows
    simp only [level] at deep
    obtain ⟨result, htext, -, phrase⟩ := e.rendersSentence_terms (d := d + 1) legible
      (hscope.scopeIn e) true hnames follows
      (fun t ht x hx named within => ih t ht x hx (hscope.scopeIn e) named within
        (by have := Expression.level_le_depth ht hx; omega)) hb
    rw [textIn_nested (by omega) htext]
    exact phrase rfl

end

namespace Expression

/-- Where an expression has a value, its text is a sentence of this value. -/
theorem rendersSentence_text {σ : Style} {e : Expression} (names : e.inputs.Binds e.mentions)
    (legible : Legible σ e.inputs.isInverted e.mentions)
    (follows : e.Everywhere (Term.Follows σ)) {s : Assignment} {v : String → Bool}
    (hs : ∀ n ∈ e.mentions, s.get? n = some (v n)) {b : Bool} (h : e.valueOf s = .ok (some b)) :
    RendersSentence σ v e.mentions e.text b := by
  -- what evaluates is not so deep that an ellipsis would stand for it
  have hd := depth_of_fold h
  rw [valueOf_eq_meaning names (by omega)] at h
  have hscope : e.inputs.FlagsAs e.inputs.isInverted e.mentions := by
    intro n hn
    obtain ⟨binding, hb⟩ := Option.isSome_iff_exists.mp (names n hn)
    exact ⟨binding.raw, by rw [Bindings.isInverted_eq hb]; exact hb⟩
  have seen : ∀ n ∈ e.mentions, (e.scope s).values n = flagged e.inputs.isInverted v n := by
    intro n hn
    rw [Bindings.values, scope, Assignment.get?_applyTo, hs n hn]
    rfl
  have meant := (e.meaning_congr seen).symm.trans (Except.ok.inj h)
  obtain ⟨result, htext, sentence, -⟩ := e.rendersSentence_terms (d := 0) legible hscope false
    (fun _ hn => hn) follows
    (fun t ht x hx named within => x.shown_of_legible legible hscope named within
      (by have := Expression.level_le_depth ht hx; omega)) meant
  rw [text_eq htext]
  exact sentence

end Expression

end SwitchingAlgebra
