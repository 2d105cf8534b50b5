-- The core of a sentence is what is left of it when groups and double negations are gone. A
-- sentence is read into the expression of its core, whatever its groups and negations are.
import SwitchingAlgebra.Parsing
import SwitchingAlgebra.Proofs.Stepping

namespace SwitchingAlgebra

/-! ## Cores -/

/-- Names and pairs of operands, each negated at most once. -/
inductive Core where
  | name (negated : Bool) (word : String)
  | pair (negated : Bool) (op : Operator) (left right : Core)
  deriving DecidableEq, Repr

namespace Core

def negate : Core → Core
  | .name negated w => .name (!negated) w
  | .pair negated op left right => .pair (!negated) op left right

theorem negate_negate (x : Core) : x.negate.negate = x := by
  cases x <;> simp [negate]

/-- Two operands are a pair, and what is negated twice is plain. -/
def interpretation : Interpretation Core := ⟨negate, .pair false, negate_negate⟩

def isNegated : Core → Bool
  | .name negated _ => negated
  | .pair negated _ _ _ => negated

def isPair : Core → Bool
  | .name _ _ => false
  | .pair _ _ _ _ => true

theorem isPair_negate (x : Core) : x.negate.isPair = x.isPair := by
  cases x <;> rfl

/-- The names used in one polarity, from left to right. -/
def uses (negated : Bool) : Core → List String
  | .name after w => if after == negated then [w] else []
  | .pair _ _ left right => left.uses negated ++ right.uses negated

/-- The names used both plain and negated. -/
def mixedNames (x : Core) : List String := (x.uses true).filter (x.uses false).contains

theorem uses_negate {x : Core} (h : x.isPair = true) (negated : Bool) :
    x.negate.uses negated = x.uses negated := by
  cases x with
  | name _ _ => cases h
  | pair _ _ _ _ => rfl

theorem mem_uses_negate {x : Core} {negated : Bool} {w : String} (h : w ∈ x.negate.uses negated) :
    ∃ negated', w ∈ x.uses negated' := by
  cases x with
  | name after n =>
    refine ⟨after, ?_⟩
    simp only [negate, uses] at h ⊢
    split at h
    · simpa using h
    · cases h
  | pair _ _ _ _ => exact ⟨negated, h⟩

/-! ## The expression of a core -/

/-- A core as an operand: a name, or the expression `e` of the core. A mixed name is an
expression of its own where it is negated. -/
def operand (mixed : List String) (e : Expression) : Core → Operand
  | .name negated w => if negated && mixed.contains w then .nested e else .input w
  | .pair _ _ _ _ => .nested e

/-- The name that a core inverts as an operand. -/
def inverted (mixed : List String) : Core → List String
  | .name negated w => if negated && !mixed.contains w then [w] else []
  | .pair _ _ _ _ => []

/-- The expression that a core is read into. A pair on the left is the chain so far, and
takes the operator as its next term. -/
def expression (mixed : List String) : Core → Expression
  | .name negated w =>
    if negated && mixed.contains w then (Expression.empty.append .and [.input w]).negate
    else Reduction.extend .empty .and [.input w] ((name negated w).inverted mixed)
  | .pair negated op left right =>
    let y := right.operand mixed (right.expression mixed)
    let e :=
      if left.isPair then
        Reduction.extend (left.expression mixed) op [y] (right.inverted mixed)
      else
        Reduction.extend .empty op [left.operand mixed (left.expression mixed), y]
          (left.inverted mixed ++ right.inverted mixed)
    if negated then e.negate else e

theorem expression_negate {x : Core} (hpair : x.isPair = true) (h : x.isNegated = false)
    (mixed : List String) : x.negate.expression mixed = (x.expression mixed).negate := by
  cases x with
  | name _ _ => cases hpair
  | pair negated op left right =>
    obtain rfl : negated = false := h
    rfl

end Core

/-- The core of a phrase of names. -/
def Phrase.core (p : Phrase String) : Core := p.interpret Core.interpretation (.name false)

/-- The core of a sentence of names. -/
def Sentence.core (s : Sentence String) : Core := s.interpret Core.interpretation (.name false)

/-! ## Cores with places -/

/-- A name stands for itself, and a place for the core that is given for it. -/
def Atom.core (ι : Nat → Core) : Atom → Core := Atom.interpret (Core.name false) ι

section

variable {α β W : Type} (A : Interpretation W) (f : α → β) (ι : β → W)

mutual

theorem Phrase.interpret_map : ∀ p : Phrase α,
    (p.map f).interpret A ι = p.interpret A (fun a => ι (f a))
  | .atom _ => rfl
  | .negated p => congrArg A.negate (Phrase.interpret_map p)
  | .group s => Sentence.interpret_map s

theorem Sentence.interpret_map : ∀ s : Sentence α,
    (s.map f).interpret A ι = s.interpret A (fun a => ι (f a))
  | .single p => Phrase.interpret_map p
  | .extend s op p => by
    rw [Sentence.map, Sentence.interpret, Sentence.interpret, Sentence.interpret_map s,
      Phrase.interpret_map p]

end

end

section

variable (ι : Nat → Core)

mutual

/-- What is tidy and no single operand is a pair at the core. -/
theorem Phrase.isPair_core : ∀ p : Phrase Atom, p.Tidy → (Sentence.single p).lone? = none →
    (p.interpret Core.interpretation (Atom.core ι)).isPair = true
  | .atom _, _, h => by cases h
  | .negated (.atom _), _, h => by cases h
  | .negated (.negated _), ⟨_, twice⟩, _ => by cases twice
  | .negated (.group s), ⟨tidy, _⟩, _ =>
    (Core.isPair_negate _).trans (Sentence.isPair_core s tidy.1 tidy.2)
  | .group s, tidy, _ => Sentence.isPair_core s tidy.1 tidy.2

theorem Sentence.isPair_core : ∀ s : Sentence Atom, s.Tidy → s.lone? = none →
    (s.interpret Core.interpretation (Atom.core ι)).isPair = true
  | .single p, tidy, h => Phrase.isPair_core p tidy h
  | .extend _ _ _, _, _ => rfl

end

mutual

/-- A tidy phrase uses its names as its core does. -/
theorem Phrase.uses_core (negated : Bool) : ∀ p : Phrase Atom, p.Tidy →
    (∀ k, Atom.place k ∉ p.atoms) →
    (p.interpret Core.interpretation (Atom.core ι)).uses negated = p.uses negated false
  | .atom (.name _), _, _ => rfl
  | .atom (.place k), _, h => absurd (List.mem_singleton_self _) (h k)
  | .negated (.atom (.name _)), _, _ => rfl
  | .negated (.atom (.place k)), _, h => absurd (List.mem_singleton_self _) (h k)
  | .negated (.negated _), ⟨_, twice⟩, _ => by cases twice
  | .negated (.group s), ⟨tidy, _⟩, h =>
    (Core.uses_negate (s.isPair_core ι tidy.1 tidy.2) negated).trans
      (Sentence.uses_core negated s tidy.1 h)
  | .group s, tidy, h => Sentence.uses_core negated s tidy.1 h

theorem Sentence.uses_core (negated : Bool) : ∀ s : Sentence Atom, s.Tidy →
    (∀ k, Atom.place k ∉ s.atoms) →
    (s.interpret Core.interpretation (Atom.core ι)).uses negated = s.uses negated
  | .single p, tidy, h => Phrase.uses_core negated p tidy h
  | .extend s op p, ⟨tidy, tidy'⟩, h => by
    simp only [Sentence.atoms, List.mem_append, not_or] at h
    rw [Sentence.uses, ← Sentence.uses_core negated s tidy (fun k => (h k).1),
      ← Phrase.uses_core negated p tidy' (fun k => (h k).2)]
    rfl

end

/-- The names that a tidy sentence of names mixes are those that its core mixes. -/
theorem Sentence.mixedNames_core {s : Sentence Atom} (tidy : s.Tidy)
    (h : ∀ k, Atom.place k ∉ s.atoms) : Fragment.mixedNames s.fragments =
      (s.interpret Core.interpretation (Atom.core ι)).mixedNames := by
  rw [Fragment.mixedNames, Core.mixedNames, s.namesUsed_eq, s.namesUsed_eq,
    s.uses_core ι true tidy h, s.uses_core ι false tidy h]

end

/-! ## Where a negated place may stand -/

/-- Whether a part may stand behind so many negations: behind an odd number of them no place
may stand that is negated already. -/
def fitting : Interpretation (Bool → Prop) where
  negate x := fun odd => x (!odd)
  join _ x y := fun _ => x false ∧ y false
  negate_negate x := by simp

/-- A core that is negated is not negated once more. -/
def Core.Fits (x : Core) (odd : Bool) : Prop := x.isNegated = true → odd = false

/-- Names may stand everywhere. -/
def Atom.fits (ι : Nat → Bool → Prop) : Atom → Bool → Prop :=
  Atom.interpret (fun _ _ => True) ι

section

variable {ι : Nat → Bool → Prop}

mutual

theorem Phrase.fits_of_places (h : ∀ k odd, ι k odd) : ∀ (p : Phrase Atom) (odd : Bool),
    p.interpret fitting (Atom.fits ι) odd
  | .atom (.name _), _ => trivial
  | .atom (.place k), odd => h k odd
  | .negated p, odd => Phrase.fits_of_places h p (!odd)
  | .group s, odd => Sentence.fits_of_places h s odd

theorem Sentence.fits_of_places (h : ∀ k odd, ι k odd) : ∀ (s : Sentence Atom) (odd : Bool),
    s.interpret fitting (Atom.fits ι) odd
  | .single p, odd => Phrase.fits_of_places h p odd
  | .extend s _ p, _ => ⟨Sentence.fits_of_places h s false, Phrase.fits_of_places h p false⟩

end

/-- What may stand in a context may stand behind some number of negations. -/
theorem Frame.fits_of_plug (f : Frame) {s : Sentence Atom} {odd : Bool}
    (h : (f.plug s).interpret fitting (Atom.fits ι) odd) :
    ∃ odd', s.interpret fitting (Atom.fits ι) odd' := by
  rcases f with ⟨op, p⟩ | ⟨_ | ⟨s', op⟩, _ | _⟩
  · exact ⟨false, h.1⟩
  · exact ⟨odd, h⟩
  · exact ⟨!odd, h⟩
  · exact ⟨false, h.2⟩
  · exact ⟨true, h.2⟩

theorem Context.fits_of_plug (c : Context) {s : Sentence Atom} {odd : Bool}
    (h : (c.plug s).interpret fitting (Atom.fits ι) odd) :
    ∃ odd', s.interpret fitting (Atom.fits ι) odd' := by
  induction c generalizing s with
  | nil => exact ⟨odd, h⟩
  | cons f c ih =>
    obtain ⟨odd', h'⟩ := ih h
    exact f.fits_of_plug h'

end

/-! ## Tidy parts -/

theorem Head.tidy_of_endWith {head : Head} {p : Phrase Atom} (h : (head.endWith p).Tidy) :
    p.Tidy := by
  rcases head with _ | ⟨s, op⟩
  · exact h
  · exact h.2

theorem Frame.tidy_of_plug {f : Frame} {s : Sentence Atom} (h : (f.plug s).Tidy) : s.Tidy := by
  rcases f with ⟨op, p⟩ | ⟨head, _ | _⟩
  · exact h.1
  · exact (Head.tidy_of_endWith h).1
  · exact (Head.tidy_of_endWith h).1.1

theorem Context.tidy_of_plug {c : Context} {s : Sentence Atom} (h : (c.plug s).Tidy) : s.Tidy := by
  induction c generalizing s with
  | nil => exact h
  | cons f c ih => exact Frame.tidy_of_plug (ih h)

/-- In a tidy sentence no group holds just one operand. -/
theorem Context.lone?_of_enclosed {c : Context} {head : Head} {negated : Bool} {s : Sentence Atom}
    (h : (plug (.enclosed head negated :: c) s).Tidy) : s.lone? = none := by
  have around := Head.tidy_of_endWith (Context.tidy_of_plug (c := c) h)
  cases negated with
  | false => exact around.2
  | true => exact around.1.2

/-- A negated placeholder fits a place that is not negated, and once it gave way to a new one
that may be negated itself. -/
theorem Sentence.NegatesPlace.fits {s : Sentence Atom} {c : Context} {head : Head} {k n : Nat}
    {ι : Nat → Bool → Prop} {y : Bool → Prop} (h : s.NegatesPlace c head k) (tidy : s.Tidy)
    (fresh : n ∉ Fragment.places s.fragments) (fit : s.interpret fitting (Atom.fits ι) false)
    (hy : y false) : ι k true ∧
      (c.plug (head.endWith (.atom (.place n)))).interpret fitting
        (Atom.fits (Function.update ι n y)) false := by
  have around : ∀ j ∈ Fragment.places (c.before ++ c.behind), Function.update ι n y j = ι j := by
    intro j hj
    apply h.agree fresh
    simp only [Fragment.places_append, List.mem_append] at hj ⊢
    exact hj.imp .inl id
  have new : Function.update ι n y n = y := Function.update_self n y ι
  obtain rfl := h.eq_plug
  rcases head with _ | ⟨s₀, op⟩
  · rcases c with _ | ⟨⟨op, p⟩ | ⟨head, negated⟩, c⟩
    · refine ⟨fit, ?_⟩
      change Function.update ι n y n false
      rwa [new]
    · -- the placeholder is the first operand of its sentence
      obtain ⟨_, fits, -⟩ := Context.fits_of_plug (s := .extend _ op p) c fit
      have behind : p.interpret fitting (Atom.fits (Function.update ι n y)) =
          p.interpret fitting (Atom.fits ι) :=
        p.interpret_congr (fun j hj => around j (by simp [Context.behind, Frame.behind, hj]))
      have here : (Sentence.extend (.single (.atom (.place n))) op p).interpret fitting
            (Atom.fits (Function.update ι n y)) =
          (Sentence.extend (.single (.negated (.atom (.place k)))) op p).interpret fitting
            (Atom.fits ι) := by
        funext odd
        change (Function.update ι n y n false ∧ _) = (ι k true ∧ _)
        rw [new, behind]
        exact propext (and_congr_left' ⟨fun _ => fits, fun _ => hy⟩)
      have same := Context.interpret_plug c (fun j hj => around j (by
        simp only [Context.before, Context.behind, Fragment.places_append, List.mem_append] at hj ⊢
        exact hj.imp .inl .inr)) here
      exact ⟨fits, same ▸ fit⟩
    · -- it would stand by itself in a group
      cases Context.lone?_of_enclosed tidy
  · -- the placeholder is the last operand of its sentence
    obtain ⟨_, -, fits⟩ := Context.fits_of_plug (s := .extend s₀ op _) c fit
    have ahead : s₀.interpret fitting (Atom.fits (Function.update ι n y)) =
        s₀.interpret fitting (Atom.fits ι) :=
      s₀.interpret_congr (fun j hj => h.agree fresh y (by simp [Head.fragments, hj]))
    have here : (Sentence.extend s₀ op (.atom (.place n))).interpret fitting
          (Atom.fits (Function.update ι n y)) =
        (Sentence.extend s₀ op (.negated (.atom (.place k)))).interpret fitting (Atom.fits ι) := by
      funext odd
      change (_ ∧ Function.update ι n y n false) = (_ ∧ ι k true)
      rw [new, ahead]
      exact propext (and_congr_right' ⟨fun _ => fits, fun _ => hy⟩)
    have same := c.interpret_plug around here
    exact ⟨fits, same ▸ fit⟩

/-- A triple may give way to a place that may stand everywhere. -/
theorem Sentence.HasTriple.fits {s : Sentence Atom} {c : Context} {left right : Side}
    {op : Operator} {n : Nat} {ι : Nat → Bool → Prop} {y : Bool → Prop}
    (h : s.HasTriple c left op right) (fresh : n ∉ Fragment.places s.fragments)
    (fit : s.interpret fitting (Atom.fits ι) false) (hy : ∀ odd, y odd) :
    (c.withPlace n).interpret fitting (Atom.fits (Function.update ι n y)) false := by
  have sides := fit
  rw [h.eq_plug] at sides
  obtain ⟨_, hl, hr⟩ := c.fits_of_plug sides
  have triple : fitting.join op (left.phrase.interpret fitting (Atom.fits ι))
      (right.phrase.interpret fitting (Atom.fits ι)) = y := by
    funext odd
    exact propext ⟨fun _ => hy odd, fun _ => ⟨hl, hr⟩⟩
  have same : (c.withPlace n).interpret fitting (Atom.fits (Function.update ι n (fitting.join op
      (left.phrase.interpret fitting (Atom.fits ι))
      (right.phrase.interpret fitting (Atom.fits ι))))) = s.interpret fitting (Atom.fits ι) :=
    h.interpret_eq fresh
  rw [triple] at same
  exact same ▸ fit

/-! ## Reading a triple -/

namespace Reduction

theorem holds_of_operand {mixed : List String} {ps ps' : Places} {side : Side} {o : Operand}
    {inverted : List String} (h : operand mixed ps side = .ok (o, ps', inverted)) {k : Nat}
    {e : Expression} (he : ps'.Holds k e) : ps.Holds k e := by
  cases side with
  | place negated j =>
    unfold operand at h
    simp only at h
    split at h
    · rename_i e' ps₁ htake
      cases h
      exact Places.holds_of_take?_holds htake he
    · cases h
  | name negated w =>
    simp only [operand] at h
    split at h
    · cases h
      exact he
    · split at h
      · cases h
        exact he
      · cases h
        exact he

/-- What waits behind a place is read from the pair that the place stands for. -/
def IsReading (mixed : List String) (x : Core) (e : Expression) : Prop :=
  x.isPair = true ∧ e = x.expression mixed

section

variable {mixed : List String} {ps ps' : Places} {ι : Nat → Core}

theorem operand_core (held : ∀ k e, ps.Holds k e → IsReading mixed (ι k) e) {side : Side}
    (plain : side.phrase.Plain) {o : Operand} {inverted : List String}
    (h : operand mixed ps side = .ok (o, ps', inverted)) :
    let x := side.phrase.interpret Core.interpretation (Atom.core ι)
    o = x.operand mixed (x.expression mixed) ∧ inverted = x.inverted mixed := by
  rcases side with ⟨_ | _, w⟩ | ⟨_ | _, k⟩
  · cases h
    exact ⟨rfl, rfl⟩
  · by_cases hmixed : mixed.contains w
    · simp only [operand, hmixed] at h
      cases h
      simp only [Side.phrase, Phrase.interpret, Atom.core, Atom.interpret, Core.interpretation,
        Core.negate, Core.operand, Core.expression, Core.inverted, hmixed]
      exact ⟨rfl, rfl⟩
    · rw [Bool.not_eq_true] at hmixed
      simp only [operand, hmixed] at h
      cases h
      simp only [Side.phrase, Phrase.interpret, Atom.core, Atom.interpret, Core.interpretation,
        Core.negate, Core.operand, Core.inverted, hmixed]
      exact ⟨rfl, rfl⟩
  · unfold operand at h
    simp only at h
    split at h
    · rename_i e ps₁ htake
      cases h
      obtain ⟨hpair, rfl⟩ := held k e (Places.holds_of_take? htake)
      change _ = (ι k).operand mixed ((ι k).expression mixed) ∧ _ = (ι k).inverted mixed
      cases hk : ι k with
      | name negated w =>
        rw [hk] at hpair
        cases hpair
      | pair negated op left right => exact ⟨rfl, rfl⟩
    · cases h
  · exact plain.elim

/-- A triple is read into the expression of the pair that it is. -/
theorem readTriple_core {t : Triple} (held : ∀ k e, ps.Holds k e → IsReading mixed (ι k) e)
    (plain : t.left.phrase.Plain) (plain' : t.right.phrase.Plain) {e : Expression}
    (h : readTriple mixed ps t = .ok (e, ps')) :
    IsReading mixed (.pair false t.op (t.left.phrase.interpret Core.interpretation (Atom.core ι))
      (t.right.phrase.interpret Core.interpretation (Atom.core ι))) e := by
  refine ⟨rfl, ?_⟩
  unfold readTriple at h
  split at h
  · rename_i k hleft
    split at h
    · cases h
    · rename_i first ps₁ htake
      split at h
      · cases h
      · rename_i y ps₂ inverted hright
        cases h
        obtain ⟨hpair, rfl⟩ := held k first (Places.holds_of_take? htake)
        obtain ⟨rfl, rfl⟩ := operand_core
          (fun j e he => held j e (Places.holds_of_take?_holds htake he)) plain' hright
        have left : t.left.phrase.interpret Core.interpretation (Atom.core ι) = ι k := by
          rw [hleft]
          rfl
        rw [Core.expression, left, if_pos hpair]
        rfl
  · rename_i hchain
    split at h
    · cases h
    · rename_i x ps₁ inverted₁ hleft
      split at h
      · cases h
      · rename_i y ps₂ inverted₂ hright
        cases h
        obtain ⟨rfl, rfl⟩ := operand_core held plain hleft
        obtain ⟨rfl, rfl⟩ := operand_core
          (fun j e he => held j e (holds_of_operand hleft he)) plain' hright
        -- no place stands on the left, so that it is a name
        have left : (t.left.phrase.interpret Core.interpretation (Atom.core ι)).isPair = false := by
          rcases hside : t.left with ⟨_ | _, w⟩ | ⟨_ | _, k⟩
          · rfl
          · rfl
          · exact absurd hside (hchain k)
          · rw [hside] at plain
            exact plain.elim
        rw [Core.expression, left]
        rfl

end

/-! ## The invariant -/

/-- What waits behind the places of a sentence is read from what they stand for, and the core
of the sentence is `x`. -/
def ReadsCore (mixed : List String) (x : Core) (s : Sentence Atom) (ps : Places) : Prop :=
  ∃ ι : Nat → Core, (∀ k e, ps.Holds k e → IsReading mixed (ι k) e) ∧
    s.interpret fitting (Atom.fits (fun k => (ι k).Fits)) false ∧
    s.interpret Core.interpretation (Atom.core ι) = x

theorem fits_update (ι : Nat → Core) (n : Nat) (x : Core) :
    (fun k => (Function.update ι n x k).Fits) =
      Function.update (fun k => (ι k).Fits) n x.Fits := by
  funext k
  exact Function.apply_update (fun _ => Core.Fits) ι n x k

/-- A step keeps the core. -/
theorem ReadsCore.step {pos neg : String → Prop} {mixed : List String} {x : Core}
    {r r' : Reduction} {s s' : Sentence Atom} (spells : r.Spells pos neg s)
    (steps : s.StepsTo mixed r.places s' r'.places) (h : ReadsCore mixed x s r.places) :
    ReadsCore mixed x s' r'.places := by
  obtain ⟨ι, held, fit, rfl⟩ := h
  obtain ⟨fs', ps'⟩ := r'
  cases steps with
  | strip => exact ⟨ι, held, s.interpret_strip fitting _ ▸ fit, s.interpret_strip _ _⟩
  | cancel => exact ⟨ι, held, s.interpret_cancel fitting _ ▸ fit, s.interpret_cancel _ _⟩
  | @negate c head k e ps' tidy hs he emptied =>
    have fresh := spells.fresh emptied
    obtain ⟨hpair, rfl⟩ := held k e he
    obtain ⟨plain, fit'⟩ := hs.fits (y := (ι k).negate.Fits) tidy fresh fit (fun _ => rfl)
    have notNegated : (ι k).isNegated = false := by
      by_contra negated
      rw [Bool.not_eq_false] at negated
      cases plain negated
    have reading : IsReading mixed (ι k).negate ((ι k).expression mixed).negate :=
      ⟨(ι k).isPair_negate.trans hpair, (Core.expression_negate hpair notNegated mixed).symm⟩
    exact ⟨_, Places.held_concat held emptied reading, fits_update ι _ _ ▸ fit',
      hs.interpret_eq fresh⟩
  | @triple c left right op e ps' hs hread emptied =>
    have fresh := spells.fresh emptied
    have reading := readTriple_core held hs.plain.1 hs.plain.2 hread
    refine ⟨_, Places.held_concat held emptied reading, ?_, hs.interpret_eq fresh⟩
    rw [fits_update]
    exact hs.fits fresh fit (by rintro _ ⟨⟩)

/-- A reduction of a sentence ends with the expression of its core. -/
theorem Spells.run_core {pos neg : String → Prop} {mixed : List String} {x : Core} {r : Reduction}
    {s : Sentence Atom} (h : r.Spells pos neg s) (hs : ReadsCore mixed x s r.places) :
    r.run mixed = .ok (x.expression mixed) := by
  obtain ⟨s', ps, k, e, he, hk, holds, ι, held, -, core⟩ := h.run ReadsCore.step hs
  rw [s'.eq_place hk] at core
  obtain rfl : ι k = x := core
  rw [he, (held k e holds).2]

end Reduction

/-! ## Settling -/

/-- What tidying comes to is a tidy sentence with the same atoms, which stands for the same. -/
theorem Sentence.settle_fragments (s : Sentence Atom) :
    ∃ s' : Sentence Atom, Fragment.settle s.fragments = s'.fragments ∧ s'.Tidy ∧
      s'.atoms = s.atoms ∧ ∀ {W : Type} (A : Interpretation W) (ι : Atom → W),
        s'.interpret A ι = s.interpret A ι := by
  -- each tidying shortens the fragments
  induction hn : s.fragments.length using Nat.strongRecOn generalizing s with
  | ind n ih =>
    unfold Fragment.settle
    split
    · rename_i fs htidy
      have shorter := Fragment.length_tidy? htidy
      rcases s.tidy?_eq_some htidy with rfl | rfl
      · obtain ⟨s', settled, tidy, atoms, same⟩ := ih _ (by omega) s.strip rfl
        exact ⟨s', settled, tidy, atoms.trans s.atoms_strip,
          fun A ι => (same A ι).trans (s.interpret_strip A ι)⟩
      · obtain ⟨s', settled, tidy, atoms, same⟩ := ih _ (by omega) s.cancel rfl
        exact ⟨s', settled, tidy, atoms.trans s.atoms_cancel,
          fun A ι => (same A ι).trans (s.interpret_cancel A ι)⟩
    · rename_i htidy
      exact ⟨s, rfl, s.tidy_of_tidy? htidy, rfl, fun _ _ => rfl⟩

/-! ## Reading fragments -/

mutual

theorem Phrase.places_fragments_of_atoms : ∀ p : Phrase Atom, (∀ k, Atom.place k ∉ p.atoms) →
    Fragment.places p.fragments = []
  | .atom (.name _), _ => rfl
  | .atom (.place k), h => absurd (List.mem_singleton_self _) (h k)
  | .negated p, h => Phrase.places_fragments_of_atoms p h
  | .group s, h => by
    rw [Phrase.fragments, Fragment.places_opening, Fragment.places_append,
      Sentence.places_fragments_of_atoms s h]
    rfl

theorem Sentence.places_fragments_of_atoms : ∀ s : Sentence Atom, (∀ k, Atom.place k ∉ s.atoms) →
    Fragment.places s.fragments = []
  | .single p, h => Phrase.places_fragments_of_atoms p h
  | .extend s op p, h => by
    simp only [Sentence.atoms, List.mem_append, not_or] at h
    rw [Sentence.fragments, Fragment.places_append, Fragment.places_operator,
      Sentence.places_fragments_of_atoms s (fun k => (h k).1),
      Phrase.places_fragments_of_atoms p (fun k => (h k).2)]
    rfl

end

namespace Expression

theorem ofLoneName?_of_not_isName {s : Sentence Atom} (h : s.isName = false) :
    ofLoneName? s.fragments = none := by
  rcases s with (⟨w | k⟩ | ⟨⟨w | k⟩ | p | s⟩ | s) | ⟨s, op, p⟩
  · cases h
  · rfl
  · cases h
  · rfl
  · rfl
  · rfl
  · rfl
  · -- an operator is among the fragments
    have mem : Fragment.operator op ∈ (Sentence.extend s op p).fragments := by
      simp [Sentence.fragments]
    unfold ofLoneName?
    split
    · rename_i w hfs
      simp [hfs] at mem
    · rename_i w hfs
      simp [hfs] at mem
    · rfl


/-- A name by itself is read into the expression of its core. -/
theorem ofLoneName?_core {s : Sentence Atom} (h : s.isName = true) (ι : Nat → Core) :
    let x := s.interpret Core.interpretation (Atom.core ι)
    ofLoneName? s.fragments = some (x.expression x.mixedNames) := by
  rcases s with (⟨w | k⟩ | ⟨⟨w | k⟩ | p | s⟩ | s) | ⟨s, op, p⟩
  · rfl
  · cases h
  · rfl
  · cases h
  · cases h
  · cases h
  · cases h
  · cases h

/-- A formula is read into the expression of its core. -/
theorem ofFragments_core (f : Sentence String) :
    ofFragments (f.map Atom.name).fragments = .ok (f.core.expression f.core.mixedNames) := by
  obtain ⟨s, settled, tidy, atoms, same⟩ := (f.map Atom.name).settle_fragments
  -- no placeholder stands among the fragments yet, so that any core will do for them
  let ι : Nat → Core := fun _ => .pair false .and (.name false "") (.name false "")
  have core : s.interpret Core.interpretation (Atom.core ι) = f.core :=
    (same _ _).trans (f.interpret_map _ _ _)
  have names : ∀ k, Atom.place k ∉ s.atoms := by
    intro k
    rw [atoms, f.atoms_map]
    simp
  unfold ofFragments
  simp only [settled]
  cases hname : s.isName with
  | true => simp only [ofLoneName?_core hname ι, core]
  | false =>
    have places : Fragment.places s.fragments = [] := s.places_fragments_of_atoms names
    have spells : Reduction.Spells (fun _ => True) (fun _ => True) ⟨s.fragments, []⟩ s := by
      refine ⟨rfl, ⟨?_, ?_⟩, s.signed_of_tidy tidy (by simp) (by simp), hname⟩
      · simp [places]
      · intro k
        simp [places, Places.Holds]
    have reads : Reduction.ReadsCore f.core.mixedNames f.core s [] := by
      refine ⟨ι, ?_, Sentence.fits_of_places (by rintro _ _ ⟨⟩) s false, core⟩
      intro k e he
      simp [Places.Holds] at he
    rw [ofLoneName?_of_not_isName hname, s.mixedNames_core ι tidy names, core]
    simp only [spells.run_core reads]

end Expression

end SwitchingAlgebra
