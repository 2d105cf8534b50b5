-- Where a step of a reduction takes place: a sentence inside a longer one, with the
-- fragments before and behind it. What the searches of a reduction find in a tidy sentence
-- is a sentence of its own.
import SwitchingAlgebra.Proofs.Places
import SwitchingAlgebra.Proofs.Polarity

namespace SwitchingAlgebra

open Fragment

/-! ## Frames -/

/-- What comes before the last phrase of a sentence. -/
abbrev Head := Option (Sentence Atom × Operator)

namespace Head

/-- The sentence that ends with the phrase. -/
def endWith : Head → Phrase Atom → Sentence Atom
  | none, p => .single p
  | some (s, op), p => .extend s op p

def fragments : Head → List Fragment
  | none => []
  | some (s, op) => s.fragments ++ [.operator op]

theorem fragments_endWith (head : Head) (p : Phrase Atom) :
    (head.endWith p).fragments = head.fragments ++ p.fragments := by
  rcases head with _ | ⟨s, op⟩
  · rfl
  · simp [endWith, fragments, Sentence.fragments]

end Head

/-- Negates a phrase or leaves it as it is. -/
def Phrase.under (negated : Bool) (p : Phrase Atom) : Phrase Atom :=
  if negated then .negated p else p

/-- What is directly around a sentence. -/
inductive Frame where
  /-- The sentence goes on with one more phrase. -/
  | followed (op : Operator) (p : Phrase Atom)
  /-- Parentheses stand around it, and make it the last phrase of a sentence. -/
  | enclosed (head : Head) (negated : Bool)

namespace Frame

/-- The frame with a sentence in it. -/
def plug : Frame → Sentence Atom → Sentence Atom
  | .followed op p, s => .extend s op p
  | .enclosed head negated, s => head.endWith (.under negated (.group s))

/-- The fragments before the sentence. -/
def before : Frame → List Fragment
  | .followed _ _ => []
  | .enclosed head false => head.fragments ++ [.opening]
  | .enclosed head true => head.fragments ++ [.negation, .opening]

/-- The fragments behind the sentence. -/
def behind : Frame → List Fragment
  | .followed op p => .operator op :: p.fragments
  | .enclosed _ _ => [.closing]

theorem fragments_plug (f : Frame) (s : Sentence Atom) :
    (f.plug s).fragments = f.before ++ s.fragments ++ f.behind := by
  rcases f with ⟨op, p⟩ | ⟨head, _ | _⟩
  · rfl
  · simp [plug, before, behind, Head.fragments_endWith, Phrase.under, Phrase.fragments]
  · simp [plug, before, behind, Head.fragments_endWith, Phrase.under, Phrase.fragments]

end Frame

/-! ## Contexts -/

/-- All that is around a sentence, the innermost frame first. -/
abbrev Context := List Frame

namespace Context

/-- The context with a sentence in it. -/
def plug : Context → Sentence Atom → Sentence Atom
  | [], s => s
  | f :: c, s => plug c (f.plug s)

def before : Context → List Fragment
  | [] => []
  | f :: c => before c ++ f.before

def behind : Context → List Fragment
  | [] => []
  | f :: c => f.behind ++ behind c

theorem plug_concat (c : Context) (f : Frame) (s : Sentence Atom) :
    plug (c ++ [f]) s = f.plug (c.plug s) := by
  induction c generalizing s with
  | nil => rfl
  | cons g c ih => exact ih (g.plug s)

theorem fragments_plug (c : Context) (s : Sentence Atom) :
    (c.plug s).fragments = c.before ++ s.fragments ++ c.behind := by
  induction c generalizing s with
  | nil => simp [plug, before, behind]
  | cons f c ih => simp [plug, before, behind, ih, Frame.fragments_plug]

end Context

/-! ## What stands in a context -/

/-- A name stands for what is given for names, and a place for what is given for it. -/
def Atom.interpret {W : Type} (name : String → W) (ι : Nat → W) : Atom → W
  | .name w => name w
  | .place k => ι k

section

variable {W : Type} {A : Interpretation W} {name : String → W} {ι ι' : Nat → W}

mutual

/-- Only the places that stand in a phrase count for what it stands for. -/
theorem Phrase.interpret_congr : ∀ p : Phrase Atom, (∀ k ∈ places p.fragments, ι k = ι' k) →
    p.interpret A (Atom.interpret name ι) = p.interpret A (Atom.interpret name ι')
  | .atom (.name _), _ => rfl
  | .atom (.place k), h => h k (by simp [Phrase.fragments, Atom.fragment])
  | .negated p, h => congrArg A.negate (Phrase.interpret_congr p h)
  | .group s, h => Sentence.interpret_congr s (fun k hk => h k (by simp [Phrase.fragments, hk]))

theorem Sentence.interpret_congr : ∀ s : Sentence Atom,
    (∀ k ∈ places s.fragments, ι k = ι' k) →
      s.interpret A (Atom.interpret name ι) = s.interpret A (Atom.interpret name ι')
  | .single p, h => Phrase.interpret_congr p h
  | .extend s op p, h => by
    rw [Sentence.interpret, Sentence.interpret,
      Sentence.interpret_congr s (fun k hk => h k (by simp [Sentence.fragments, hk])),
      Phrase.interpret_congr p (fun k hk => h k (by simp [Sentence.fragments, hk]))]

end

theorem Head.interpret_endWith (head : Head) {p p' : Phrase Atom}
    (agree : ∀ k ∈ places head.fragments, ι k = ι' k)
    (h : p.interpret A (Atom.interpret name ι) = p'.interpret A (Atom.interpret name ι')) :
    (head.endWith p).interpret A (Atom.interpret name ι) =
      (head.endWith p').interpret A (Atom.interpret name ι') := by
  rcases head with _ | ⟨s, op⟩
  · exact h
  · have same : s.interpret A (Atom.interpret name ι) = s.interpret A (Atom.interpret name ι') :=
      s.interpret_congr (fun k hk => agree k (by simp [fragments, hk]))
    rw [endWith, endWith, Sentence.interpret, Sentence.interpret, same, h]

theorem Phrase.interpret_under (negated : Bool) {p p' : Phrase Atom}
    (h : p.interpret A (Atom.interpret name ι) = p'.interpret A (Atom.interpret name ι')) :
    (Phrase.under negated p).interpret A (Atom.interpret name ι) =
      (Phrase.under negated p').interpret A (Atom.interpret name ι') := by
  cases negated with
  | false => exact h
  | true => exact congrArg A.negate h

theorem Frame.interpret_plug (f : Frame) {s s' : Sentence Atom}
    (agree : ∀ k ∈ places (f.before ++ f.behind), ι k = ι' k)
    (h : s.interpret A (Atom.interpret name ι) = s'.interpret A (Atom.interpret name ι')) :
    (f.plug s).interpret A (Atom.interpret name ι) =
      (f.plug s').interpret A (Atom.interpret name ι') := by
  cases f with
  | followed op p =>
    have same : p.interpret A (Atom.interpret name ι) = p.interpret A (Atom.interpret name ι') :=
      p.interpret_congr (fun k hk => agree k (by simp [before, behind, hk]))
    rw [plug, plug, Sentence.interpret, Sentence.interpret, same, h]
  | enclosed head negated =>
    refine head.interpret_endWith (fun k hk => agree k ?_) (Phrase.interpret_under negated h)
    cases negated <;> simp [before, hk]

/-- Two sentences that stand for the same stand for the same in one context. -/
theorem Context.interpret_plug (c : Context) {s s' : Sentence Atom}
    (agree : ∀ k ∈ places (c.before ++ c.behind), ι k = ι' k)
    (h : s.interpret A (Atom.interpret name ι) = s'.interpret A (Atom.interpret name ι')) :
    (c.plug s).interpret A (Atom.interpret name ι) =
      (c.plug s').interpret A (Atom.interpret name ι') := by
  induction c generalizing s s' with
  | nil => exact h
  | cons f c ih =>
    simp only [before, behind, places_append, List.mem_append] at agree
    refine ih (fun k hk => agree k ?_) (f.interpret_plug (fun k hk => agree k ?_) h)
    · rw [places_append, List.mem_append] at hk
      exact hk.imp .inl .inr
    · rw [places_append, List.mem_append] at hk
      exact hk.imp .inr .inl

end

/-! ## The polarity in a context -/

section

variable {pos neg : String → Prop}

/-- Every name of a head stands in its polarity. -/
def Head.Signed (pos neg : String → Prop) : Head → Prop
  | none => True
  | some (s, _) => s.Signed pos neg

theorem Head.signed_endWith (head : Head) (p : Phrase Atom) :
    (head.endWith p).Signed pos neg ↔ head.Signed pos neg ∧ p.Signed pos neg := by
  rcases head with _ | ⟨s, op⟩
  · exact ⟨fun h => ⟨trivial, h⟩, And.right⟩
  · exact Iff.rfl

theorem Head.isName_endWith (head : Head) {p : Phrase Atom} (h : p.isName = false) :
    (head.endWith p).isName = false := by
  rcases head with _ | ⟨s, op⟩
  · exact h
  · rfl

theorem Phrase.isName_under (negated : Bool) {p : Phrase Atom} (h : p.isName = false) :
    (Phrase.under negated p).isName = false := by
  cases negated with
  | false => exact h
  | true =>
    rcases p with (_ | _) | _ | _
    · cases h
    · rfl
    · rfl
    · rfl

theorem Phrase.signed_under (negated : Bool) {p : Phrase Atom} (h : p.isName = false) :
    (Phrase.under negated p).Signed pos neg ↔ p.Signed pos neg := by
  cases negated with
  | false => exact Iff.rfl
  | true =>
    constructor
    · intro hp
      rcases p with (_ | _) | _ | _
      · cases h
      · exact hp.1
      · exact hp.1
      · exact hp.1
    · intro hp
      exact (Phrase.signed_negated hp h).1

/-- Every name of a frame stands in its polarity. -/
def Frame.Signed (pos neg : String → Prop) : Frame → Prop
  | .followed _ p => p.Signed pos neg
  | .enclosed head _ => head.Signed pos neg

theorem Frame.isName_plug (f : Frame) (s : Sentence Atom) : (f.plug s).isName = false := by
  cases f with
  | followed op p => rfl
  | enclosed head negated => exact head.isName_endWith (Phrase.isName_under negated rfl)

theorem Frame.signed_plug (f : Frame) {s : Sentence Atom} (h : s.isName = false) :
    (f.plug s).Signed pos neg ↔ f.Signed pos neg ∧ s.Signed pos neg := by
  cases f with
  | followed op p => exact and_comm
  | enclosed head negated =>
    rw [plug, Head.signed_endWith, Phrase.signed_under negated rfl]
    exact and_congr_right (fun _ => ⟨And.left, fun hs => ⟨hs, h⟩⟩)

theorem Context.isName_plug (c : Context) {s : Sentence Atom} (h : s.isName = false) :
    (c.plug s).isName = false := by
  induction c generalizing s with
  | nil => exact h
  | cons f c ih => exact ih (f.isName_plug s)

/-- A sentence that is no name by itself stands in its polarity as it does in a context. -/
theorem Context.signed_plug (c : Context) {s : Sentence Atom} (h : s.isName = false) :
    (c.plug s).Signed pos neg ↔ (∀ f ∈ c, f.Signed pos neg) ∧ s.Signed pos neg := by
  induction c generalizing s with
  | nil => simp [plug]
  | cons f c ih =>
    rw [plug, ih (f.isName_plug s), f.signed_plug h, List.forall_mem_cons]
    constructor
    · rintro ⟨around, here, inside⟩
      exact ⟨⟨here, around⟩, inside⟩
    · rintro ⟨⟨here, around⟩, inside⟩
      exact ⟨around, here, inside⟩

end

end SwitchingAlgebra
