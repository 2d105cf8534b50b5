-- What the two searches of a reduction find in a tidy sentence. Both find the leftmost
-- place, and what they find is always an operand or a sentence of the tree.
import SwitchingAlgebra.Proofs.Contexts

namespace SwitchingAlgebra

open Fragment

/-! ## Negated placeholders -/

mutual

/-- No placeholder is negated. -/
def Phrase.Plain : Phrase Atom → Prop
  | .atom _ => True
  | .negated (.atom (.place _)) => False
  | .negated p => p.Plain
  | .group s => s.Plain

/-- No placeholder is negated. -/
def Sentence.Plain : Sentence Atom → Prop
  | .single p => p.Plain
  | .extend s _ p => s.Plain ∧ p.Plain

end

/-- The search for a negated placeholder goes past these fragments. -/
def Fragment.Skipped (fs : List Fragment) : Prop :=
  ∀ rest, findNegatedPlace? (fs ++ rest) =
    (findNegatedPlace? rest).map (fun found => (fs ++ found.1, found.2))

namespace Fragment

theorem Skipped.nil : Skipped [] := by
  intro rest
  simp

theorem Skipped.append {fs gs : List Fragment} (h : Skipped fs) (h' : Skipped gs) :
    Skipped (fs ++ gs) := by
  intro rest
  rw [List.append_assoc, h, h', Option.map_map]
  simp [Function.comp_def]

theorem Skipped.singleton {f : Fragment} (h : f ≠ .negation) : Skipped [f] := by
  intro rest
  rw [List.singleton_append, findNegatedPlace?]
  · rfl
  · rintro k rest' rfl
    exact absurd rfl h

theorem Skipped.negation {f : Fragment} {fs : List Fragment} (h : ∀ k, f ≠ .place k)
    (hfs : Skipped (f :: fs)) : Skipped (.negation :: f :: fs) := by
  intro rest
  have next := hfs rest
  rw [List.cons_append] at next ⊢
  rw [List.cons_append, findNegatedPlace?, next, Option.map_map]
  · rfl
  · rintro k rest' - heq
    exact h k (List.cons.inj heq).1

end Fragment

theorem Atom.skipped (a : Atom) : Skipped [a.fragment] := .singleton a.fragment_ne_negation

mutual

theorem Phrase.skipped : ∀ p : Phrase Atom, p.Plain → Skipped p.fragments
  | .atom a, _ => a.skipped
  | .negated (.atom (.name w)), _ => .negation (by simp [Atom.fragment]) (Atom.skipped (.name w))
  | .negated (.atom (.place _)), h => h.elim
  | .negated (.negated p), h => .negation (by simp) (Phrase.skipped (.negated p) h)
  | .negated (.group s), h => .negation (by simp) (Phrase.skipped (.group s) h)
  | .group s, h =>
    have inside := (Sentence.skipped s h).append (.singleton (by simp : Fragment.closing ≠ _))
    (Skipped.singleton (by simp : Fragment.opening ≠ _)).append inside

theorem Sentence.skipped : ∀ s : Sentence Atom, s.Plain → Skipped s.fragments
  | .single p, h => Phrase.skipped p h
  | .extend s op p, ⟨h, h'⟩ =>
    (Sentence.skipped s h).append
      ((Skipped.singleton (by simp : Fragment.operator op ≠ _)).append (Phrase.skipped p h'))

end

/-- No placeholder is negated in a head. -/
def Head.Plain : Head → Prop
  | none => True
  | some (s, _) => s.Plain

/-- No placeholder is negated before what is in the frame. -/
def Frame.Plain : Frame → Prop
  | .followed _ _ => True
  | .enclosed head _ => head.Plain

theorem Head.skipped {head : Head} (h : head.Plain) : Skipped head.fragments := by
  rcases head with _ | ⟨s, op⟩
  · exact .nil
  · exact (s.skipped h).append (.singleton (by simp))

theorem Frame.skipped {f : Frame} (h : f.Plain) : Skipped f.before := by
  rcases f with ⟨op, p⟩ | ⟨head, _ | _⟩
  · exact .nil
  · exact (Head.skipped h).append (.singleton (by simp))
  · exact (Head.skipped h).append (.negation (by simp) (.singleton (by simp)))

theorem Context.skipped {c : Context} (h : ∀ f ∈ c, f.Plain) : Skipped c.before := by
  induction c with
  | nil => exact .nil
  | cons f c ih =>
    rw [List.forall_mem_cons] at h
    exact (ih h.2).append (Frame.skipped h.1)

/-- The leftmost negated placeholder is `k`, at the end of a sentence in a context. -/
structure Sentence.NegatesPlace (s : Sentence Atom) (c : Context) (head : Head) (k : Nat) :
    Prop where
  around : ∀ f ∈ c, f.Plain
  ahead : head.Plain
  eq_plug : s = c.plug (head.endWith (.negated (.atom (.place k))))

theorem Sentence.NegatesPlace.concat {s : Sentence Atom} {c : Context} {head : Head} {k : Nat}
    (h : s.NegatesPlace c head k) {f : Frame} (hf : f.Plain) :
    (f.plug s).NegatesPlace (c ++ [f]) head k := by
  refine ⟨?_, h.ahead, ?_⟩
  · intro g hg
    rcases List.mem_append.mp hg with hg | hg
    · exact h.around g hg
    · rw [List.mem_singleton.mp hg]
      exact hf
  · rw [Context.plug_concat, ← h.eq_plug]

mutual

theorem Phrase.plain_or_negatesPlace : ∀ p : Phrase Atom, p.Tidy → ∀ head : Head, head.Plain →
    p.Plain ∨ ∃ c head' k, (head.endWith p).NegatesPlace c head' k
  | .atom _, _, _, _ => .inl trivial
  | .negated (.atom (.name _)), _, _, _ => .inl trivial
  | .negated (.atom (.place k)), _, head, ahead => .inr ⟨[], head, k, by simp, ahead, rfl⟩
  | .negated (.negated _), ⟨_, twice⟩, _, _ => by cases twice
  | .negated (.group s), ⟨tidy, _⟩, head, ahead =>
    (Sentence.plain_or_negatesPlace s tidy.1).imp id
      (fun ⟨c, head', k, h⟩ => ⟨_, head', k, h.concat (f := .enclosed head true) ahead⟩)
  | .group s, tidy, head, ahead =>
    (Sentence.plain_or_negatesPlace s tidy.1).imp id
      (fun ⟨c, head', k, h⟩ => ⟨_, head', k, h.concat (f := .enclosed head false) ahead⟩)

/-- A tidy sentence without a negated placeholder is plain; else the leftmost one can be
shown. -/
theorem Sentence.plain_or_negatesPlace : ∀ s : Sentence Atom, s.Tidy →
    s.Plain ∨ ∃ c head k, s.NegatesPlace c head k
  | .single p, tidy => Phrase.plain_or_negatesPlace p tidy none trivial
  | .extend s op p, ⟨tidy, tidy'⟩ => by
    rcases Sentence.plain_or_negatesPlace s tidy with plain | ⟨c, head, k, h⟩
    · exact (Phrase.plain_or_negatesPlace p tidy' (some (s, op)) plain).imp (fun h => ⟨plain, h⟩) id
    · exact .inr ⟨_, head, k, h.concat (f := .followed op p) trivial⟩

end

theorem Sentence.NegatesPlace.find_eq {s : Sentence Atom} {c : Context} {head : Head} {k : Nat}
    (h : s.NegatesPlace c head k) :
    findNegatedPlace? s.fragments = some (c.before ++ head.fragments, k, c.behind) := by
  have skipped := (Context.skipped h.around).append (Head.skipped h.ahead)
  have hs : s.fragments = (c.before ++ head.fragments) ++ .negation :: .place k :: c.behind := by
    rw [h.eq_plug, Context.fragments_plug, Head.fragments_endWith]
    simp [Phrase.fragments, Atom.fragment]
  rw [hs, skipped]
  simp [findNegatedPlace?]

/-! ## Triples -/

/-- A side as a phrase. -/
def Side.phrase : Side → Phrase Atom
  | .name false w => .atom (.name w)
  | .name true w => .negated (.atom (.name w))
  | .place false k => .atom (.place k)
  | .place true k => .negated (.atom (.place k))

theorem Side.fragments_phrase (side : Side) : side.phrase.fragments = side.fragments := by
  rcases side with ⟨_ | _, w⟩ | ⟨_ | _, k⟩ <;> rfl

theorem Side.lone?_phrase (side : Side) : (Sentence.single side.phrase).lone? ≠ none := by
  rcases side with ⟨_ | _, w⟩ | ⟨_ | _, k⟩ <;> simp [phrase, Sentence.lone?]

/-- A head of one side at most. -/
def Head.Short : Head → Prop
  | none => True
  | some (s, _) => ∃ side : Side, s = .single side.phrase

/-- Before what is in the frame stands one side at most. -/
def Frame.Short : Frame → Prop
  | .followed _ _ => True
  | .enclosed head _ => head.Short

/-- The search for a triple goes past these fragments. -/
def Triple.Passed (fs : List Fragment) : Prop :=
  ∀ rest, Triple.find? (fs ++ rest) =
    (Triple.find? rest).map (fun t => { t with before := fs ++ t.before })

namespace Triple

theorem Passed.nil : Passed [] := by
  intro rest
  simp

theorem Passed.append {fs gs : List Fragment} (h : Passed fs) (h' : Passed gs) :
    Passed (fs ++ gs) := by
  intro rest
  rw [List.append_assoc, h, h', Option.map_map]
  simp [Function.comp_def]

/-- What cannot start a triple is passed. -/
theorem Passed.cons {f : Fragment} {fs : List Fragment} (h : Passed fs)
    (hread : ∀ rest, read? (f :: fs ++ rest) = none) : Passed (f :: fs) := by
  intro rest
  have here := hread rest
  rw [List.cons_append] at here ⊢
  rw [find?, here, h, Option.map_map]
  rfl

end Triple

theorem Frame.passed {f : Frame} (h : f.Short) : Triple.Passed f.before := by
  have opening : Triple.Passed [.opening] := .cons .nil (fun _ => rfl)
  have negation : Triple.Passed [.negation, .opening] := .cons opening (fun _ => rfl)
  rcases f with ⟨op, p⟩ | ⟨_ | ⟨s, op⟩, _ | _⟩
  · exact .nil
  · exact opening
  · exact negation
  · obtain ⟨side, rfl⟩ := h
    have operator : Triple.Passed [.operator op, .opening] := .cons opening (fun _ => rfl)
    rcases side with ⟨_ | _, w⟩ | ⟨_ | _, k⟩
    · exact .cons operator (fun _ => rfl)
    · exact .cons (.cons operator (fun _ => rfl)) (fun _ => rfl)
    · exact .cons operator (fun _ => rfl)
    · exact .cons (.cons operator (fun _ => rfl)) (fun _ => rfl)
  · obtain ⟨side, rfl⟩ := h
    have operator : Triple.Passed [.operator op, .negation, .opening] :=
      .cons negation (fun _ => rfl)
    rcases side with ⟨_ | _, w⟩ | ⟨_ | _, k⟩
    · exact .cons operator (fun _ => rfl)
    · exact .cons (.cons operator (fun _ => rfl)) (fun _ => rfl)
    · exact .cons operator (fun _ => rfl)
    · exact .cons (.cons operator (fun _ => rfl)) (fun _ => rfl)

theorem Context.passed {c : Context} (h : ∀ f ∈ c, f.Short) : Triple.Passed c.before := by
  induction c with
  | nil => exact .nil
  | cons f c ih =>
    rw [List.forall_mem_cons] at h
    exact (ih h.2).append (Frame.passed h.1)

/-- The leftmost triple is a sentence of two sides in a context. -/
structure Sentence.HasTriple (s : Sentence Atom) (c : Context) (left : Side) (op : Operator)
    (right : Side) : Prop where
  around : ∀ f ∈ c, f.Short
  plain : left.phrase.Plain ∧ right.phrase.Plain
  eq_plug : s = c.plug (.extend (.single left.phrase) op right.phrase)

theorem Sentence.HasTriple.concat {s : Sentence Atom} {c : Context} {left right : Side}
    {op : Operator} (h : s.HasTriple c left op right) {f : Frame} (hf : f.Short) :
    (f.plug s).HasTriple (c ++ [f]) left op right := by
  refine ⟨?_, h.plain, ?_⟩
  · intro g hg
    rcases List.mem_append.mp hg with hg | hg
    · exact h.around g hg
    · rw [List.mem_singleton.mp hg]
      exact hf
  · rw [Context.plug_concat, ← h.eq_plug]

mutual

theorem Phrase.side_or_triple : ∀ p : Phrase Atom, p.Tidy → p.Plain →
    (∃ side : Side, p = side.phrase) ∨ ∀ head : Head, head.Short →
      ∃ c left op right, (head.endWith p).HasTriple c left op right
  | .atom (.name w), _, _ => .inl ⟨.name false w, rfl⟩
  | .atom (.place k), _, _ => .inl ⟨.place false k, rfl⟩
  | .negated (.atom (.name w)), _, _ => .inl ⟨.name true w, rfl⟩
  | .negated (.atom (.place _)), _, plain => plain.elim
  | .negated (.negated _), ⟨_, twice⟩, _ => by cases twice
  | .negated (.group s), ⟨⟨tidy, hlone⟩, _⟩, plain => by
    rcases Sentence.side_or_triple s tidy plain with ⟨side, rfl⟩ | ⟨c, left, op, right, h⟩
    · exact absurd hlone side.lone?_phrase
    · exact .inr (fun head short =>
        ⟨_, left, op, right, h.concat (f := .enclosed head true) short⟩)
  | .group s, ⟨tidy, hlone⟩, plain => by
    rcases Sentence.side_or_triple s tidy plain with ⟨side, rfl⟩ | ⟨c, left, op, right, h⟩
    · exact absurd hlone side.lone?_phrase
    · exact .inr (fun head short =>
        ⟨_, left, op, right, h.concat (f := .enclosed head false) short⟩)

/-- A tidy plain sentence is one side or has a triple. -/
theorem Sentence.side_or_triple : ∀ s : Sentence Atom, s.Tidy → s.Plain →
    (∃ side : Side, s = .single side.phrase) ∨ ∃ c left op right, s.HasTriple c left op right
  | .single p, tidy, plain => by
    rcases Phrase.side_or_triple p tidy plain with ⟨side, rfl⟩ | h
    · exact .inl ⟨side, rfl⟩
    · exact .inr (h none trivial)
  | .extend s op p, ⟨tidy, tidy'⟩, ⟨plain, plain'⟩ => by
    rcases Sentence.side_or_triple s tidy plain with ⟨left, rfl⟩ | ⟨c, left, op', right, h⟩
    · rcases Phrase.side_or_triple p tidy' plain' with ⟨right, rfl⟩ | h
      · exact .inr ⟨[], left, op, right, by simp, ⟨plain, plain'⟩, rfl⟩
      · exact .inr (h (some (.single left.phrase, op)) ⟨left, rfl⟩)
    · exact .inr ⟨_, left, op', right, h.concat (f := .followed op p) trivial⟩

end

theorem Sentence.HasTriple.find_eq {s : Sentence Atom} {c : Context} {left right : Side}
    {op : Operator} (h : s.HasTriple c left op right) :
    Triple.find? s.fragments = some ⟨c.before, left, op, right, c.behind⟩ := by
  have hs : s.fragments =
      c.before ++ (left.fragments ++ .operator op :: (right.fragments ++ c.behind)) := by
    rw [h.eq_plug, Context.fragments_plug]
    simp [Sentence.fragments, Side.fragments_phrase]
  have hread : Triple.read? (left.fragments ++ .operator op :: (right.fragments ++ c.behind)) =
      some ⟨[], left, op, right, c.behind⟩ := by
    simp [Triple.read?, Side.read?_fragments]
  have hfind : Triple.find? (left.fragments ++ .operator op :: (right.fragments ++ c.behind)) =
      some ⟨[], left, op, right, c.behind⟩ := by
    rcases left with ⟨_ | _, w⟩ | ⟨_ | _, k⟩ <;>
      simp only [Side.fragments, List.cons_append, List.nil_append] at hread ⊢ <;>
      rw [Triple.find?, hread]
  rw [hs, Context.passed h.around, hfind]
  simp

/-! ## A place for a triple -/

/-- The sentence with a placeholder in the context. Parentheses around it are gone. -/
def Context.withPlace (k : Nat) : Context → Sentence Atom
  | .enclosed head negated :: c => plug c (head.endWith (.under negated (.atom (.place k))))
  | c => plug c (.single (.atom (.place k)))

theorem Triple.unwrap_enclosed (before behind : List Fragment) (left : Side) (op : Operator)
    (right : Side) : unwrap ⟨before ++ [.opening], left, op, right, .closing :: behind⟩ =
      ⟨before, left, op, right, behind⟩ := by
  simp [unwrap]

/-- What a reduction makes of a sentence whose triple gave way to a place. -/
theorem Context.fragments_withPlace (c : Context) (k : Nat) (left : Side) (op : Operator)
    (right : Side) : (c.withPlace k).fragments =
      (Triple.unwrap ⟨c.before, left, op, right, c.behind⟩).replaceBy k := by
  rcases c with _ | ⟨⟨op', p⟩ | ⟨head, negated⟩, c⟩
  · rfl
  · rw [withPlace, fragments_plug]
    · simp [Triple.unwrap, behind, Frame.behind, Triple.replaceBy, before, Sentence.fragments,
        Phrase.fragments, Atom.fragment]
    · intro head negated c' h
      cases h
  · obtain ⟨mark, hmark, hunder⟩ : ∃ mark : List Fragment,
        (Frame.enclosed head negated).before = head.fragments ++ mark ++ [.opening] ∧
          (Phrase.under negated (.atom (.place k))).fragments = mark ++ [.place k] := by
      cases negated with
      | false => exact ⟨[], by simp [Frame.before], rfl⟩
      | true => exact ⟨[.negation], by simp [Frame.before], rfl⟩
    rw [withPlace, fragments_plug, Head.fragments_endWith, hunder, before, hmark, behind,
      Frame.behind, ← List.append_assoc (before c) (_ ++ mark), List.singleton_append,
      Triple.unwrap_enclosed, Triple.replaceBy]
    simp

theorem Context.interpret_withPlace {W : Type} (A : Interpretation W) (name : String → W)
    (ι : Nat → W) (c : Context) (k : Nat) :
    (c.withPlace k).interpret A (Atom.interpret name ι) =
      (c.plug (.single (.atom (.place k)))).interpret A (Atom.interpret name ι) := by
  rcases c with _ | ⟨⟨op', p⟩ | ⟨head, negated⟩, c⟩
  · rfl
  · rfl
  · refine interpret_plug c (fun _ _ => rfl) (head.interpret_endWith (fun _ _ => rfl) ?_)
    exact Phrase.interpret_under negated rfl

theorem Context.isName_withPlace (c : Context) (k : Nat) : (c.withPlace k).isName = false := by
  rcases c with _ | ⟨⟨op', p⟩ | ⟨head, negated⟩, c⟩
  · rfl
  · exact isName_plug c rfl
  · exact isName_plug c (head.isName_endWith (Phrase.isName_under negated rfl))

theorem Context.signed_withPlace {pos neg : String → Prop} {c : Context}
    (h : ∀ f ∈ c, f.Signed pos neg) (k : Nat) : (c.withPlace k).Signed pos neg := by
  rcases c with _ | ⟨⟨op', p⟩ | ⟨head, negated⟩, c⟩
  · trivial
  · exact (signed_plug (.followed op' p :: c) rfl).mpr ⟨h, trivial⟩
  · rw [List.forall_mem_cons] at h
    have plain : (Phrase.under negated (.atom (.place k))).Signed pos neg :=
      (Phrase.signed_under negated rfl).mpr trivial
    refine (signed_plug c ?_).mpr ⟨h.2, (head.signed_endWith _).mpr ⟨h.1, plain⟩⟩
    exact head.isName_endWith (Phrase.isName_under negated rfl)

end SwitchingAlgebra
