-- What may stand next to what among the fragments of a text that passes the first look, be it a
-- formula or not. A name follows a placeholder only behind a character of its own, and this
-- stays so whatever a reduction rewrites.
import SwitchingAlgebra.Proofs.Scanning

namespace SwitchingAlgebra

open Fragment

/-! ## What may come next -/

/-- What stands in front, as far as it decides what may come next. -/
inductive Spot where
  /-- Nothing, a sign, or a parenthesis that opens. -/
  | fresh
  /-- A name or a placeholder. -/
  | ended
  /-- A parenthesis that closes. -/
  | closed
  /-- A character that is left over. -/
  | stray
  /-- The negation of a barred name that stands right behind another operand. -/
  | barred
  deriving DecidableEq, Repr

/-- The fragments may stand here, each behind the one before it. -/
def Stands : Spot → List Fragment → Prop
  | _, [] => True
  | s, .name _ :: fs => (s ≠ .ended ∧ s ≠ .closed) ∧ Stands .ended fs
  | s, .place _ :: fs => s ≠ .closed ∧ Stands .ended fs
  | s, .negation :: fs => s = .fresh ∧ Stands .fresh fs ∨
      (s = .ended ∨ s = .stray) ∧ Stands .barred fs
  | s, .operator _ :: fs => s ≠ .barred ∧ Stands .fresh fs
  | s, .opening :: fs => s = .fresh ∧ Stands .fresh fs
  | s, .closing :: fs => s ≠ .barred ∧ Stands .closed fs
  | s, .stray _ :: fs => (s ≠ .closed ∧ s ≠ .barred) ∧ Stands .stray fs

namespace Stands

variable {s : Spot} {fs gs : List Fragment}

theorem of_closed (h : Stands .closed fs) : Stands .ended fs := by
  cases fs with
  | nil => trivial
  | cons f fs => cases f <;> simp_all [Stands]

theorem of_ended (h : Stands .ended fs) : Stands .stray fs := by
  cases fs with
  | nil => trivial
  | cons f fs => cases f <;> simp_all [Stands]

/-- An operand does not stand behind a parenthesis that closes, and ends where it ends. -/
theorem of_side {side : Side} (h : Stands s (side.fragments ++ fs)) :
    s ≠ .closed ∧ Stands .ended fs := by
  rcases side with ⟨_ | _, w⟩ | ⟨_ | _, k⟩
  · exact ⟨h.1.2, h.2⟩
  · rcases h with ⟨rfl, h⟩ | ⟨rfl | rfl, h⟩ <;> exact ⟨by decide, h.2⟩
  · exact h
  · rcases h with ⟨rfl, h⟩ | ⟨rfl | rfl, h⟩ <;> exact ⟨by decide, h.2⟩

theorem side (side : Side) (h : Stands .ended fs) : Stands .fresh (side.fragments ++ fs) := by
  rcases side with ⟨_ | _, w⟩ | ⟨_ | _, k⟩
  · exact ⟨by decide, h⟩
  · exact .inl ⟨rfl, by decide, h⟩
  · exact ⟨by decide, h⟩
  · exact .inl ⟨rfl, by decide, h⟩

theorem of_triple {left right : Side} {op : Operator}
    (h : Stands s (left.fragments ++ .operator op :: (right.fragments ++ fs))) :
    s ≠ .closed ∧ Stands .ended fs := by
  obtain ⟨hs, -, h⟩ := of_side h
  exact ⟨hs, (of_side h).2⟩

theorem tail {f : Fragment} (h : Stands s (f :: fs)) : ∃ s', Stands s' fs := by
  cases f with
  | negation => exact h.elim (fun h => ⟨_, h.2⟩) (fun h => ⟨_, h.2⟩)
  | _ => exact ⟨_, h.2⟩

theorem cons_imp {f : Fragment} (ih : ∀ {s : Spot}, Stands s fs → Stands s gs)
    (h : Stands s (f :: fs)) : Stands s (f :: gs) := by
  cases f with
  | name w => exact h.imp_right ih
  | place k => exact h.imp_right ih
  | negation => exact h.imp (And.imp_right ih) (And.imp_right ih)
  | operator op => exact h.imp_right ih
  | opening => exact h.imp_right ih
  | closing => exact h.imp_right ih
  | stray c => exact h.imp_right ih

end Stands

/-- What is rewritten stands where it stood. -/
theorem Fragment.Shrinks.stands {fs gs : List Fragment} (h : Shrinks fs gs) {s : Spot}
    (hs : Stands s fs) : Stands s gs := by
  induction h generalizing s with
  | nil => trivial
  | cons f _ ih => exact hs.cons_imp ih
  | group side _ ih =>
    obtain ⟨rfl, inside⟩ := hs
    obtain ⟨-, -, behind⟩ := inside.of_side
    exact .side side (ih behind).of_closed
  | cancel _ ih =>
    -- no second negation stands behind that of a barred name
    rcases hs with ⟨rfl, ⟨-, behind⟩ | ⟨hs, -⟩⟩ | ⟨-, ⟨hs, -⟩ | ⟨hs, -⟩⟩
    · exact ih behind
    · rcases hs with hs | hs <;> cases hs
    · cases hs
    · rcases hs with hs | hs <;> cases hs
  | negated k k' _ ih =>
    obtain ⟨hs, behind⟩ := @Stands.of_side _ _ (.place true k) hs
    exact ⟨hs, ih behind⟩
  | triple left op right k _ ih =>
    obtain ⟨hs, behind⟩ := hs.of_triple
    exact ⟨hs, ih behind⟩
  | grouped left op right k _ ih =>
    obtain ⟨rfl, inside⟩ := hs
    obtain ⟨-, -, behind⟩ := inside.of_triple
    exact ⟨by decide, (ih behind).of_closed⟩

/-! ## What stands in a text -/

namespace Validation

/-- Where the fragments stand that a text goes on with behind this character. -/
def spotAfter (before : Option Char) : Spot :=
  if (before.map Text.isNameChar).getD false then .stray
  else if ended before then .closed
  else .fresh

variable {before : Option Char} {opened : Nat} {c : Char} {cs : List Char}

/-- Where an operand begins, an operand came last only if it is a name that goes on. -/
theorem Passes.spotAfter_of_starts (h : Passes before opened (c :: cs))
    (starts : startsOperand c = true) :
    spotAfter before = .fresh ∨ spotAfter before = .stray ∧ Text.isNameChar c = true := by
  cases hended : ended before with
  | false =>
    refine .inl ?_
    cases before with
    | none => rfl
    | some b =>
      have bare : Text.isNameChar b = false := by
        have apart : endsOperand b = false := hended
        simp only [endsOperand, Bool.or_eq_false_iff] at apart
        exact apart.1.1
      simp [spotAfter, hended, bare]
  | true =>
    obtain ⟨name, b, rfl, hb⟩ := h.1.turn starts hended
    exact .inr ⟨by simp [spotAfter, hb], name⟩

theorem spotAfter_name (hc : Text.isNameChar c = true) : spotAfter (some c) = .stray := by
  simp [spotAfter, hc]

theorem spotAfter_bar (hc : Text.isBarMark c = true) : spotAfter (some c) = .closed := by
  simp [spotAfter, ended, endsOperand, (isBarMark_apart hc).2.1, hc]

theorem spotAfter_sign {f : Fragment} (hc : c ∈ f.signs) :
    spotAfter (some c) = if f.ends then .closed else .fresh := by
  have sign := signOf_of_mem hc
  have hended : ended (some c) = f.ends := endsOperand_sign sign
  simp [spotAfter, hended, sign.name]

theorem spotAfter_ne_barred (before : Option Char) : spotAfter before ≠ .barred := by
  unfold spotAfter
  split
  · decide
  · split <;> decide

end Validation

open Validation

/-- A word character in front begins a name, or goes on with one. -/
theorem Stands.consWord {s : Spot} (hs : s = .fresh ∨ s = .stray) (c : Char) {fs : List Fragment}
    (h : Stands .stray fs) : Stands s (Fragment.consWord c fs) := by
  have turn : s ≠ .ended ∧ s ≠ .closed := by
    rcases hs with rfl | rfl <;> decide
  cases fs with
  | nil => exact ⟨turn, trivial⟩
  | cons f fs =>
    cases f with
    | name w => exact ⟨turn, h.2⟩
    | place k => exact ⟨turn, by decide, h.2⟩
    | negation =>
      rcases h with ⟨hs, -⟩ | ⟨-, h⟩
      · cases hs
      · exact ⟨turn, .inr ⟨.inl rfl, h⟩⟩
    | operator op => exact ⟨turn, by decide, h.2⟩
    | opening => cases h.1
    | closing => exact ⟨turn, by decide, h.2⟩
    | stray d => exact ⟨turn, by decide, h.2⟩

section

variable {before : Option Char} {opened : Nat} {c : Char} {cs : List Char}
  (passes : Passes before opened (c :: cs))
  (ih : ∀ {before : Option Char} {opened : Nat} {ds : List Char}, ds.length ≤ cs.length →
    Passes before opened ds → Stands (spotAfter before) (fragmentsOf ds))
include passes ih

/-- A bar comes first that goes over no word character. -/
theorem stands_bar (bar : Text.isBarMark c = true) :
    Stands (spotAfter before) (fragmentsOf (c :: cs)) := by
  obtain ⟨b, rfl, name⟩ := passes.1.bar bar
  have word : Text.isWordChar c = true := by
    simp only [Text.isBarMark, Bool.or_eq_true, beq_iff_eq] at bar
    rcases bar with rfl | rfl <;> decide
  have below := ih (Nat.le_refl _) passes.2
  rw [spotAfter_bar bar] at below
  rw [spotAfter_name name, fragmentsOf_word word (passes.2.unmarked (isBarMark_apart bar).2.1)]
  exact below.of_closed.of_ended.consWord (.inr rfl) c

/-- A name comes first, with a bar over it or without, or a character that makes no word. -/
theorem stands_name (name : Text.isNameChar c = true) :
    Stands (spotAfter before) (fragmentsOf (c :: cs)) := by
  have spot := (passes.spotAfter_of_starts (by simp [startsOperand, name])).imp_right And.left
  cases word : Text.isWordChar c with
  | false =>
    have below := ih (Nat.le_refl _) passes.2
    rw [spotAfter_name name] at below
    rw [fragmentsOf_stray word name]
    exact ⟨by rcases spot with spot | spot <;> simp [spot], below⟩
  | true =>
    by_cases hmark : ∃ mark ∈ cs.head?, Text.isBarMark mark = true
    · obtain ⟨mark, hhead, hmark⟩ := hmark
      obtain ⟨ds, rfl⟩ := List.head?_eq_some_iff.mp hhead
      have wordless := passes.2.2.wordless (isBarMark_apart hmark).2.1
        (by simp [endsOperand, hmark])
      have below := ih (Nat.le_succ _) passes.2.2
      rw [spotAfter_bar hmark] at below
      rw [fragmentsOf_barred (wordLike_of_name word name) hmark wordless]
      rcases spot with spot | spot <;> rw [spot]
      · exact .inl ⟨rfl, by decide, below.of_closed⟩
      · exact .inr ⟨.inr rfl, by decide, below.of_closed⟩
    · have unmarked : Unmarked cs := by
        intro d hd
        rw [← Bool.not_eq_true]
        exact fun bar => hmark ⟨d, hd, bar⟩
      have below := ih (Nat.le_refl _) passes.2
      rw [spotAfter_name name] at below
      rw [fragmentsOf_word word unmarked]
      exact below.consWord spot c

/-- A sign comes first, by itself or doubled. -/
theorem stands_sign {f : Fragment} (hc : c ∈ f.signs) :
    Stands (spotAfter before) (fragmentsOf (c :: cs)) := by
  have sign := signOf_of_mem hc
  -- behind a sign stands what may stand there, in front of it whatever may be in front
  have stands : ∀ {fs : List Fragment}, Stands (if f.ends then .closed else .fresh) fs →
      Stands (spotAfter before) (f :: fs) := by
    intro fs behind
    have begins : f.starts = true → spotAfter before = .fresh := by
      intro starts
      rcases passes.spotAfter_of_starts (startsOperand_sign sign ▸ starts) with spot | ⟨-, name⟩
      · exact spot
      · rw [sign.name] at name
        cases name
    cases f with
    | name w => cases hc
    | place k => cases hc
    | stray d => cases hc
    | negation => exact .inl ⟨begins rfl, behind⟩
    | operator op => exact ⟨spotAfter_ne_barred before, behind⟩
    | opening => exact ⟨begins rfl, behind⟩
    | closing => exact ⟨spotAfter_ne_barred before, behind⟩
  rcases fragmentsOf_sign_cases hc passes.2 with single | ⟨op, ds, rfl, rfl, -, doubled⟩
  · rw [single]
    exact stands (spotAfter_sign hc ▸ ih (Nat.le_refl _) passes.2)
  · rw [doubled]
    exact stands (spotAfter_sign hc ▸ ih (Nat.le_succ _) passes.2.2)

end

/-- The fragments of a text that passes stand where they may. -/
theorem Validation.Passes.stands {before : Option Char} {opened : Nat} {cs : List Char}
    (h : Passes before opened cs) : Stands (spotAfter before) (fragmentsOf cs) := by
  induction hn : cs.length using Nat.strongRecOn generalizing before opened cs with
  | ind n ih =>
    cases cs with
    | nil => trivial
    | cons c cs =>
      have below : ∀ {before : Option Char} {opened : Nat} {ds : List Char},
          ds.length ≤ cs.length → Passes before opened ds →
            Stands (spotAfter before) (fragmentsOf ds) :=
        fun short h => ih _ (hn ▸ Nat.lt_succ_of_le short) h rfl
      rcases h.1.known with bar | name | ⟨f, hc⟩
      · exact stands_bar h below bar
      · exact stands_name h below name
      · exact stands_sign h below hc

theorem stands_ofText {text : String} (h : validate text = .ok ()) :
    Stands .fresh (ofText text) :=
  (passes_of_validate h).stands

end SwitchingAlgebra
