-- The tokens of a formula text as it stands, blanks included. A text that passes the first look
-- has no blank inside a name or before a bar, so that blanks can only divide its doubled signs.
import Mathlib.Data.List.SplitBy
import SwitchingAlgebra.Proofs.Checking

namespace SwitchingAlgebra

namespace Text

/-! ## Tokens -/

/-- The characters that are no blanks, each with a note if blanks stand before it. -/
def spaced : Bool → List Char → List (Char × Bool)
  | _, [] => []
  | gap, c :: cs => if isBlank c then spaced true cs else (c, gap) :: spaced false cs

/-- A name goes on with this character, or has a bar over it. -/
def goesOn (c d : Char) : Bool := isNameChar c && (isNameChar d || isBarMark d)

/-- The two characters of a doubled sign. -/
def doubles (c d : Char) : Bool := c == d && (c == '&' || c == '|')

/-- The second character belongs to the token of the first one. In a `loose` reading blanks
between the two characters of a doubled sign do not count. -/
def joins (loose : Bool) (p q : Char × Bool) : Bool :=
  goesOn p.1 q.1 && !q.2 || doubles p.1 q.1 && (loose || !q.2)

/-- The tokens of a text: names, with a bar or without, signs and parentheses. Blanks divide them.
More than two of the signs that may be doubled stay together, as a token of no formula. -/
def tokens (loose : Bool) (text : String) : List (List Char) :=
  ((spaced false text.toList).splitBy (joins loose)).map (·.map Prod.fst)

/-- No blanks divide a doubled sign. -/
def Undivided (text : String) : Prop :=
  (spaced false text.toList).IsChain (fun p q => doubles p.1 q.1 → q.2 = false)

theorem map_spaced (gap : Bool) (cs : List Char) :
    (spaced gap cs).map Prod.fst = cs.filter (!isBlank ·) := by
  induction cs generalizing gap with
  | nil => rfl
  | cons c cs ih =>
    rw [spaced]
    split
    · rename_i blank
      rw [List.filter_cons_of_neg (by simp [blank])]
      exact ih true
    · rename_i blank
      rw [List.filter_cons_of_pos (by simp [blank]), List.map_cons, ih false]

/-- The tokens of a text hold what is no blank, in order. -/
theorem flatten_tokens (loose : Bool) (text : String) :
    (tokens loose text).flatten = text.toList.filter (!isBlank ·) := by
  rw [tokens, ← List.map_flatten, List.flatten_splitBy, map_spaced]

end Text

/-! ## Cutting a list -/

theorem isChain_both {α : Type} {r s : α → α → Prop} {l : List α} (first : l.IsChain r)
    (second : l.IsChain s) : l.IsChain (fun a b => r a b ∧ s a b) := by
  rw [List.isChain_iff_getElem] at first second ⊢
  exact fun i hi => ⟨first i hi, second i hi⟩

/-- Where two relations say the same of neighbours, they cut a list at the same places. -/
theorem map_splitBy {α β : Type} {f : α → β} {r : α → α → Bool} {s : β → β → Bool} {l : List α}
    (same : l.IsChain (fun a b => r a b = s (f a) (f b))) :
    (l.splitBy r).map (·.map f) = (l.map f).splitBy s := by
  have apart := List.isChain_getLast_head_splitBy r l
  rw [← List.flatten_splitBy r l, List.isChain_flatten (List.nil_notMem_splitBy r l)] at same
  symm
  rw [List.splitBy_eq_iff]
  refine ⟨by rw [← List.map_flatten, List.flatten_splitBy], ?_, ?_, ?_⟩
  · simp
  · intro _ mapped
    obtain ⟨part, hpart, rfl⟩ := List.mem_map.mp mapped
    rw [List.isChain_map]
    refine (isChain_both (same.1 part hpart) (List.isChain_of_mem_splitBy hpart)).imp ?_
    rintro a b ⟨eq, joined⟩
    rwa [← eq]
  · rw [List.isChain_map]
    refine (isChain_both same.2 apart).imp ?_
    rintro part next ⟨eq, ⟨hpart, hnext, parted⟩⟩
    refine ⟨by simpa using hpart, by simpa using hnext, ?_⟩
    rw [List.getLast_map, List.head_map, ← parted]
    exact (eq _ (List.getLast_mem_getLast? _) _ (List.head_mem_head? _)).symm

namespace Text

/-! ## Texts that pass the first look -/

/-- No blanks stand inside a name, or before a bar. -/
def Gapless (p q : Char × Bool) : Prop := goesOn p.1 q.1 → q.2 = false

end Text

namespace Validation

/-- No blanks stand before a character that goes on with a name. -/
theorem gap_of_goesOn {b c : Char} {gap : Bool} {position : Nat} {opened opened' : List Nat}
    (turn : lacksOperator b c gap = false)
    (opens : openAfter (some b) gap position c opened = .ok opened')
    (goes : Text.goesOn b c) : gap = false := by
  rw [Text.goesOn, Bool.and_eq_true, Bool.or_eq_true] at goes
  obtain ⟨hb, hc | bar⟩ := goes
  · simpa [lacksOperator, endsOperand, startsOperand, hb, hc] using turn
  · obtain ⟨-, -, opening, closing⟩ := isBarMark_apart bar
    cases gap with
    | false => rfl
    | true => simp [openAfter, opening, closing, bar] at opens

/-- What passes has no blanks inside a name, or before a bar. -/
theorem gapless_of_check {before : Option Char} {gap : Bool} {position : Nat} {opened : List Nat}
    {cs : List Char} (h : check before gap position opened cs = .ok ()) :
    (before.toList.map (·, false) ++ Text.spaced gap cs).IsChain Text.Gapless := by
  induction cs generalizing before gap position opened with
  | nil =>
    rw [Text.spaced, List.append_nil]
    cases before with
    | none => exact .nil
    | some b => exact .singleton _
  | cons c cs ih =>
    rw [check] at h
    rw [Text.spaced]
    split at h
    · rename_i blank
      rw [if_pos blank]
      exact ih h
    · rename_i blank
      rw [if_neg blank]
      split at h
      · cases h
      · rename_i lacks
        split at h
        · cases h
        · rename_i opened' opens
          have rest : ((c, gap) :: Text.spaced false cs).IsChain Text.Gapless := by
            have below : ((c, false) :: Text.spaced false cs).IsChain Text.Gapless := ih h
            rw [List.isChain_cons] at below ⊢
            exact below
          cases before with
          | none => exact rest
          | some b =>
            exact List.isChain_cons_cons.mpr ⟨gap_of_goesOn (Bool.not_eq_true _ ▸ lacks) opens, rest⟩

theorem gapless_of_validate {text : String} (h : validate text = .ok ()) :
    (Text.spaced false text.toList).IsChain Text.Gapless := by
  unfold validate at h
  split at h
  · cases h
  · exact gapless_of_check h

end Validation

namespace Text

/-- Where blanks are of no account, this character belongs to the token of the one before it. -/
def touches (c d : Char) : Bool := goesOn c d || doubles c d

variable {text : String}

/-- A text without blanks inside its names is cut as if it had no blanks at all, except that its
doubled signs may be divided. -/
theorem tokens_eq {loose : Bool} (gapless : (spaced false text.toList).IsChain Gapless)
    (whole : loose = false → Undivided text) :
    tokens loose text = (text.toList.filter (!isBlank ·)).splitBy touches := by
  have counted : (spaced false text.toList).IsChain
      (fun p q => doubles p.1 q.1 → (loose || !q.2) = true) := by
    cases loose with
    | true => exact gapless.imp (fun _ _ _ _ => rfl)
    | false => exact (whole rfl).imp (fun _ _ close double => by simp [close double])
  have same : (spaced false text.toList).IsChain
      (fun p q => joins loose p q = touches p.1 q.1) := by
    refine (isChain_both gapless counted).imp ?_
    rintro p q ⟨close, count⟩
    have first : (goesOn p.1 q.1 && !q.2) = goesOn p.1 q.1 :=
      Bool.and_eq_left_iff_imp.mpr (fun goes => by simp [close goes])
    have second : (doubles p.1 q.1 && (loose || !q.2)) = doubles p.1 q.1 :=
      Bool.and_eq_left_iff_imp.mpr count
    rw [joins, first, second, touches]
  rw [tokens, map_splitBy same, map_spaced]

end Text

end SwitchingAlgebra
