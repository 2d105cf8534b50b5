-- The grammar of formulas. A sentence is read from left to right: no operator binds
-- tighter than another, and a negation belongs to the one phrase behind it.
import SwitchingAlgebra.Parsing.Fragment

namespace SwitchingAlgebra

/-! ## Sentences -/

mutual

/-- What an operator is applied to. -/
inductive Phrase (α : Type) where
  | atom (a : α)
  | negated (p : Phrase α)
  /-- A sentence in parentheses. -/
  | group (s : Sentence α)

/-- Phrases joined by operators, from left to right. -/
inductive Sentence (α : Type) where
  | single (p : Phrase α)
  /-- All that came before is the first operand. -/
  | extend (s : Sentence α) (op : Operator) (p : Phrase α)

end

variable {α β : Type}

/-! ## Values -/

mutual

/-- The value of a phrase. -/
def Phrase.value (v : α → Bool) : Phrase α → Bool
  | .atom a => v a
  | .negated p => !p.value v
  | .group s => s.value v

/-- The value of a sentence: operators associate to the left. -/
def Sentence.value (v : α → Bool) : Sentence α → Bool
  | .single p => p.value v
  | .extend s op p => op.apply (s.value v) (p.value v)

end

mutual

/-- How deep parentheses are nested. -/
def Phrase.nesting : Phrase α → Nat
  | .atom _ => 0
  | .negated p => p.nesting
  | .group s => s.nesting + 1

/-- How deep parentheses are nested in a sentence. -/
def Sentence.nesting : Sentence α → Nat
  | .single p => p.nesting
  | .extend s _ p => max s.nesting p.nesting

end

mutual

/-- Every atom of a phrase. -/
def Phrase.atoms : Phrase α → List α
  | .atom a => [a]
  | .negated p => p.atoms
  | .group s => s.atoms

/-- Every atom of a sentence. -/
def Sentence.atoms : Sentence α → List α
  | .single p => p.atoms
  | .extend s _ p => s.atoms ++ p.atoms

end

/-! ## Other atoms -/

mutual

/-- Puts other atoms in the places of the atoms. -/
def Phrase.map (f : α → β) : Phrase α → Phrase β
  | .atom a => .atom (f a)
  | .negated p => .negated (p.map f)
  | .group s => .group (s.map f)

/-- Puts other atoms in the places of the atoms. -/
def Sentence.map (f : α → β) : Sentence α → Sentence β
  | .single p => .single (p.map f)
  | .extend s op p => .extend (s.map f) op (p.map f)

end

mutual

theorem Phrase.nesting_map (f : α → β) : ∀ p : Phrase α, (p.map f).nesting = p.nesting
  | .atom _ => rfl
  | .negated p => Phrase.nesting_map f p
  | .group s => congrArg (· + 1) (Sentence.nesting_map f s)

theorem Sentence.nesting_map (f : α → β) : ∀ s : Sentence α, (s.map f).nesting = s.nesting
  | .single p => Phrase.nesting_map f p
  | .extend s _ p => by
    rw [Sentence.map, Sentence.nesting, Sentence.nesting, Sentence.nesting_map f s,
      Phrase.nesting_map f p]

end

mutual

theorem Phrase.atoms_map (f : α → β) : ∀ p : Phrase α, (p.map f).atoms = p.atoms.map f
  | .atom _ => rfl
  | .negated p => Phrase.atoms_map f p
  | .group s => Sentence.atoms_map f s

theorem Sentence.atoms_map (f : α → β) : ∀ s : Sentence α, (s.map f).atoms = s.atoms.map f
  | .single p => Phrase.atoms_map f p
  | .extend s _ p => by
    rw [Sentence.map, Sentence.atoms, Sentence.atoms, Sentence.atoms_map f s, Phrase.atoms_map f p,
      List.map_append]

end

/-! ## Fragments -/

/-- What a sentence is made of while it is read: names, and places of parts that were read
already. -/
inductive Atom where
  | name (word : String)
  | place (k : Nat)
  deriving DecidableEq, Repr

/-- The fragment of an atom. -/
def Atom.fragment : Atom → Fragment
  | .name w => .name w
  | .place k => .place k

mutual

/-- The fragments of a phrase, from left to right. -/
def Phrase.fragments : Phrase Atom → List Fragment
  | .atom a => [a.fragment]
  | .negated p => .negation :: p.fragments
  | .group s => .opening :: (s.fragments ++ [.closing])

/-- The fragments of a sentence, from left to right. -/
def Sentence.fragments : Sentence Atom → List Fragment
  | .single p => p.fragments
  | .extend s op p => s.fragments ++ .operator op :: p.fragments

end

end SwitchingAlgebra
