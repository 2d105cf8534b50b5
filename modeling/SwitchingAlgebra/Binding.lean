-- What an input holds: a value that may be missing, and a flag that inverts it.

namespace SwitchingAlgebra

/-- The value bound to one input. `raw` is the value as it was assigned, absent
while the input is unresolved. -/
structure Binding where
  raw : Option Bool
  inverted : Bool
  deriving DecidableEq, Repr

namespace Binding

/-- An input that has no value yet. -/
def unresolved : Binding := ⟨none, false⟩

instance : Inhabited Binding := ⟨unresolved⟩

/-- A plain value. -/
def ofBool (b : Bool) : Binding := ⟨some b, false⟩

/-- The effective value: the raw one, inverted when the flag says so. An
unresolved input stays unresolved under inversion. -/
def value (b : Binding) : Option Bool := b.raw.map (· != b.inverted)

/-- Assigns a raw value. -/
def assign (b : Binding) (v : Bool) : Binding := { b with raw := some v }

/-- Flips the flag. -/
def toggle (b : Binding) : Binding := { b with inverted := !b.inverted }

/-- Gives the flag a value. -/
def setInverted (b : Binding) (flag : Bool) : Binding := { b with inverted := flag }

@[simp] theorem value_assign (b : Binding) (v : Bool) :
    (b.assign v).value = some (v != b.inverted) := rfl

@[simp] theorem toggle_toggle (b : Binding) : b.toggle.toggle = b := by
  cases b; simp [toggle]

theorem value_toggle (b : Binding) : b.toggle.value = b.value.map (!·) := by
  obtain ⟨_ | v, flag⟩ := b
  · rfl
  · cases v <;> cases flag <;> rfl

end Binding

end SwitchingAlgebra
