-- Reading a formula by reduction. The leftmost `operand operator operand` is read into
-- an expression, and a placeholder stands for it, until one placeholder is left. So
-- operators associate to the left, and none binds tighter than another.
import SwitchingAlgebra.Building
import SwitchingAlgebra.Parsing.Fragment

namespace SwitchingAlgebra

/-! ## Tidying fragments -/

namespace Fragment

/-- `(x)` becomes `x` for a name or a placeholder, negated or not. -/
def stripGroups : List Fragment → List Fragment
  | [] => []
  | .opening :: .name w :: .closing :: rest => .name w :: stripGroups rest
  | .opening :: .place k :: .closing :: rest => .place k :: stripGroups rest
  | .opening :: .negation :: .name w :: .closing :: rest =>
    .negation :: .name w :: stripGroups rest
  | .opening :: .negation :: .place k :: .closing :: rest =>
    .negation :: .place k :: stripGroups rest
  | f :: rest => f :: stripGroups rest

/-- Two negations in a row cancel out. -/
def cancelNegations : List Fragment → List Fragment
  | [] => []
  | .negation :: .negation :: rest => cancelNegations rest
  | f :: rest => f :: cancelNegations rest

/-- A shorter form without a group around a single operand or a double negation. -/
def tidy? (fs : List Fragment) : Option (List Fragment) :=
  let stripped := stripGroups fs
  let cancelled := cancelNegations fs
  if stripped.length < fs.length then some stripped
  else if cancelled.length < fs.length then some cancelled
  else none

theorem length_tidy? {fs fs' : List Fragment} (h : tidy? fs = some fs') :
    fs'.length < fs.length := by
  unfold tidy? at h
  simp only at h
  split at h
  · simp_all
  · split at h
    · simp_all
    · simp at h

/-- Tidies until nothing is left to tidy. -/
def settle (fs : List Fragment) : List Fragment :=
  match h : tidy? fs with
  | some fs' =>
    have := length_tidy? h
    settle fs'
  | none => fs
termination_by fs.length

/-- The names used in one polarity. `after` says that a negation stands in front. -/
def namesUsed (negated : Bool) : Bool → List Fragment → List String
  | _, [] => []
  | after, .name w :: rest =>
    if after == negated then w :: namesUsed negated false rest
    else namesUsed negated false rest
  | _, .negation :: rest => namesUsed negated true rest
  | _, _ :: rest => namesUsed negated false rest

/-- The names used both plain and negated. -/
def mixedNames (fs : List Fragment) : List String :=
  (namesUsed true false fs).filter (namesUsed false false fs).contains

end Fragment

/-! ## Operands and triples -/

/-- One side of an operator: a name or a placeholder, negated or not. -/
inductive Side where
  | name (negated : Bool) (word : String)
  | place (negated : Bool) (k : Nat)
  deriving DecidableEq, Repr

namespace Side

/-- Reads a side off the front. -/
def read? : List Fragment → Option (Side × List Fragment)
  | .negation :: .name w :: rest => some (.name true w, rest)
  | .negation :: .place k :: rest => some (.place true k, rest)
  | .name w :: rest => some (.name false w, rest)
  | .place k :: rest => some (.place false k, rest)
  | _ => none

theorem length_read? {fs rest : List Fragment} {s : Side} (h : read? fs = some (s, rest)) :
    rest.length < fs.length := by
  unfold read? at h
  split at h <;> simp at h <;> obtain ⟨_, rfl⟩ := h <;>
    simp only [List.length_cons] <;> omega

end Side

/-- An operator with its two sides, and the fragments before and behind it. -/
structure Triple where
  before : List Fragment
  left : Side
  op : Operator
  right : Side
  behind : List Fragment
  deriving DecidableEq, Repr

namespace Triple

/-- Reads a triple off the front. -/
def read? (fs : List Fragment) : Option Triple :=
  match Side.read? fs with
  | some (left, .operator op :: rest) =>
    match Side.read? rest with
    | some (right, behind) => some ⟨[], left, op, right, behind⟩
    | none => none
  | _ => none

/-- Finds the leftmost triple. -/
def find? : List Fragment → Option Triple
  | [] => none
  | f :: rest =>
    match read? (f :: rest) with
    | some t => some t
    | none => (find? rest).map (fun t => { t with before := f :: t.before })

/-- Takes away parentheses that enclose exactly the triple. -/
def unwrap (t : Triple) : Triple :=
  match t.before.getLast?, t.behind with
  | some .opening, .closing :: behind => { t with before := t.before.dropLast, behind }
  | _, _ => t

/-- The fragments with a placeholder for the triple. -/
def replaceBy (t : Triple) (k : Nat) : List Fragment := t.before ++ .place k :: t.behind

theorem length_read? {fs : List Fragment} {t : Triple} (h : read? fs = some t) (k : Nat) :
    (t.replaceBy k).length < fs.length := by
  unfold read? at h
  split at h
  · rename_i left op rest hl
    split at h
    · rename_i right behind hr
      have first := Side.length_read? hl
      have second := Side.length_read? hr
      simp only [Option.some.injEq] at h
      subst h
      simp only [replaceBy, List.nil_append, List.length_cons] at *
      omega
    · simp at h
  · simp at h

theorem length_find? {fs : List Fragment} {t : Triple} (h : find? fs = some t) (k : Nat) :
    (t.replaceBy k).length < fs.length := by
  induction fs generalizing t with
  | nil => simp [find?] at h
  | cons f rest ih =>
    simp only [find?] at h
    split at h
    · rename_i t' ht
      simp only [Option.some.injEq] at h
      subst h
      exact length_read? ht k
    · obtain ⟨t', ht, rfl⟩ := Option.map_eq_some_iff.mp h
      have := ih ht
      simp only [replaceBy, List.length_append, List.length_cons] at *
      omega

theorem length_unwrap (t : Triple) (k : Nat) :
    (t.unwrap.replaceBy k).length ≤ (t.replaceBy k).length := by
  unfold unwrap
  split
  · rename_i hb
    simp only [replaceBy, List.length_append, List.length_cons, List.length_dropLast, hb]
    omega
  · exact Nat.le_refl _

end Triple

/-- Finds the leftmost negated placeholder: what stands before it, its place, and what
stands behind it. -/
def Fragment.findNegatedPlace? :
    List Fragment → Option (List Fragment × Nat × List Fragment)
  | [] => none
  | .negation :: .place k :: rest => some ([], k, rest)
  | f :: rest =>
    (findNegatedPlace? rest).map (fun (before, k, behind) => (f :: before, k, behind))

theorem Fragment.length_findNegatedPlace? {fs before behind : List Fragment} {k : Nat}
    (h : findNegatedPlace? fs = some (before, k, behind)) :
    before.length + behind.length + 1 < fs.length := by
  induction fs generalizing before with
  | nil => simp [findNegatedPlace?] at h
  | cons f rest ih =>
    unfold findNegatedPlace? at h
    split at h
    · rename_i heq
      simp at heq
    · rename_i heq
      simp only [Option.some.injEq, Prod.mk.injEq, List.cons.injEq] at h heq
      obtain ⟨rfl, rfl, rfl⟩ := h
      obtain ⟨_, rfl⟩ := heq
      simp
    · rename_i heq
      simp only [List.cons.injEq] at heq
      obtain ⟨rfl, rfl⟩ := heq
      obtain ⟨⟨b, k', b'⟩, hb, heq⟩ := Option.map_eq_some_iff.mp h
      simp only [Prod.mk.injEq] at heq
      obtain ⟨rfl, rfl, rfl⟩ := heq
      have := ih hb
      simp only [List.length_cons]
      omega

/-! ## The state of a reduction -/

/-- The expressions behind the placeholders. A place is empty once its expression has
become part of another. -/
abbrev Places := List (Option Expression)

namespace Places

/-- Takes the expression out of a place. -/
def take? (ps : Places) (k : Nat) : Option (Expression × Places) :=
  match ps[k]? with
  | some (some e) => some (e, ps.set k none)
  | _ => none

end Places

/-- What is left of a formula, and the expressions behind its placeholders. -/
structure Reduction where
  fragments : List Fragment
  places : Places

/-- What one step of a reduction comes to. -/
inductive Reduction.Outcome where
  | next (r : Reduction)
  | done (e : Expression)
  | stuck
  | dangling (k : Nat)

namespace Reduction

/-- Puts an expression into a new place. -/
def store (fs : Nat → List Fragment) (ps : Places) (e : Expression) : Reduction :=
  ⟨fs ps.length, ps ++ [some e]⟩

/-- One side as an operand, the places after it, and the name that it inverts. A
negated name is an inverted input; a name that is used plain too is negated by an
expression of its own. -/
def operand (mixed : List String) (ps : Places) :
    Side → Except Nat (Operand × Places × List String)
  | .place negated k =>
    match ps.take? k with
    | some (e, ps') => .ok (.nested (if negated then e.negate else e), ps', [])
    | none => .error k
  | .name negated w =>
    if !negated then .ok (.input w, ps, [])
    else if mixed.contains w then
      .ok (.nested (Expression.empty.append .and [.input w]).negate, ps, [])
    else .ok (.input w, ps, [w])

/-- Appends a term and inverts inputs. -/
def extend (e : Expression) (op : Operator) (operands : List Operand)
    (inverted : List String) : Expression :=
  inverted.foldl (fun e n => e.setInverted n true) (e.append op operands)

/-- Reads a triple. A plain placeholder on the left is the result so far of a chain, and
takes the operator as its next term. -/
def readTriple (mixed : List String) (ps : Places) (t : Triple) :
    Except Nat (Expression × Places) :=
  match t.left with
  | .place false k =>
    match ps.take? k with
    | none => .error k
    | some (e, ps₁) =>
      match operand mixed ps₁ t.right with
      | .error k => .error k
      | .ok (y, ps₂, inverted) => .ok (extend e t.op [y] inverted, ps₂)
  | left =>
    match operand mixed ps left with
    | .error k => .error k
    | .ok (x, ps₁, inverted₁) =>
      match operand mixed ps₁ t.right with
      | .error k => .error k
      | .ok (y, ps₂, inverted₂) =>
        .ok (extend .empty t.op [x, y] (inverted₁ ++ inverted₂), ps₂)

/-- Negates the expression behind a negated placeholder, or reads the leftmost triple. -/
def reduce (mixed : List String) (r : Reduction) : Outcome :=
  match Fragment.findNegatedPlace? r.fragments with
  | some (before, k, behind) =>
    match r.places.take? k with
    | some (e, ps) => .next (store (fun k' => before ++ .place k' :: behind) ps e.negate)
    | none => .dangling k
  | none =>
    match Triple.find? r.fragments with
    | some t =>
      match readTriple mixed r.places t with
      | .ok (e, ps) => .next (store t.unwrap.replaceBy ps e)
      | .error k => .dangling k
    | none => .stuck

/-- One step: a single placeholder is the end, and tidying goes before reading. -/
def step (mixed : List String) (r : Reduction) : Outcome :=
  match r.fragments with
  | [.place k] =>
    match r.places.take? k with
    | some (e, _) => .done e
    | none => .dangling k
  | fs =>
    match Fragment.tidy? fs with
    | some fs' => .next { r with fragments := fs' }
    | none => r.reduce mixed

theorem length_reduce {mixed : List String} {r r' : Reduction} (h : r.reduce mixed = .next r') :
    r'.fragments.length < r.fragments.length := by
  unfold reduce at h
  split at h
  · rename_i before k behind hf
    split at h
    · simp only [Outcome.next.injEq] at h
      subst h
      have := Fragment.length_findNegatedPlace? hf
      simp only [store, List.length_append, List.length_cons]
      omega
    · simp at h
  · split at h
    · rename_i t ht
      split at h
      · simp only [Outcome.next.injEq] at h
        subst h
        exact Nat.lt_of_le_of_lt (t.length_unwrap _) (Triple.length_find? ht _)
      · simp at h
    · simp at h

theorem length_step {mixed : List String} {r r' : Reduction} (h : r.step mixed = .next r') :
    r'.fragments.length < r.fragments.length := by
  unfold step at h
  split at h
  · split at h <;> simp at h
  · split at h
    · rename_i fs' ht
      simp only [Outcome.next.injEq] at h
      subst h
      exact Fragment.length_tidy? ht
    · exact length_reduce h

/-- Takes steps until none is left to take. The error is a place that stands for
nothing, or the fragments to which nothing applies. -/
def run (mixed : List String) (r : Reduction) : Except (Nat ⊕ List Fragment) Expression :=
  match h : r.step mixed with
  | .next r' =>
    have := length_step h
    run mixed r'
  | .done e => .ok e
  | .stuck => .error (.inr r.fragments)
  | .dangling k => .error (.inl k)
termination_by r.fragments.length

end Reduction

end SwitchingAlgebra
