import RigExpr.Table
import RigExpr.Value

/-!
# Bindings

The values that identifiers stand for during one compilation, and what use the
expression makes of them. A value can be described by the name it is bound to:
of several names the one bound last, and its own text if there is none.

* `Bindings.register` binds names, `Bindings.resolve` looks one up.
* `Bindings.describe` names a value.
* `Bindings.report` tells which names were used, unknown and unused.
-/

namespace RigExpr

/-- What use an expression makes of its bindings. -/
structure Report where
  /-- The identifiers that are bound, in the order of their first use. -/
  connected : List String
  /-- The identifiers that are not bound, in the order of their first use. -/
  invalid : List String
  /-- The bound names that are not used, in the order of binding. -/
  unused : List String
  deriving Repr, DecidableEq

/-- Whether every identifier is bound and every bound name is used. -/
def Report.isClean (r : Report) : Bool := r.invalid.isEmpty && r.unused.isEmpty

/-- The bindings of a compilation. -/
structure Bindings (H : Type) where
  /-- The value of each name. -/
  values : Table String (Value H) := {}
  /-- The name that describes the value with this text. -/
  names : Table String String := {}
  /-- The identifiers found bound so far. -/
  connected : List String := []
  /-- The identifiers found unbound so far. -/
  invalid : List String := []

namespace Bindings

variable {H : Type}

/-- No bindings. -/
def empty : Bindings H := {}

/-- The number of names. -/
def size (b : Bindings H) : Nat := b.values.size

/-- The list with `name` at the end, unless it is in there. -/
def note (name : String) (seen : List String) : List String :=
  if name ∈ seen then seen else seen ++ [name]

/-- The value of a name, which is connected if there is one. -/
def resolve (b : Bindings H) (name : String) : Option (Value H) × Bindings H :=
  match b.values.get? name with
  | some v => (some v, { b with connected := note name b.connected })
  | none => (none, b)

/-- Note that a name is not bound. -/
def markInvalid (b : Bindings H) (name : String) : Bindings H :=
  { b with invalid := note name b.invalid }

/-- The use made of the bindings so far. -/
def report (b : Bindings H) : Report :=
  { connected := b.connected
    invalid := b.invalid
    unused := b.values.keys.filter fun name => name ∉ b.connected ∧ name ∉ b.invalid }

variable [ToString H]

/-- The last other name whose value has the text `key`. -/
def other? (values : Table String (Value H)) (key name : String) : Option String :=
  (values.entries.reverse.find? fun e => e.1 ≠ name ∧ e.2.text = key).map (·.1)

/-- The descriptions once `name` no longer has a value with the text `key`: if it
    was the description, another name with such a value takes its place. -/
def release (values : Table String (Value H)) (names : Table String String)
    (key name : String) : Table String String :=
  if names.get? key = some name then
    match other? values key name with
    | some next => names.insert key next
    | none => names.erase key
  else names

/-- Bind a name, which describes the value from now on. -/
def bind (b : Bindings H) (name : String) (v : Value H) : Bindings H :=
  let values := b.values.insert name v
  let names :=
    match b.values.get? name with
    | some old => release values b.names old.text name
    | none => b.names
  { b with values, names := names.insert v.text name }

/-- Bind names in turn. -/
def register (b : Bindings H) (pairs : List (String × Value H)) : Bindings H :=
  pairs.foldl (fun b p => b.bind p.1 p.2) b

/-- The name of a value, or its text if it has none. -/
def describe (b : Bindings H) (v : Value H) : String :=
  (b.names.get? v.text).getD v.text

end Bindings

end RigExpr
