import RigExpr.CompileError
import RigExpr.Number.Arithmetic
import RigExpr.RotateOrder

/-!
# Values

The values that flow through an evaluation: literals, which the compiler knows,
and handles, which stand for something in the backend. A sequence has two to
four components, which may be sequences again.

The text of a value serves as its key: values with one text are one value to
the compiler.
-/

namespace RigExpr

/-- A value over the handles `H` of a backend. -/
inductive Value (H : Type)
  | scalar (x : Float)
  | bool (b : Bool)
  | order (o : RotateOrder)
  | pair (a b : Value H)
  | triple (a b c : Value H)
  | quad (a b c d : Value H)
  | handle (h : H)
  deriving Repr

namespace Value

variable {H : Type}

instance : Inhabited (Value H) := ⟨scalar 0⟩

/-- The sequence of the components, if there are two to four. -/
def ofItems? : List (Value H) → Option (Value H)
  | [a, b] => some (pair a b)
  | [a, b, c] => some (triple a b c)
  | [a, b, c, d] => some (quad a b c d)
  | _ => none

/-- The sequence of the components, or the error that there is none. -/
def ofItems (items : List (Value H)) : Except CompileError (Value H) :=
  match ofItems? items with
  | some v => .ok v
  | none => .error (.sequenceLength items.length)

/-- The components of a sequence. -/
def items? : Value H → Option (List (Value H))
  | pair a b => some [a, b]
  | triple a b c => some [a, b, c]
  | quad a b c d => some [a, b, c, d]
  | _ => none

/-- The number of a scalar. -/
def scalar? : Value H → Option Float
  | scalar x => some x
  | _ => none

/-- The truth value of a boolean. -/
def bool? : Value H → Option Bool
  | bool b => some b
  | _ => none

/-- The numbers of a sequence of scalars. -/
def scalars? (v : Value H) : Option (List Float) := do (← v.items?).mapM scalar?

/-- The sequence of the numbers. -/
def ofFloats (xs : List Float) : Except CompileError (Value H) := ofItems (xs.map scalar)

/-- The text of a value. -/
def text [ToString H] : Value H → String
  | scalar x => Number.text x
  | bool true => "TRUE"
  | bool false => "FALSE"
  | order o => o.keyword
  | pair a b => "[" ++ a.text ++ ", " ++ b.text ++ "]"
  | triple a b c => "[" ++ a.text ++ ", " ++ b.text ++ ", " ++ c.text ++ "]"
  | quad a b c d =>
    "[" ++ a.text ++ ", " ++ b.text ++ ", " ++ c.text ++ ", " ++ d.text ++ "]"
  | handle h => toString h

mutual

/-- The literal of a JSON value: a number, a truth value, an array of literals,
    or the keyword of a rotate order. -/
def ofJson : Json → Except CompileError (Value H)
  | .number n =>
    match n.toFloat? with
    | some x => .ok (scalar x)
    | none => .error (.invalidBinding (.number n))
  | .bool b => .ok (bool b)
  | .array items => do ofItems (← ofJsonItems items)
  | .string word =>
    match RotateOrder.ofKeyword? word with
    | some o => .ok (order o)
    | none => .error (.invalidBinding (.keyword word))
  | j => .error (.invalidBinding (.kind j))

/-- The literals of JSON values, from the first on. -/
def ofJsonItems : List Json → Except CompileError (List (Value H))
  | [] => .ok []
  | j :: rest => do
    let v ← ofJson j
    let more ← ofJsonItems rest
    .ok (v :: more)

end

@[simp] theorem items?_ofItems? {items : List (Value H)} {v : Value H}
    (h : ofItems? items = some v) : v.items? = some items := by
  unfold ofItems? at h
  split at h <;> simp_all [items?] <;> subst h <;> rfl

end Value

end RigExpr
