import RigExpr.Graph.Signal
import RigExpr.Table

/-!
# Numbered inputs

A node with any number of operands reads them under the keys `in_0`, `in_1` and
so on. The order of the operands is that of the numbers, not that of the keys
as words.
-/

namespace RigExpr.Variadic

/-- What the keys of numbered inputs start with. -/
def stem : String := "in"

/-- The key of the operand at this index. -/
def key (index : Nat) : String := stem ++ "_" ++ toString index

/-- The value of decimal digits, if it is below `2^64`. -/
def digits? (ds : List Char) : Option Nat :=
  if ds.isEmpty ∨ !ds.all Char.isDigit then none
  else if Number.digitsValue ds < UInt64.size then some (Number.digitsValue ds)
  else none

/-- A number in decimal, perhaps with a plus sign, below `2^64`. -/
def number? : List Char → Option Nat
  | '+' :: ds => digits? ds
  | ds => digits? ds

/-- A key as what stands before its last underscore and the number after it, or
    as a whole if there is no such number. -/
def split (key : String) : String × Option Nat :=
  let reversed := key.toList.reverse
  match reversed.dropWhile (· ≠ '_') with
  | [] => (key, none)
  | _ :: front =>
    match number? (reversed.takeWhile (· ≠ '_')).reverse with
    | some n => (String.ofList front.reverse, some n)
    | none => (key, none)

/-- The order of keys: by what stands before the number, then by the number, and
    keys without a number last, as words. -/
def compareKeys (a b : String) : Ordering :=
  let (front, i) := split a
  let (front', j) := split b
  match compare front front' with
  | .eq =>
    match i, j with
    | some i, some j => compare i j
    | some _, none => .lt
    | none, some _ => .gt
    | none, none => compare a b
  | other => other

/-- Whether this is the key of a numbered input. -/
def isNumbered (key : String) : Bool :=
  match split key with
  | (front, some _) => front = stem
  | _ => false

/-- The signals of the numbered inputs, by number. -/
def collect (inputs : Table String Signal) : List Signal :=
  let numbered := inputs.entries.filter fun e => isNumbered e.1
  (numbered.mergeSort fun a b => compareKeys a.1 b.1 != .gt).map (·.2)

end RigExpr.Variadic
