import RigExpr.Json.Reader

/-!
# Records in JSON

A record with named fields is written as an object, in which other names do not
matter and none of the fields may be repeated, or as an array of the fields in
their order. An enumeration is written as a word, or as an object with that
word as its one name and null as its value.
-/

namespace RigExpr.Json

/-- The fields of a record, those not written being none. -/
structure Fields where
  values : List (Option Json)

/-- The value of a field that is not repeated. -/
def unrepeated? : List Json → Option (Option Json)
  | [] => some none
  | [j] => some (some j)
  | _ => none

/-- The fields with the given names. -/
def record? (names : List String) : Json → Option Fields
  | object members => do
    return ⟨← names.mapM fun name => unrepeated? (named members name)⟩
  | array items =>
    if items.length ≤ names.length then
      some ⟨items.map some ++ List.replicate (names.length - items.length) none⟩
    else none
  | _ => none

namespace Fields

variable {α : Type}

/-- The field at this place, which has to be written. -/
def required (f : Fields) (i : Nat) (decode : Json → Option α) : Option α :=
  match f.values[i]? with
  | some (some j) => decode j
  | _ => none

/-- The field at this place, if it is written; then it has to be valid. -/
def optional (f : Fields) (i : Nat) (decode : Json → Option α) : Option (Option α) :=
  match f.values[i]? with
  | some (some j) => (decode j).map some
  | _ => some none

/-- The field at this place, where null means the same as not written. -/
def nullable (f : Fields) (i : Nat) (decode : Json → Option α) : Option (Option α) :=
  match f.values[i]? with
  | some (some null) => some none
  | some (some j) => (decode j).map some
  | _ => some none

end Fields

/-- A natural number below `2^64`. -/
def toNat? : Json → Option Nat
  | number n => n.toNat?
  | _ => none

/-- A number. -/
def toFloat? : Json → Option Float
  | number n => n.toFloat?
  | _ => none

/-- A string. -/
def toText? : Json → Option String
  | string s => some s
  | _ => none

/-- The word of an enumeration. -/
def toWord? : Json → Option String
  | string s => some s
  | object [(word, null)] => some word
  | _ => none

/-- The items of an array. -/
def toItems? : Json → Option (List Json)
  | array items => some items
  | _ => none

end RigExpr.Json
