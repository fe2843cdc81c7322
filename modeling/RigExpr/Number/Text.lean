import RigExpr.Number.Decimal

/-!
# Numbers as text

The text of a number has the fewest digits that read back and never an
exponent, and a tie between two such texts goes up: `0.1`,
`1000000000000000000000`, `0.0000001`, `-0`. It names values in messages, in
signatures and in keys, so two numbers with one text are one number to the
compiler.

* `Number.text` writes a number, and `Number.read?` reads one.
-/

namespace RigExpr.Number

/-- Not a number. -/
def nan : Float := Float.ofBits 0x7ff8000000000000

/-- The infinity of the given sign. -/
def infinity (negative : Bool) : Float :=
  Float.ofBits (if negative then 0xfff0000000000000 else 0x7ff0000000000000)

/-- `n` zeros. -/
def zeros (n : Nat) : String := String.ofList (List.replicate n '0')

/-- A sign in front of a text. -/
def signed (negative : Bool) (s : String) : String := if negative then "-" ++ s else s

/-- The number `digits · 10^exponent` without an exponent. -/
def positional (d : Decimal) : String :=
  let ds := (toString d.digits).toList
  if 0 ≤ d.exponent then String.ofList ds ++ zeros d.exponent.toNat
  else
    let places := (-d.exponent).toNat
    if places < ds.length then
      String.ofList (ds.take (ds.length - places)) ++ "." ++
        String.ofList (ds.drop (ds.length - places))
    else "0." ++ zeros (places - ds.length) ++ String.ofList ds

/-- The text of a number. -/
def text (x : Float) : String :=
  match Binary64.ofFloat x with
  | .nan => "NaN"
  | .infinite negative => signed negative "inf"
  | .finite negative 0 _ => signed negative "0"
  | .finite negative m q => signed negative (positional (Decimal.shortest .up m q))

/-- The value of a list of decimal digits. -/
def digitsValue (ds : List Char) : Nat :=
  ds.foldl (fun n c => 10 * n + (c.toNat - '0'.toNat)) 0

/-- The double nearest to `± digits · 10^exponent`. Beyond the range of doubles
    the answer is an infinity or a zero, and no power of ten is computed. -/
def ofDecimal (negative : Bool) (digits : Nat) (exponent : Int) : Float :=
  let size : Int := Nat.log2 digits * 30103 / 100000 + exponent
  if digits = 0 ∨ size < -400 then Binary64.round negative 0 1
  else if 400 < size then infinity negative
  else if 0 ≤ exponent then Binary64.round negative (digits * Nat.pow 10 exponent.toNat) 1
  else Binary64.round negative digits (Nat.pow 10 (-exponent).toNat)

/-- The exponent part of a numeral: nothing, or `e`, a sign if any, and digits. -/
def readExponent? : List Char → Option Int
  | [] => some 0
  | c :: rest =>
    if c = 'e' ∨ c = 'E' then
      let (negative, ds) :=
        match rest with
        | '+' :: ds => (false, ds)
        | '-' :: ds => (true, ds)
        | ds => (false, ds)
      if ds.isEmpty ∨ !ds.all Char.isDigit then none
      else some (if negative then -digitsValue ds else digitsValue ds)
    else none

/-- An unsigned numeral: digits with a point among or beside them, at least one
    digit, and an exponent if any. -/
def readNumeral? (negative : Bool) (cs : List Char) : Option Float :=
  let whole := cs.takeWhile Char.isDigit
  let afterWhole := cs.dropWhile Char.isDigit
  let (fraction, rest) :=
    match afterWhole with
    | '.' :: ds => (ds.takeWhile Char.isDigit, ds.dropWhile Char.isDigit)
    | ds => ([], ds)
  if whole.isEmpty ∧ fraction.isEmpty then none
  else
    (readExponent? rest).map fun e =>
      ofDecimal negative (digitsValue (whole ++ fraction)) (e - fraction.length)

/-- An unsigned number: `inf`, `infinity` or `nan` in any case, or a numeral. -/
def readUnsigned? (negative : Bool) (cs : List Char) : Option Float :=
  let word := String.ofList (cs.map Char.toLower)
  if word = "inf" ∨ word = "infinity" then some (infinity negative)
  else if word = "nan" then some nan
  else readNumeral? negative cs

/-- The number a text stands for, to the nearest double. -/
def read? (s : String) : Option Float :=
  match s.toList with
  | '-' :: cs => readUnsigned? true cs
  | '+' :: cs => readUnsigned? false cs
  | cs => readUnsigned? false cs

end RigExpr.Number
