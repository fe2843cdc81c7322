import RigExpr.Json.Numeral

/-!
# JSON values

A JSON value with its numbers as written and its members in the order of the
text, repeated names included: whether a repetition matters is up to whoever
reads the value.

* `Json.compact` writes a value on one line with sorted, unrepeated names.
* `Json.pretty` writes a value over many lines, with its members as they are.
* `Json.normalize` puts the numbers of a value into the form in which their values
  are written.
-/

namespace RigExpr

/-- A JSON value. -/
inductive Json
  | null
  | bool (b : Bool)
  | number (n : Numeral)
  | string (s : String)
  /-- A string with one half of a surrogate pair, which denotes no text. -/
  | unpaired
  | array (items : List Json)
  | object (members : List (String × Json))

namespace Json

instance : Inhabited Json := ⟨null⟩

/-- The members of an object with this name. -/
def named (members : List (String × Json)) (name : String) : List Json :=
  (members.filter fun m => m.1 = name).map (·.2)

/-- A character inside a JSON string. -/
def escape (c : Char) : String :=
  if c = '\x22' then "\\\""
  else if c = '\\' then "\\\\"
  else if c = '\x08' then "\\b"
  else if c = '\t' then "\\t"
  else if c = '\n' then "\\n"
  else if c = '\x0c' then "\\f"
  else if c = '\r' then "\\r"
  else if c.toNat < 0x20 then
    let digits := Nat.toDigits 16 c.toNat
    "\\u" ++ String.ofList (List.replicate (4 - digits.length) '0' ++ digits)
  else String.singleton c

/-- A JSON string. -/
def quote (s : String) : String := "\"" ++ String.join (s.toList.map escape) ++ "\""

/-- Texts with a comma between them. -/
def commas (parts : List String) : String := String.intercalate "," parts

/-- The written members of an object: sorted by name, the last one of each name. -/
def arrange (members : List (String × String)) : List (String × String) :=
  let last := members.foldl (fun kept m => kept.filter (fun k => k.1 ≠ m.1) ++ [m]) []
  last.mergeSort fun a b => decide (a.1 ≤ b.1)

mutual

/-- The value on one line, without blanks. -/
def compact : Json → String
  | null => "null"
  | bool true => "true"
  | bool false => "false"
  | number n => n.text
  | string s => quote s
  | unpaired => quote ""
  | array items => "[" ++ commas (compactItems items) ++ "]"
  | object members =>
    let written := (arrange (compactMembers members)).map fun m => quote m.1 ++ ":" ++ m.2
    "\x7b" ++ commas written ++ "\x7d"

/-- The items of an array, each on one line. -/
def compactItems : List Json → List String
  | [] => []
  | j :: rest => compact j :: compactItems rest

/-- The members of an object, each value on one line. -/
def compactMembers : List (String × Json) → List (String × String)
  | [] => []
  | (name, j) :: rest => (name, compact j) :: compactMembers rest

end

/-- A new line, indented by two blanks for each level. -/
def newline (level : Nat) : String := "\n" ++ String.ofList (List.replicate (2 * level) ' ')

mutual

/-- The value at this level, with a line of its own for each item and each member. -/
def pretty (level : Nat) : Json → String
  | array items =>
    if items.isEmpty then "[]"
    else "[" ++ commas (prettyItems (level + 1) items) ++ newline level ++ "]"
  | object members =>
    if members.isEmpty then "\x7b\x7d"
    else "\x7b" ++ commas (prettyMembers (level + 1) members) ++ newline level ++ "\x7d"
  | j => compact j

/-- The items of an array, each on lines of its own. -/
def prettyItems (level : Nat) : List Json → List String
  | [] => []
  | j :: rest => (newline level ++ pretty level j) :: prettyItems level rest

/-- The members of an object, each on lines of its own. -/
def prettyMembers (level : Nat) : List (String × Json) → List String
  | [] => []
  | (name, j) :: rest =>
    (newline level ++ quote name ++ ": " ++ pretty level j) :: prettyMembers level rest

end

mutual

/-- The value with its numbers in the form in which their values are written. -/
def normalize : Json → Json
  | number n => number n.normalize
  | array items => array (normalizeItems items)
  | object members => object (normalizeMembers members)
  | j => j

/-- The items of an array with their numbers in that form. -/
def normalizeItems : List Json → List Json
  | [] => []
  | j :: rest => normalize j :: normalizeItems rest

/-- The members of an object with their numbers in that form. -/
def normalizeMembers : List (String × Json) → List (String × Json)
  | [] => []
  | (name, j) :: rest => (name, normalize j) :: normalizeMembers rest

end

end Json

end RigExpr
