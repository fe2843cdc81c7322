import RigExpr.Text.Unprintable

/-!
# Quoted text

How messages show a character or a word of the input: between quotes, with a
backslash before the quote in use and before the backslash, the usual short
forms of the tabulator and the line ends, and the code of what cannot be
printed.
-/

namespace RigExpr.Text

/-- A character between the quotes `quote`. -/
def escape (quote : Char) (c : Char) : String :=
  if c = '\x00' then "\\0"
  else if c = '\t' then "\\t"
  else if c = '\n' then "\\n"
  else if c = '\r' then "\\r"
  else if c = '\\' ∨ c = quote then String.ofList ['\\', c]
  else if isUnprintable c then "\\u\x7b" ++ String.ofList (Nat.toDigits 16 c.toNat) ++ "\x7d"
  else String.singleton c

/-- A character in single quotes. -/
def quoteChar (c : Char) : String := "'" ++ escape '\x27' c ++ "'"

/-- A word in double quotes. -/
def quoteWord (s : String) : String :=
  "\"" ++ String.join (s.toList.map (escape '\x22')) ++ "\""

end RigExpr.Text
