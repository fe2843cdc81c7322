import RigExpr.Number.Arithmetic

/-!
# Signals

What flows along the connections of a graph: a number, a truth value or a
vector of numbers. Arithmetic works on each component, and a single number goes
with every component of a vector.
-/

namespace RigExpr

/-- A value at run time. -/
inductive Signal
  | float (x : Float)
  | bool (b : Bool)
  | vector (xs : List Float)
  deriving Repr, DecidableEq

namespace Signal

instance : Inhabited Signal := ⟨float 0⟩

/-- The text of a signal. -/
def text : Signal → String
  | float x => Number.text x
  | bool true => "true"
  | bool false => "false"
  | vector xs => "[" ++ String.intercalate ", " (xs.map Number.text) ++ "]"

/-- Whether two signals are equal as numbers are: zeros of either sign are, and
    what is not a number is not equal to itself. -/
def same : Signal → Signal → Bool
  | float x, float y => x == y
  | bool a, bool b => a = b
  | vector xs, vector ys =>
    xs.length = ys.length && (List.zipWith (fun x y => x == y) xs ys).all id
  | _, _ => false

/-- A truth value as a number. -/
def ofBool (b : Bool) : Float := if b then 1 else 0

/-- The components of a signal. -/
def components : Signal → List Float
  | float x => [x]
  | bool b => [ofBool b]
  | vector xs => xs

/-- The first component, which an empty vector does not have. -/
def toFloat : Signal → Float
  | float x => x
  | bool b => ofBool b
  | vector xs => xs.head?.getD Number.nan

/-- Whether some component is not zero. -/
def toBool : Signal → Bool
  | bool b => b
  | float x => x != 0
  | vector xs => xs.any fun x => x != 0

/-- The function on each component. -/
def map (f : Float → Float) : Signal → Signal
  | vector xs => vector (xs.map f)
  | s => float (f s.toFloat)

/-- The function on the components of both signals. Vectors of different lengths
    have no common components. -/
def zipWith (f : Float → Float → Float) : Signal → Signal → Signal
  | vector xs, vector ys =>
    if xs.length = ys.length then vector (List.zipWith f xs ys)
    else vector (List.replicate (max xs.length ys.length) Number.nan)
  | vector xs, s => vector (xs.map fun x => f x s.toFloat)
  | s, vector ys => vector (ys.map fun y => f s.toFloat y)
  | s, t => float (f s.toFloat t.toFloat)

end Signal

end RigExpr
