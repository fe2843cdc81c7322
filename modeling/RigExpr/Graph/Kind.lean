/-!
# Kinds of nodes

What a node of a graph does, with the names of its outputs and what is known in
advance about the signal it yields.
-/

namespace RigExpr

/-- What a node does. -/
inductive Kind
  /-- Holds a value. -/
  | constant
  /-- Reads a value of the host. -/
  | input
  /-- Hands a value to the host. -/
  | output
  | add | subtract | multiply | divide | power
  | and | or | xor | not
  | condition | clamp | lerp | remap
  | cos | sin | acos | asin | atan
  | noise | dnoise
  | component | join | normalize | dot | cross | length | distance | angle
  | euler | rotateOrder | quat | slerp | transform | matrix
  | int | bool | switch
  deriving Repr, DecidableEq

namespace Kind

/-- Every kind. -/
def all : List Kind :=
  [constant, input, output, add, subtract, multiply, divide, power, and, or, xor, not, condition,
   clamp, lerp, remap, cos, sin, acos, asin, atan, noise, dnoise, component, join, normalize, dot,
   cross, length, distance, angle, euler, rotateOrder, quat, slerp, transform, matrix, int, bool,
   switch]

/-- The words of the name of a kind. -/
def words : Kind → List String
  | constant => ["constant"]
  | input => ["input"]
  | output => ["output"]
  | add => ["add"]
  | subtract => ["subtract"]
  | multiply => ["multiply"]
  | divide => ["divide"]
  | power => ["power"]
  | and => ["and"]
  | or => ["or"]
  | xor => ["xor"]
  | not => ["not"]
  | condition => ["condition"]
  | clamp => ["clamp"]
  | lerp => ["lerp"]
  | remap => ["remap"]
  | cos => ["cos"]
  | sin => ["sin"]
  | acos => ["acos"]
  | asin => ["asin"]
  | atan => ["atan"]
  | noise => ["noise"]
  | dnoise => ["dnoise"]
  | component => ["component"]
  | join => ["join"]
  | normalize => ["normalize"]
  | dot => ["dot"]
  | cross => ["cross"]
  | length => ["length"]
  | distance => ["distance"]
  | angle => ["angle"]
  | euler => ["euler"]
  | rotateOrder => ["rotate", "order"]
  | quat => ["quat"]
  | slerp => ["slerp"]
  | transform => ["transform"]
  | matrix => ["matrix"]
  | int => ["int"]
  | bool => ["bool"]
  | switch => ["switch"]

/-- The name of a kind in JSON. -/
def name (k : Kind) : String := String.intercalate "_" k.words

/-- The name of a kind in the log. -/
def title (k : Kind) : String := String.join (k.words.map String.capitalize)

/-- What the ids of nodes of a kind start with. -/
def stem (k : Kind) : String := String.join k.words

/-- The kind with this name in JSON. -/
def ofName? (word : String) : Option Kind := all.find? fun k => k.name = word

/-- The output that every node has. -/
def mainOutlet : String := "out"

/-- The outputs besides the default one. -/
def extraOutlets : Kind → List String
  | euler => ["quat"]
  | transform => ["translate", "rotate", "scale"]
  | _ => []

/-- Whether a node of this kind has the output. -/
def hasOutlet (k : Kind) (outlet : String) : Bool := outlet = mainOutlet || outlet ∈ k.extraOutlets

/-- Whether the default output always carries a number or a truth value. -/
def yieldsScalar : Kind → Bool
  | and | or | xor | not | cos | sin | acos | asin | atan | noise | dnoise | component | dot
  | length | distance | angle | rotateOrder | int | bool => true
  | _ => false

/-- Whether the default output always carries a vector. -/
def yieldsVector : Kind → Bool
  | join | normalize | cross | euler | quat | slerp | transform | matrix => true
  | _ => false

end Kind

end RigExpr
