/-!
# Rotate orders

The order in which an Euler rotation turns about its three axes, with the
keyword that names it in sources and the index that stands for it in graphs.
-/

namespace RigExpr

/-- The order in which the three axes are applied. -/
inductive RotateOrder
  | xyz | yzx | zxy | xzy | yxz | zyx
  deriving Repr, DecidableEq

namespace RotateOrder

/-- Every order, by index. -/
def all : List RotateOrder := [xyz, yzx, zxy, xzy, yxz, zyx]

/-- The keyword of an order. -/
def keyword : RotateOrder → String
  | xyz => "XYZ"
  | yzx => "YZX"
  | zxy => "ZXY"
  | xzy => "XZY"
  | yxz => "YXZ"
  | zyx => "ZYX"

/-- The order with this keyword. -/
def ofKeyword? (word : String) : Option RotateOrder := all.find? fun o => o.keyword = word

/-- The place of an order in `all`. -/
def index : RotateOrder → Nat
  | xyz => 0
  | yzx => 1
  | zxy => 2
  | xzy => 3
  | yxz => 4
  | zyx => 5

/-- The order at this index. -/
def ofIndex? (n : Nat) : Option RotateOrder := all[n]?

/-- The axes, numbered from zero, in the order in which they are applied. -/
def axes : RotateOrder → Nat × Nat × Nat
  | xyz => (0, 1, 2)
  | yzx => (1, 2, 0)
  | zxy => (2, 0, 1)
  | xzy => (0, 2, 1)
  | yxz => (1, 0, 2)
  | zyx => (2, 1, 0)

@[simp] theorem ofIndex?_index (o : RotateOrder) : ofIndex? o.index = some o := by
  cases o <;> rfl

@[simp] theorem ofKeyword?_keyword (o : RotateOrder) : ofKeyword? o.keyword = some o := by
  cases o <;> rfl

end RotateOrder

end RigExpr
