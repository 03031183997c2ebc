import TreeWalk.RuntimeError
import TreeWalk.Value

/-!
# Operators on values
-/

namespace TreeWalk

namespace UnaryOp

def apply (op : UnaryOp) (v : Value) (span : Span) : Except RuntimeError Value :=
  match op, v with
  | .neg, .number x => .ok (.number x.neg)
  | .not, .bool b => .ok (.bool !b)
  | .neg, other => .error (.numberOperand .neg other.typeName span)
  | .not, other => .error (.booleanOperand other.typeName span)

end UnaryOp

namespace BinaryOp

/-- The value of a logical operator that its left operand alone decides. -/
def decided? (op : BinaryOp) (left : Value) : Option Value :=
  match op with
  | .and => if left.isTruthy then none else some left
  | .or => if left.isTruthy then some left else none
  | _ => none

/-- An operator on two numbers. -/
def numeric (op : BinaryOp) (f : Number → Number → Value) (left right : Value) (span : Span) :
    Except RuntimeError Value :=
  match left, right with
  | .number x, .number y => .ok (f x y)
  | _, _ => .error (.numberOperands op left.typeName right.typeName span)

/-- The value of an operator whose left operand has not decided it. -/
def apply (op : BinaryOp) (left right : Value) (span : Span) : Except RuntimeError Value :=
  match op with
  | .eq => .ok (.bool (left.equal right))
  | .neq => .ok (.bool !(left.equal right))
  | .and | .or => .ok right
  | .append =>
    match left, right with
    | .str a, .str b => .ok (.str (a ++ b))
    | _, _ => .error (.stringOperands left.typeName right.typeName span)
  | .add => numeric .add (fun x y => .number (x.add y)) left right span
  | .sub => numeric .sub (fun x y => .number (x.sub y)) left right span
  | .mul => numeric .mul (fun x y => .number (x.mul y)) left right span
  | .div => numeric .div (fun x y => .number (x.div y)) left right span
  | .lt => numeric .lt (fun x y => .bool (x.less y)) left right span
  | .gt => numeric .gt (fun x y => .bool (y.less x)) left right span
  | .lte => numeric .lte (fun x y => .bool (x.lessEq y)) left right span
  | .gte => numeric .gte (fun x y => .bool (y.lessEq x)) left right span

end BinaryOp

end TreeWalk
