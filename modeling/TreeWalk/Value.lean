import TreeWalk.Number.Text
import TreeWalk.Tree

/-!
# Values

What a program computes with. Tuples and vectors are compared by their elements. Functions, classes
and objects live in the store; a value holds the place there, and two of them are equal only at the
same place.
-/

namespace TreeWalk

/-- The place of a frame in the store. -/
abbrev FrameId := Nat

/-- The place of a function in the store. -/
abbrev FunctionId := Nat

/-- The place of a class in the store. -/
abbrev ClassId := Nat

/-- The place of an object in the store. -/
abbrev ObjectId := Nat

inductive Value where
  /-- The unit value, `nil` or `()`. -/
  | nil
  | bool (value : Bool)
  | number (value : Number)
  | str (text : String)
  | tuple (items : List Value)
  | vector (items : List Value)
  | function (id : FunctionId)
  | class_ (id : ClassId)
  | object (id : ObjectId)
deriving Repr, Inhabited

namespace Value

/-- The value of a constant. A string that `names` does not know is empty. -/
def ofLiteral (names : Interner) : Literal → Value
  | .number x => number x
  | .str contents => str ((names.resolve? contents).getD "")
  | .bool b => bool b
  | .nil => nil

/-- Everything counts as true except `nil` and `false`. -/
def isTruthy : Value → Bool
  | nil | bool false => false
  | _ => true

/-- The name of the value's type in messages. -/
def typeName : Value → String
  | nil => "unit"
  | bool _ => "boolean"
  | number _ => "number"
  | str _ => "string"
  | tuple _ => "tuple"
  | vector _ => "vector"
  | function _ => "function"
  | class_ _ => "class"
  | object _ => "instance"

mutual

/-- The equality of the language. -/
def equal : Value → Value → Bool
  | nil, nil => true
  | bool a, bool b => a == b
  | number a, number b => a.equal b
  | str a, str b => a == b
  | tuple as, tuple bs => equalAll as bs
  | vector as, vector bs => equalAll as bs
  | function a, function b => a == b
  | class_ a, class_ b => a == b
  | object a, object b => a == b
  | _, _ => false

/-- Element by element, in lists of the same length. -/
def equalAll : List Value → List Value → Bool
  | [], [] => true
  | a :: as, b :: bs => equal a b && equalAll as bs
  | _, _ => false

end

end Value

end TreeWalk
