import TreeWalk.Bindings
import TreeWalk.Value

/-!
# The store

Frames, functions, classes and objects, each kind in the order of their making. A frame's parent and
a class's superclass are older than the frame or class itself; looking outwards follows them only to
an older place, so it always ends.
-/

namespace TreeWalk

/-- The bindings of one scope, and the scope around it. -/
structure Frame where
  bindings : Bindings Value := {}
  parent : Option FrameId := none
deriving Inhabited

/-- A declared function with the frame it was declared in. -/
structure Closure where
  name : String
  decl : FunctionDecl
  scope : FrameId
  /-- Whether it makes objects ready, so that a call gives the receiver. -/
  isInitializer : Bool
deriving Inhabited

def Closure.arity (c : Closure) : Nat :=
  c.decl.arity

/-- A class with the methods declared in its own body. -/
structure ClassInfo where
  name : String
  superclass : Option ClassId := none
  methods : Bindings Closure := {}
deriving Inhabited

/-- The names of a class's own methods, as they were when it was declared. -/
def ClassInfo.methodNames (info : ClassInfo) : List String :=
  info.methods.entries.map fun entry => entry.2.name

/-- An object: its class and its fields. -/
structure Object where
  cls : ClassId
  fields : Bindings Value := {}
deriving Inhabited

structure Store where
  frames : Array Frame := #[]
  functions : Array Closure := #[]
  classes : Array ClassInfo := #[]
  objects : Array Object := #[]
deriving Inhabited

namespace Store

/-! ## Frames -/

/-- The store with one empty frame, at place 0. -/
def initial : Store :=
  { frames := #[{}] }

/-- Makes a frame. -/
def addFrame (s : Store) (frame : Frame) : FrameId × Store :=
  (s.frames.size, { s with frames := s.frames.push frame })

/-- Makes a frame inside `parent`, with some names bound in it. -/
def extend (s : Store) (parent : FrameId) (pairs : List (Symbol × Value)) : FrameId × Store :=
  s.addFrame { bindings := .ofList pairs, parent := some parent }

/-- Binds a name in a frame, in place of what it was bound to there. -/
def define (s : Store) (f : FrameId) (name : Symbol) (value : Value) : Store :=
  { s with frames := s.frames.modify f fun frame =>
      { frame with bindings := frame.bindings.insert name value } }

/-- The bindings of a frame. -/
def bindingsOf (s : Store) (f : FrameId) : Bindings Value :=
  (s.frames[f]?.map Frame.bindings).getD .empty

/-- The scope around a frame. -/
def parentOf? (s : Store) (f : FrameId) : Option FrameId :=
  s.frames[f]?.bind Frame.parent

/-- A frame and the frames around it, from the inside out. -/
def chain (s : Store) (f : FrameId) : List FrameId :=
  match s.parentOf? f with
  | none => [f]
  | some parent => if parent < f then f :: s.chain parent else [f]
termination_by f

/-- The nearest frame that binds a name. -/
def owner? (s : Store) (f : FrameId) (name : Symbol) : Option FrameId :=
  (s.chain f).find? fun g => (s.bindingsOf g).contains name

/-- The value of a name as seen from a frame. -/
def lookup? (s : Store) (f : FrameId) (name : Symbol) : Option Value :=
  (s.owner? f name).bind fun g => (s.bindingsOf g).get? name

/-- Rebinds a name where it is bound. A name that is bound nowhere stays so. -/
def assign? (s : Store) (f : FrameId) (name : Symbol) (value : Value) : Option Store :=
  (s.owner? f name).map fun g => s.define g name value

/-- How many frames there are from `f` to the outermost. -/
def depth (s : Store) (f : FrameId) : Nat :=
  (s.chain f).length

/-- A short account of a frame. -/
def describeFrame (s : Store) (f : FrameId) : String :=
  s!"Environment \x7b bindings: {(s.bindingsOf f).size}, depth: {s.depth f} \x7d"

/-! ## Functions, classes and objects -/

def addFunction (s : Store) (closure : Closure) : FunctionId × Store :=
  (s.functions.size, { s with functions := s.functions.push closure })

def addClass (s : Store) (info : ClassInfo) : ClassId × Store :=
  (s.classes.size, { s with classes := s.classes.push info })

def addObject (s : Store) (object : Object) : ObjectId × Store :=
  (s.objects.size, { s with objects := s.objects.push object })

/-- A class and its superclasses, nearest first. -/
def classChain (s : Store) (c : ClassId) : List ClassId :=
  match s.classes[c]?.bind ClassInfo.superclass with
  | none => [c]
  | some superclass => if superclass < c then c :: s.classChain superclass else [c]
termination_by c

/-- The method of this name in the nearest class that declares it. -/
def findMethod? (s : Store) (c : ClassId) (name : Symbol) : Option Closure :=
  (s.classChain c).findSome? fun d => s.classes[d]?.bind fun info => info.methods.get? name

/-- A method that sees `receiver` as `this`. -/
def bindMethod (s : Store) (method : Closure) (receiver : Value) : Closure × Store :=
  let (scope, s) := s.extend method.scope [(.this, receiver)]
  ({ method with scope }, s)

def field? (s : Store) (o : ObjectId) (name : Symbol) : Option Value :=
  s.objects[o]?.bind fun object => object.fields.get? name

def setField (s : Store) (o : ObjectId) (name : Symbol) (value : Value) : Store :=
  { s with objects := s.objects.modify o fun object =>
      { object with fields := object.fields.insert name value } }

/-! ## Reading what was written -/

theorem bindingsOf_eq {s : Store} (h : s.frames[f]? = some frame) :
    s.bindingsOf f = frame.bindings := by
  simp [bindingsOf, h]

@[simp]
theorem size_define (s : Store) (f : FrameId) (name : Symbol) (value : Value) :
    (s.define f name value).frames.size = s.frames.size := by
  simp [define]

theorem frame_define (s : Store) (f g : FrameId) (name : Symbol) (value : Value) :
    (s.define f name value).frames[g]?
      = (s.frames[g]?).map fun frame =>
          if f = g then { frame with bindings := frame.bindings.insert name value } else frame := by
  simp only [define, Array.getElem?_modify]
  split <;> simp_all

@[simp]
theorem parentOf?_define (s : Store) (f g : FrameId) (name : Symbol) (value : Value) :
    (s.define f name value).parentOf? g = s.parentOf? g := by
  simp only [parentOf?, frame_define]
  cases s.frames[g]? with
  | none => rfl
  | some frame => simp only [Option.map_some, Option.bind_some]; split <;> rfl

theorem bindingsOf_define_of_ne (s : Store) (h : f ≠ g) (name : Symbol) (value : Value) :
    (s.define f name value).bindingsOf g = s.bindingsOf g := by
  simp [bindingsOf, frame_define, h]

theorem bindingsOf_define_self (s : Store) (h : f < s.frames.size) (name : Symbol) (value : Value) :
    (s.define f name value).bindingsOf f = (s.bindingsOf f).insert name value := by
  simp only [bindingsOf, frame_define]
  simp [h]

@[simp]
theorem size_extend (s : Store) (f : FrameId) (pairs : List (Symbol × Value)) :
    (s.extend f pairs).2.frames.size = s.frames.size + 1 := by
  simp [extend, addFrame]

theorem frame_extend_of_lt (s : Store) (h : g < s.frames.size) (f : FrameId)
    (pairs : List (Symbol × Value)) : (s.extend f pairs).2.frames[g]? = s.frames[g]? := by
  simp [extend, addFrame, Array.getElem?_push, Nat.ne_of_lt h]

theorem frame_extend_new (s : Store) (f : FrameId) (pairs : List (Symbol × Value)) :
    (s.extend f pairs).2.frames[s.frames.size]? =
      some { bindings := .ofList pairs, parent := some f } := by
  simp [extend, addFrame]

/-! ## Printed values -/

def functionName (s : Store) (f : FunctionId) : String :=
  (s.functions[f]?.map Closure.name).getD ""

def className (s : Store) (c : ClassId) : String :=
  (s.classes[c]?.map ClassInfo.name).getD ""

def objectClass? (s : Store) (o : ObjectId) : Option ClassId :=
  s.objects[o]?.map Object.cls

mutual

/-- The printed form of a value, in the pieces in which it is written. -/
def pieces (s : Store) : Value → List String
  | .nil => ["()"]
  | .bool true => ["true"]
  | .bool false => ["false"]
  | .number x => x.pieces
  | .str text => [text]
  | .tuple items => "(" :: s.piecesAll items ++ [")"]
  | .vector items => "[" :: s.piecesAll items ++ ["]"]
  | .function f => ["<fn ", s.functionName f, ">"]
  | .class_ c => [s.className c]
  | .object o => [((s.objectClass? o).map s.className).getD "", " instance"]

/-- Printed values with commas between them. -/
def piecesAll (s : Store) : List Value → List String
  | [] => []
  | [v] => s.pieces v
  | v :: w :: vs => s.pieces v ++ ", " :: s.piecesAll (w :: vs)

end

/-- The printed form of a value. -/
def printed (s : Store) (v : Value) : String :=
  String.join (s.pieces v)

end Store

end TreeWalk
