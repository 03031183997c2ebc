import TreeWalk.Eval.Basic

/-!
# Functions, classes and objects

What happens when functions and classes are declared and properties looked up. None of it runs code
of the program.
-/

namespace TreeWalk

namespace Eval

/-- A declaration as seen from a frame. -/
def closure (decl : FunctionDecl) (scope : FrameId) (isInitializer : Bool) : Eval Closure := do
  return { name := ← nameOf decl.name.name, decl, scope, isInitializer }

/-- The value of a new function. -/
def newFunction (c : Closure) : Eval Value := do
  return .function (← update (·.addFunction c))

/-- A method with its receiver. -/
def bindMethod (method : Closure) (receiver : Value) : Eval Closure :=
  update (·.bindMethod method receiver)

/-- The value of a function that sees the current frame. -/
def functionHere (decl : FunctionDecl) : Eval Value := fun names m =>
  (do newFunction (← closure decl m.current false)) names m

/-- Declares a function in the current frame. -/
def declareFunction (decl : FunctionDecl) : Eval Unit := do
  define decl.name.name (← functionHere decl)

/-- The class that a name stands for. -/
def superclassOf (name : Ident) : Eval ClassId := do
  match ← lookup name with
  | .class_ c => return c
  | _ => raise (.superclassNotClass (← nameOf name.name) name.span)

/-- The frame that methods of a class see: with a superclass, a new one that binds `super`. -/
def methodScope : Option ClassId → Eval FrameId
  | none => fun _ m => .ok m.current m
  | some c => fun _ m =>
    let (frame, store) := m.store.extend m.current [(.super, .class_ c)]
    .ok frame { m with store }

/-- The method table of a class body; of two methods of one name the later stays. -/
def methodTable (scope : FrameId) (table : Bindings Closure) :
    List FunctionDecl → Eval (Bindings Closure)
  | [] => return table
  | decl :: decls => do
    let method ← closure decl scope (decl.name.name == .init)
    methodTable scope (table.insert decl.name.name method) decls

/-- Finds the superclass, if one is named. -/
def superclass? : Option Ident → Eval (Option ClassId)
  | none => return none
  | some name => return some (← superclassOf name)

/-- The value of a new class. -/
def newClass (name : Ident) (superclass : Option Ident) (methods : List FunctionDecl) :
    Eval Value := do
  let superclass ← superclass? superclass
  let scope ← methodScope superclass
  let table ← methodTable scope .empty methods
  let shown ← nameOf name.name
  record (.declared shown table.size)
  return .class_ (← update (·.addClass { name := shown, superclass, methods := table }))

/-- Declares a class in the current frame. -/
def declareClass (name : Ident) (superclass : Option Ident) (methods : List FunctionDecl) :
    Eval Unit := do
  define name.name (← newClass name superclass methods)

/-- Reads a property: a field, or else a method of the object's class with the object as its
receiver. -/
def property (object : Value) (name : Ident) : Eval Value := do
  match object with
  | .object o =>
    match ← query (·.field? o name.name) with
    | some v => return v
    | none =>
      match ← query fun s => (s.objectClass? o).bind fun c => s.findMethod? c name.name with
      | some method => newFunction (← bindMethod method object)
      | none => raise (.undefinedProperty (← nameOf name.name) name.span)
  | other => raise (.notAnInstance other.typeName name.span)

/-- Reads a method of the superclass, with the current receiver. -/
def superMethod (method : Ident) (span : Span) : Eval Value := do
  match ← lookup ⟨.super, span⟩ with
  | .class_ c => do
    let receiver ← lookup ⟨.this, span⟩
    match ← query (·.findMethod? c method.name) with
    | some found => newFunction (← bindMethod found receiver)
    | none => raise (.undefinedProperty (← nameOf method.name) method.span)
  | other => do
    raise (.superclassNotClass (← query (·.printed other)) span)

def checkArity (name : String) (expected found : Nat) (span : Span) : Eval Unit :=
  if expected = found then return () else raise (.arityMismatch name expected found span)

end Eval

end TreeWalk
