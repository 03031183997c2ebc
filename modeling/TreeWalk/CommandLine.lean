import TreeWalk.Log

/-!
# The command line

An optional script and four options, in any order. How arguments are read is a parameter of the
program (`ArgumentReader`). In the standard form an option's value stands behind `=` or is the next
argument, and everything behind `--` is a script. The first thing that is wrong, and the first
request for help or the version, decides.
-/

namespace TreeWalk

/-- The ways to write a program instead of running it. -/
inductive DumpFormat where
  | pretty
  | sexpr
deriving DecidableEq, Repr, Inhabited

/-- The format with this name. -/
def DumpFormat.ofText? : String → Option DumpFormat
  | "pretty" => some pretty
  | "sexpr" => some sexpr
  | _ => none

/-- What the arguments ask for. -/
structure Options where
  script : Option String := none
  logLevel : Option Log.Level := none
  noColor : Bool := false
  dump : Option DumpFormat := none
deriving DecidableEq, Repr, Inhabited

/-- The outcome of reading the arguments. -/
inductive Request where
  | start (options : Options)
  | version
  | help
  | badUsage
deriving DecidableEq, Repr, Inhabited

namespace Options

/-- An option that can be given once. -/
def once {α : Type} (old : Option α) (new : Option α) : Option α :=
  match old with
  | none => new
  | some _ => none

/-- Takes the script. There is one at most, and it has a name. -/
def withScript (o : Options) (arg : String) : Option Options :=
  if arg.isEmpty then none
  else (once o.script (some arg)).map fun script => { o with script := some script }

def withLogLevel (o : Options) (value : String) : Option Options :=
  (once o.logLevel (Log.Level.ofText? value)).map fun level => { o with logLevel := some level }

def withDump (o : Options) (value : String) : Option Options :=
  (once o.dump (DumpFormat.ofText? value)).map fun format => { o with dump := some format }

def withNoColor (o : Options) : Option Options :=
  if o.noColor then none else some { o with noColor := true }

/-- Takes an option that has a value; `none` if there is no such option. -/
def withValue? (o : Options) : String → Option (String → Option Options)
  | "log-level" => some o.withLogLevel
  | "dump-ast" => some o.withDump
  | _ => none

/-- Takes the arguments behind `--`. -/
def withScripts (o : Options) : List String → Request
  | [] => .start o
  | arg :: args =>
    match o.withScript arg with
    | some o => o.withScripts args
    | none => .badUsage

end Options

/-- An argument by its form. -/
inductive Argument where
  /-- The end of the options, `--`. -/
  | endMark
  /-- An option with a long name, and its value behind `=`. -/
  | long (name : String) (value : Option String)
  /-- An option with a short name. -/
  | short (letter : Char)
  | plain (text : String)
deriving DecidableEq, Repr, Inhabited

namespace Argument

def ofText (text : String) : Argument :=
  match text.toList with
  | ['-', '-'] => endMark
  | '-' :: '-' :: rest =>
    let name := String.ofList (rest.takeWhile (· != '='))
    match rest.dropWhile (· != '=') with
    | [] => long name none
    | _ :: value => long name (some (String.ofList value))
  | '-' :: letter :: _ => short letter
  | _ => plain text

/-- Whether the argument can be the value of the option in front of it. -/
def isPlain : Argument → Bool
  | plain _ => true
  | _ => false

end Argument

namespace Request

/-- Reads the arguments behind those that gave `o`. -/
def read (o : Options) : List String → Request
  | [] => .start o
  | arg :: args =>
    match Argument.ofText arg with
    | .endMark => o.withScripts args
    | .plain text =>
      match o.withScript text with
      | some o => read o args
      | none => .badUsage
    | .short 'V' | .long "version" none => .version
    | .short 'h' | .long "help" none => .help
    | .short _ => .badUsage
    | .long "no-color" none =>
      match o.withNoColor with
      | some o => read o args
      | none => .badUsage
    | .long name (some value) =>
      match (o.withValue? name).bind (· value) with
      | some o => read o args
      | none => .badUsage
    | .long name none =>
      match o.withValue? name, args with
      | some take, value :: args =>
        match (Argument.ofText value).isPlain, take value with
        | true, some o => read o args
        | _, _ => .badUsage
      | _, _ => .badUsage

/-- Reads a command line. -/
def ofArgs (args : List String) : Request :=
  read {} args

end Request

/-- What the arguments ask for, and the texts about the arguments themselves. -/
structure ArgumentReader where
  request : List String → Request
  /-- Shown to those who ask for help. -/
  help : String := ""
  /-- Shown where the arguments make no sense. -/
  complaint : String := ""

/-- The standard form of arguments, without texts about them. -/
def ArgumentReader.standard : ArgumentReader :=
  { request := Request.ofArgs }

end TreeWalk
