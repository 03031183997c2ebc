import TreeWalk.Console

/-!
# Invocations

The whole program as a function: arguments, surroundings, files and input give an exit and two
texts.
-/

namespace TreeWalk

/-- All that a run of the program can see. -/
structure Invocation where
  args : List String
  reader : ArgumentReader := .standard
  env : Surroundings := {}
  contentsOf : String → Except ReadError (List UInt8)
  input : List UInt8 := []

/-- What a run of the program leaves behind. -/
structure Report where
  exit : Exit
  stdout : String := ""
  stderr : String := ""
deriving DecidableEq, Repr, Inhabited

namespace Report

def version : Report :=
  { exit := .success, stdout := "wox 0.1.0\n" }

def help (reader : ArgumentReader) : Report :=
  { exit := .success, stdout := reader.help }

def badUsage (reader : ArgumentReader) : Report :=
  { exit := .badUsage, stderr := reader.complaint }

def ofConsole (exit : Exit) (c : Console) : Report :=
  { exit, stdout := c.stdout, stderr := c.stderr }

end Report

/-- Runs the program. -/
def Invocation.run (fuel : Nat) (i : Invocation) : Option Report :=
  match i.reader.request i.args with
  | .version => some .version
  | .help => some (.help i.reader)
  | .badUsage => some (.badUsage i.reader)
  | .start o =>
    let c := Console.start i.env o
    let ending := match o.script with
      | some path => c.runScript fuel path (i.contentsOf path)
      | none => c.openPrompt.prompt fuel (inputLines i.input)
    ending.map fun (exit, c) => .ofConsole exit c

end TreeWalk
