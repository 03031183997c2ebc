import TreeWalk.Invocation

/-!
# The program

Scripts run as an invocation does. A prompt writes each answer before it waits for the next line.
-/

namespace TreeWalk

/-- The fuel that the program is run with. A run that needs more is given up. -/
def plenty : Nat := 1 <<< 62

/-- Writes what a console has kept, and empties it. -/
def flushConsole (c : Console) : IO Console := do
  let out ← IO.getStdout
  let err ← IO.getStderr
  out.putStr c.stdout
  out.flush
  err.putStr c.stderr
  err.flush
  return { c with stdout := "", stderr := "" }

/-- The system's number of an error, which some operations give with a minus sign. -/
def systemCode (code : UInt32) : UInt32 :=
  min code (0 - code)

/-- The cause of a failed read. -/
def readError : IO.Error → ReadError
  | .noFileOrDirectory .. => .notFound
  | .permissionDenied .. => .denied
  | .inappropriateType _ code _ => if systemCode code == 20 then .notDirectory else .isDirectory
  | e@(.invalidArgument _ code _) =>
    if systemCode code == 36 then .nameTooLong else .other e.toString
  | e => .other e.toString

/-- Reads a file. -/
def fileBytes (path : String) : IO (Except ReadError (List UInt8)) := do
  try
    return .ok (← IO.FS.readBinFile path).toList
  catch e =>
    return .error (readError e)

/-- Reads a line with its end; at the end of the input it is empty. -/
partial def readLine (input : IO.FS.Stream) (line : ByteArray) : IO ByteArray := do
  let bytes ← input.read 1
  if bytes.isEmpty then
    return line
  else if bytes.toList == [10] then
    return line ++ bytes
  else
    readLine input (line ++ bytes)

/-- Asks and answers until a line or the end of the input ends it. -/
partial def converse (input : IO.FS.Stream) (c : Console) : IO Exit := do
  let c ← flushConsole c.ask
  match inputLines (← readLine input .empty).toList with
  | [] => finish c.leave
  | line :: _ =>
    match c.answer plenty line with
    | some (none, c) => converse input c
    | some (some exit, c) => finish (exit, c)
    | none => return .failure
where
  finish (ending : Exit × Console) : IO Exit := do
    let _ ← flushConsole ending.2
    return ending.1

/-- Writes a report. -/
def writeReport (r : Report) : IO Exit := do
  IO.print r.stdout
  IO.eprint r.stderr
  return r.exit

/-- Runs the program on its arguments. -/
def runArgs (reader : ArgumentReader) (args : List String) : IO Exit := do
  let env : Surroundings :=
    { logLevel := ← IO.getEnv Surroundings.logVariable
      noColor := (← IO.getEnv Surroundings.colorVariable).isSome }
  match reader.request args with
  | .start { script := none, logLevel, noColor, dump } =>
    converse (← IO.getStdin) (Console.start env { logLevel, noColor, dump }).openPrompt
  | .start { script := some path, .. } => do
    let contents ← fileBytes path
    match ({ args, reader, env, contentsOf := fun _ => contents } : Invocation).run plenty with
    | some report => writeReport report
    | none => return .failure
  | .version => writeReport .version
  | .help => writeReport (.help reader)
  | .badUsage => writeReport (.badUsage reader)

end TreeWalk

def main (args : List String) : IO UInt32 := do
  return (← TreeWalk.runArgs .standard args).code.toUInt32
