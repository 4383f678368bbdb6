import Entail.CommandLine

/-!
# The program

Reads what the command line needs of its surroundings, and prints what it comes to.
-/

open Entail

/-- Why a file cannot be read. -/
def readFailure : IO.Error → ReadFailure
  | .noFileOrDirectory .. => .notFound
  | .inappropriateType _ 20 _ => .notDirectory
  | .inappropriateType _ 21 _ => .isDirectory
  | e => ⟨.other, toString e⟩

/-- The text of a file. -/
def readText (path : String) : IO (Except ReadFailure String) := do
  try
    pure (.ok (← IO.FS.readFile path))
  catch e =>
    pure (.error (readFailure e))

/-- A line of the log. -/
def logLine (e : LogEntry) : String :=
  " ".intercalate ([e.weight.name, e.message] ++ e.fields.map fun (name, value) =>
    name ++ "=" ++ value)

/-- Prints what a command comes to. -/
def printOutcome : Outcome → IO Unit
  | .text text => IO.println text
  | .reports reports log => do
    log.forM fun entry => IO.eprintln (logLine entry)
    IO.println (Json.writePretty (Outcome.reportData reports))
  | .usage e => IO.eprintln e.message
  | .complaint c => IO.eprintln c.display

def main (args : List String) : IO UInt32 := do
  let vars ← CommandLine.variableNames.mapM fun name => do pure (name, ← IO.getEnv name)
  let env (name : String) : Option String := (vars.lookup name).join
  let files ← (CommandLine.paths env args).mapM fun path => do pure (path, ← readText path)
  let read (path : String) : Except ReadFailure String :=
    (files.lookup path).getD (.error .notFound)
  let outcome := CommandLine.run { env, read } args
  printOutcome outcome
  pure (UInt32.ofNat outcome.exitCode)
