import StructRec.CommandLine

/-!
# StructRec — the program

Reads the input file, runs the command and writes what it tells to write. The exit code is 0, 1 for
an error and 2 for wrong usage.
-/

namespace StructRec.CommandLine

/-- An error of the program in words. -/
def describeFailure : ProgramError → String
  | .unreadableFile => "IO error: the input file cannot be read"
  | .invalidJson => "JSON error: the input is not a module"
  | .compilation diagnostic => "Compilation error: " ++ diagnostic.render
  | .components diagnostics => Nat.repr diagnostics.length ++ " component(s) failed to convert"
  | .fault bug => bug.text

def readInput (path : String) : IO (Option String) := do
  try return some (← IO.FS.readFile path)
  catch _ => return none

end StructRec.CommandLine

open StructRec CommandLine

def main (args : List String) : IO UInt32 := do
  match Command.parse? args with
  | none =>
    IO.eprint usage
    return 2
  | some command =>
    let text ← match command.input? with
      | some path => readInput path
      | none => pure none
    let outcome := command.run text
    for warning in outcome.warnings do IO.eprintln ("warning: " ++ warning.text)
    for stage in outcome.stages do IO.eprintln ("stage: " ++ stage)
    IO.print outcome.stdout
    if let some (path, content) := outcome.file then IO.FS.writeFile path content
    for diagnostic in outcome.errors do IO.eprintln ("error: " ++ diagnostic.render)
    match outcome.failure with
    | none => return 0
    | some failure =>
      IO.eprintln ("Error: " ++ describeFailure failure)
      return 1
