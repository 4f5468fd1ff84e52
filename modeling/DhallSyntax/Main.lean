import DhallSyntax.Command.Outcome

/-!
The program: reads the arguments and the file that they name, prints what the command has to say,
and writes its output.
-/

namespace DhallSyntax.Main

open Command

/-- What is in a file; a single dash stands for the standard input. -/
def contentOf (name : String) : IO FileContent := do
  if name == "-" then
    return .text (← (← IO.getStdin).readToEnd)
  try
    return .text (← IO.FS.readFile name)
  catch
    | .noFileOrDirectory .. => return .missing
    | e => return .unreadable (toString e)

/-- Carries out what a command has decided. -/
def perform (outcome : Command.Outcome) : IO UInt32 := do
  if let some (name, text) := outcome.written then
    IO.FS.writeFile name text
  for line in outcome.output do IO.println line
  for line in outcome.errors do IO.eprintln line
  return UInt32.ofNat outcome.exitCode

def run (args : List String) : IO UInt32 := do
  match Invocation.ofArguments? args with
  | none => perform .usageError
  | some i =>
    let content ← i.source?.elim (pure (.text "")) contentOf
    perform (i.outcome content)

end DhallSyntax.Main

def main (args : List String) : IO UInt32 := DhallSyntax.Main.run args
