import DhallSyntax.Command.Arguments
import DhallSyntax.Exchange
import DhallSyntax.Parser.Basic
import DhallSyntax.Vocabulary

/-!
The commands of the program: checking a source, writing its tree, and printing the grammar.
-/

namespace DhallSyntax.Command

inductive Action where
  | check (file : String)
  /-- Writes the tree of a source, to the terminal unless an output is named. -/
  | parse (file : String) (format : Format) (output : Option String)
  | grammar
  | version
  | help
deriving DecidableEq, Repr

/-- A command with the settings for parsing. -/
structure Invocation where
  settings : Settings
  action : Action

/-! Reading arguments -/

def helpSwitch : Switch := ⟨"help", ["--help"], false⟩

/-- The options in front of the command. -/
def commonSwitches : List Switch :=
  [⟨"max-depth", ["--max-depth"], true⟩, ⟨"no-memoize", ["--no-memoize"], false⟩,
   ⟨"verbose", ["--verbose", "-v"], false⟩, ⟨"version", ["--version"], false⟩, helpSwitch]

def parseSwitches : List Switch :=
  [⟨"format", ["--format"], true⟩, ⟨"output", ["--output", "-o"], true⟩, helpSwitch]

/-- The settings that the options in front of the command ask for. -/
def settings? (a : Arguments) : Option Settings :=
  match a.value? "max-depth" with
  | none => Settings.ofMaxDepth? defaultMaxDepth !(a.has "no-memoize")
  | some text => do
    Settings.ofMaxDepth? (← Numeral.readLimited? text.toList) !(a.has "no-memoize")

/-- A format by its name, in either case. -/
def format? (name : String) : Option Format :=
  [("json", Format.json), ("yaml", Format.yaml)].lookup
    (String.ofList (name.toList.map Char.toLower))

def checkAction? (args : List String) : Option Action := do
  let a ← Arguments.read? [helpSwitch] true args
  if a.has "help" then return .help
  let [file] := a.plain | none
  return .check file

def parseAction? (args : List String) : Option Action := do
  let a ← Arguments.read? parseSwitches true args
  if a.has "help" then return .help
  let format ← (a.value? "format").elim (some .json) format?
  let [file] := a.plain | none
  return .parse file format ((a.value? "output").filter (· != ""))

/-- A command without arguments of its own. -/
def bareAction? (action : Action) (args : List String) : Option Action := do
  let a ← Arguments.read? [helpSwitch] true args
  if a.has "help" then return .help
  if a.plain.isEmpty then return action else none

def action? (name : String) (args : List String) : Option Action :=
  match name with
  | "check" => checkAction? args
  | "parse" => parseAction? args
  | "grammar" => bareAction? .grammar args
  | "version" => bareAction? .version args
  | _ => none

/-- What arguments ask for, unless they are wrong. -/
def Invocation.ofArguments? (args : List String) : Option Invocation := do
  let a ← Arguments.read? commonSwitches false args
  if a.has "version" then return ⟨Settings.standard, .version⟩
  if a.has "help" || args.isEmpty then return ⟨Settings.standard, .help⟩
  let settings ← settings? a
  let name :: rest := a.plain | none
  return ⟨settings, ← action? name rest⟩

/-- The file that a command reads. -/
def Invocation.source? (i : Invocation) : Option String :=
  match i.action with
  | .check file => some file
  | .parse file _ _ => some file
  | _ => none

end DhallSyntax.Command
