/-!
Command line arguments: options, each with a value or without one, and plain arguments between and
behind them.
-/

namespace DhallSyntax.Command

/-- An option and the names it goes by. Those of one letter have one dash, longer ones two. -/
structure Switch where
  key : String
  names : List String
  takesValue : Bool

/-- A list of arguments, taken apart. -/
structure Arguments where
  /-- The keys of the options in their order, with their values. -/
  settings : List (String × String)
  plain : List String
deriving DecidableEq, Repr

namespace Arguments

/-- What one argument is. -/
inductive Form where
  | plain
  /-- No option goes by that name, or it takes no value. -/
  | refused
  | options (settings : List (String × String))
  /-- Options of which the last one has its value in the next argument. -/
  | awaiting (settings : List (String × String)) (key : String)

def find? (switches : List Switch) (name : String) : Option Switch :=
  switches.find? fun switch => switch.names.contains name

/-- An option with two dashes; its value may stand behind an equals sign. -/
def longForm (switches : List Switch) (arg : List Char) : Form :=
  let name := arg.takeWhile (· != '=')
  match find? switches (String.ofList name), arg.drop name.length with
  | none, _ => .refused
  | some switch, '=' :: value =>
    if switch.takesValue then .options [(switch.key, String.ofList value)] else .refused
  | some switch, _ =>
    if switch.takesValue then .awaiting [] switch.key else .options [(switch.key, "")]

/-- Options of one letter behind a single dash. What follows one that takes a value is its
value. -/
def shortForm (switches : List Switch) : List Char → Form
  | [] => .options []
  | letter :: rest =>
    match find? switches (String.ofList ['-', letter]) with
    | none => .refused
    | some switch =>
      if switch.takesValue then
        if rest.isEmpty then .awaiting [] switch.key
        else .options [(switch.key, String.ofList rest)]
      else
        match shortForm switches rest with
        | .options settings => .options ((switch.key, "") :: settings)
        | .awaiting settings key => .awaiting ((switch.key, "") :: settings) key
        | other => other

def formOf (switches : List Switch) (arg : String) : Form :=
  match arg.toList with
  | '-' :: '-' :: rest => longForm switches ('-' :: '-' :: rest)
  | '-' :: c :: rest => shortForm switches (c :: rest)
  | _ => .plain

def withSettings (settings : List (String × String)) (a : Arguments) : Arguments :=
  { a with settings := settings ++ a.settings }

def withPlain (arg : String) (a : Arguments) : Arguments :=
  { a with plain := arg :: a.plain }

/-- Takes arguments apart. Behind two dashes there are no options; without `interleaved` there are
none behind the first plain argument either. -/
def read? (switches : List Switch) (interleaved : Bool) : List String → Option Arguments
  | [] => some ⟨[], []⟩
  | arg :: rest =>
    if arg == "--" then some ⟨[], rest⟩
    else
      match formOf switches arg with
      | .plain =>
        if interleaved then (read? switches interleaved rest).map (withPlain arg)
        else some ⟨[], arg :: rest⟩
      | .refused => none
      | .options settings => (read? switches interleaved rest).map (withSettings settings)
      | .awaiting settings key =>
        match rest with
        | [] => none
        | value :: rest =>
          (read? switches interleaved rest).map (withSettings (settings ++ [(key, value)]))

/-- The value of an option. If it is given several times, the last one counts. -/
def value? (a : Arguments) (key : String) : Option String := a.settings.reverse.lookup key

/-- Whether an option is given. -/
def has (a : Arguments) (key : String) : Bool := (a.value? key).isSome

end Arguments

end DhallSyntax.Command
