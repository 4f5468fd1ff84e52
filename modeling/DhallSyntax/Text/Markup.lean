import DhallSyntax.Text.CharClass
import DhallSyntax.Text.Script

/-!
Texts for terminals. Marked-up text holds tags in brackets, which style what follows them; on a
terminal without styles they vanish. A backslash in front of a tag makes it text.
-/

namespace DhallSyntax.Markup

/-- What the name of a tag begins with. -/
def tagStart : CharClass := fun c =>
  ('a' ≤ c && c ≤ 'z') || c == '#' || c == '/' || c == '@'

/-- A tag behind its opening bracket, and what follows it. -/
def tagBehind? : List Char → Option (List Char × List Char)
  | [] => none
  | c :: rest =>
    let name := rest.takeWhile fun d => d != ']' && d != '['
    match tagStart c, rest.drop name.length with
    | true, ']' :: after => some (c :: name, after)
    | _, _ => none

/-- A tag with the backslashes in front of it. -/
structure Tag where
  slashes : Nat
  name : List Char

/-- The tag that a text begins with, and what follows it. -/
def tag? (s : List Char) : Option (Tag × List Char) :=
  let slashes := (s.takeWhile (· == '\\')).length
  match s.drop slashes with
  | '[' :: rest => (tagBehind? rest).map fun (name, after) => (⟨slashes, name⟩, after)
  | _ => none

/-- The part of a text in front of its first tag, with that tag and the rest. -/
def splitTag : List Char → List Char × Option (Tag × List Char)
  | [] => ([], none)
  | c :: rest =>
    match tag? (c :: rest) with
    | some found => ([], some found)
    | none =>
      let (before, found) := splitTag rest
      (c :: before, found)

/-! Writing -/

/-- A tag as text. -/
def escapeTag (t : Tag) : List Char :=
  List.replicate (2 * t.slashes + 1) '\\' ++ '[' :: t.name ++ [']']

def escapeTags : (bound : List Char) → List Char → List Char
  | [], s => s
  | _ :: bound, s =>
    match splitTag s with
    | (before, some (t, after)) => before ++ escapeTag t ++ escapeTags bound after
    | (before, none) => before

/-- A text as marked-up text. A backslash at the end is doubled, so that it does not escape what
is put behind it. -/
def escape (s : String) : String :=
  let escaped := escapeTags s.toList s.toList
  match escaped.reverse with
  | ['\\'] => String.ofList (escaped ++ ['\\'])
  | '\\' :: c :: _ => String.ofList (if c == '\\' then escaped else escaped ++ ['\\'])
  | _ => String.ofList escaped

/-! Showing -/

/-- The short words between colons that stand for pictures. -/
def pictures : List (String × Char) :=
  [("100", '💯'), ("1234", '🔢'), ("8ball", '🎱'), ("a", '🅰'), ("ab", '🆎'), ("abc", '🔤'),
   ("abcd", '🔡'), ("b", '🅱'), ("bed", '🛏'), ("bee", '🐝'), ("bell", '🔔'), ("bug", '🐛'),
   ("cd", '💿'), ("cl", '🆑'), ("cool", '🆒'), ("dvd", '📀'), ("end", '🔚'), ("fire", '🔥'),
   ("free", '🆓'), ("gem", '💎'), ("heart", '❤'), ("id", '🆔'), ("key", '🔑'), ("m", 'Ⓜ'),
   ("new", '🆕'), ("ng", '🆖'), ("o", '⭕'), ("o2", '🅾'), ("ok", '🆗'), ("on", '🔛'),
   ("rocket", '🚀'), ("smile", '😄'), ("soon", '🔜'), ("sos", '🆘'), ("star", '⭐'),
   ("top", '🔝'), ("tv", '📺'), ("up", '🆙'), ("v", '✌'), ("vs", '🆚'), ("warning", '⚠'),
   ("x", '❌'), ("zzz", '💤')]

/-- What may end a word between colons, and the character that it puts behind the picture. -/
def variants : List (String × Char) := [("-text", '\ufe0e'), ("-emoji", '\ufe0f')]

/-- The picture that a word in any case stands for. -/
def picture? (word : List Char) : Option (List Char) :=
  let plain (w : List Char) : Option Char :=
    pictures.lookup (String.ofList (w.map Char.toLower))
  match variants.find? fun v => v.1.toList.isSuffixOf word with
  | some (ending, mark) => (plain (word.take (word.length - ending.length))).map ([·, mark])
  | none => (plain word).map ([·])

/-- Text between two colons without blanks in it, and what follows. -/
def colonWord? (s : List Char) : Option (List Char × List Char) :=
  let word := s.takeWhile fun c => c != ':' && !isAnyBlank c
  match s.drop word.length with
  | ':' :: after => some (word, after)
  | _ => none

/-- A text with the words for pictures replaced. -/
def withPictures : (bound : List Char) → List Char → List Char
  | [], s => s
  | _, [] => []
  | _ :: bound, c :: rest =>
    match c == ':', colonWord? rest with
    | true, some (word, after) =>
      match picture? word with
      | some picture => picture ++ withPictures bound after
      | none => ':' :: word ++ ':' :: withPictures bound after
    | _, _ => c :: withPictures bound rest

/-- A backslash in front of a bracket that begins no tag is dropped. -/
def dropSlashes : List Char → List Char
  | '\\' :: '[' :: rest => '[' :: dropSlashes rest
  | c :: rest => c :: dropSlashes rest
  | [] => []

/-- The part of a text between tags. -/
def visible (s : List Char) : List Char :=
  let s := dropSlashes s
  withPictures s s

/-- The name of a tag without its parameters. -/
def baseName (name : List Char) : List Char := name.takeWhile (· != '=')

/-- A style name without blanks around it and in lower case. -/
def styleName (name : List Char) : List Char :=
  ((name.dropWhile isAnyBlank).reverse.dropWhile isAnyBlank).reverse.map Char.toLower

/-- The open styles behind a tag, the innermost first. A tag that closes a style needs one that
opened it. -/
def openBehind? (styles : List (List Char)) (name : List Char) : Option (List (List Char)) :=
  match baseName name with
  | '/' :: closed =>
    let closed := styleName closed
    if closed.isEmpty then styles.tail?
    else if styles.contains closed then some (styles.erase closed)
    else none
  | opened => some (styleName opened :: styles)

/-- What marked-up text shows inside some styles. -/
def shownWithin (styles : List (List Char)) : (bound : List Char) → List Char → Option (List Char)
  | [], s => some s
  | _ :: bound, s =>
    match splitTag s with
    | (before, none) => some (visible before)
    | (before, some (t, after)) => do
      let slashes := List.replicate (t.slashes / 2) '\\'
      if t.slashes % 2 = 1 then
        let later ← shownWithin styles bound after
        return visible before ++ slashes ++ visible ('[' :: t.name ++ [']']) ++ later
      else
        let later ← shownWithin (← openBehind? styles t.name) bound after
        return visible before ++ slashes ++ later

/-- What marked-up text shows, unless it closes a style that is not open. -/
def shown? (s : String) : Option String :=
  (shownWithin [] s.toList s.toList).map String.ofList

end DhallSyntax.Markup
