import DhallSyntax.Number.Numeral
import DhallSyntax.Text.CharClass

/-!
Dates and times of day, read from texts and written as texts. Two times with zones are the same if
they are the same moment.
-/

namespace DhallSyntax

/-- A time of day, with the seconds by which it is ahead of universal time if that is known. -/
structure TimeOfDay where
  hour : Nat
  minute : Nat
  second : Nat
  microsecond : Nat
  zone : Option Int
deriving DecidableEq, Repr

structure Timestamp where
  year : Nat
  month : Nat
  day : Nat
  time : Option TimeOfDay
deriving DecidableEq, Repr

namespace Timestamp

/-! Reading -/

/-- The value of the digits in front, and what stands behind the character after them. -/
def number (s : List Char) : Nat × List Char :=
  (Numeral.positional 10 (s.takeWhile CharClass.digit), (s.dropWhile CharClass.digit).drop 1)

/-- A fraction of a second in millionths; further digits are dropped. -/
def microseconds (digits : List Char) : Nat :=
  Numeral.positional 10 ((digits ++ List.replicate 6 '0').take 6)

def isSpaceOrTab : CharClass := fun c => c == ' ' || c == '\t'

/-- The zone at the end: a letter for universal time, or a sign with hours and minutes. -/
def zone (s : List Char) : Option Int :=
  match s.dropWhile isSpaceOrTab with
  | [] => none
  | 'Z' :: _ => some 0
  | c :: rest =>
    let (hours, rest) := number rest
    some (Numeral.applySign (c == '-') ((hours * 60 + (number rest).1) * 60 : Nat))

def timeOfDay (s : List Char) : TimeOfDay :=
  let (hour, s) := number s
  let (minute, s) := number s
  let second := Numeral.positional 10 (s.takeWhile CharClass.digit)
  match s.dropWhile CharClass.digit with
  | '.' :: rest =>
    let digits := rest.takeWhile CharClass.digit
    ⟨hour, minute, second, microseconds digits, zone (rest.dropWhile CharClass.digit)⟩
  | rest => ⟨hour, minute, second, 0, zone rest⟩

/-- The parts of a scalar that has the form of a date, with or without a time. -/
def ofText (s : List Char) : Timestamp :=
  let (year, s) := number s
  let (month, s) := number s
  let day := Numeral.positional 10 (s.takeWhile CharClass.digit)
  match (s.dropWhile CharClass.digit).dropWhile fun c => !CharClass.digit c with
  | [] => ⟨year, month, day, none⟩
  | time => ⟨year, month, day, some (timeOfDay time)⟩

/-! What exists -/

def isLeapYear (year : Nat) : Bool :=
  year % 4 = 0 && (year % 100 != 0 || year % 400 = 0)

def daysIn (year month : Nat) : Nat :=
  if month = 2 then if isLeapYear year then 29 else 28
  else if [4, 6, 9, 11].contains month then 30
  else 31

/-- Seconds of a day. -/
def daySeconds : Nat := 24 * 60 * 60

def TimeOfDay.isReal (t : TimeOfDay) : Bool :=
  t.hour < 24 && t.minute < 60 && t.second < 60 && t.zone.all fun z => z.natAbs < daySeconds

/-- Whether there is such a day, and such a time of it. -/
def isReal (t : Timestamp) : Bool :=
  1 ≤ t.year && 1 ≤ t.month && t.month ≤ 12 && 1 ≤ t.day && t.day ≤ daysIn t.year t.month &&
    t.time.all TimeOfDay.isReal

/-! Comparing -/

/-- The number of a day, counted from the one before the first day of the first year. -/
def dayNumber (t : Timestamp) : Nat :=
  let past := t.year - 1
  let months := (List.range (t.month - 1)).foldl (fun days m => days + daysIn t.year (m + 1)) 0
  365 * past + past / 4 - past / 100 + past / 400 + months + t.day

/-- The second in universal time at which a time with a zone lies. -/
def universalSecond (t : Timestamp) (time : TimeOfDay) (zone : Int) : Int :=
  t.dayNumber * daySeconds + ((time.hour * 60 + time.minute) * 60 + time.second : Nat) - zone

/-- Whether two dates or times are the same. Zones may differ if the moment does not. -/
def same (a b : Timestamp) : Bool :=
  match a.time, b.time with
  | some s, some t =>
    match s.zone, t.zone with
    | some y, some z =>
      a.universalSecond s y == b.universalSecond t z && s.microsecond == t.microsecond
    | _, _ => a == b
  | _, _ => a == b

/-! Writing -/

/-- A number with leading zeros. -/
def padded (width n : Nat) : String :=
  String.ofList (Numeral.padded width n)

def zoneWritten (seconds : Int) : String :=
  let minutes := seconds.natAbs / 60
  (if seconds < 0 then "-" else "+") ++ padded 2 (minutes / 60) ++ ":" ++ padded 2 (minutes % 60)

def timeWritten (t : TimeOfDay) : String :=
  " " ++ ":".intercalate [padded 2 t.hour, padded 2 t.minute, padded 2 t.second] ++
    (if t.microsecond = 0 then "" else "." ++ padded 6 t.microsecond) ++ t.zone.elim "" zoneWritten

/-- Year, month and day with dashes, and the time behind a space. -/
def written (t : Timestamp) : String :=
  "-".intercalate [padded 4 t.year, padded 2 t.month, padded 2 t.day] ++ t.time.elim "" timeWritten

/-- A zone as messages show it. -/
def zoneShown (seconds : Int) : String :=
  if seconds = 0 then "datetime.timezone.utc"
  else if 0 < seconds then
    "datetime.timezone(datetime.timedelta(seconds=" ++ Numeral.write seconds ++ "))"
  else
    "datetime.timezone(datetime.timedelta(days=-1, seconds=" ++
      Numeral.write (daySeconds + seconds) ++ "))"

/-- A date or time as messages show it. Seconds and their fraction are left out where nothing but
zeros would follow. -/
def shown (t : Timestamp) : String :=
  let numbers (ns : List Nat) : String := ", ".intercalate (ns.map fun n => Numeral.write (n : Nat))
  let day := [t.year, t.month, t.day]
  match t.time with
  | none => "datetime.date(" ++ numbers day ++ ")"
  | some time =>
    let seconds :=
      if time.microsecond != 0 then [time.second, time.microsecond]
      else if time.second != 0 then [time.second]
      else []
    let zone := time.zone.elim "" fun z => ", tzinfo=" ++ zoneShown z
    "datetime.datetime(" ++ numbers (day ++ [time.hour, time.minute] ++ seconds) ++ zone ++ ")"

end Timestamp

end DhallSyntax
