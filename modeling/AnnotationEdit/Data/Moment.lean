import AnnotationEdit.Text.Cut

/-!
# Moments

Dates and times of day as they are written in data: a date, a time, or both with or without the
distance from universal time. Seconds may be left out. A moment is written back in one form only:
with seconds, with a capital `T` and `Z`, and without zeros at the end of a fraction.
-/

namespace AnnotationEdit

structure Date where
  year : Nat
  month : Nat
  day : Nat
deriving DecidableEq, Repr

structure TimeOfDay where
  hour : Nat
  minute : Nat
  second : Nat
  nanosecond : Nat
deriving DecidableEq, Repr

/-- How far a clock is from universal time. -/
inductive Offset where
  | universal
  | ahead (minutes : Int)
deriving DecidableEq, Repr

structure Moment where
  date : Option Date
  time : Option TimeOfDay
  offset : Option Offset
deriving DecidableEq, Repr

namespace Moment

/-! ## Reading -/

def numberOf (digits : List Char) : Nat :=
  digits.foldl (fun n c => 10 * n + (c.toNat - '0'.toNat)) 0

def fixed? (n : Nat) (cs : List Char) : Option (Nat × List Char) :=
  let digits := cs.takeWhile Text.isDigit
  if digits.length = n then some (numberOf digits, cs.drop n) else none

def after? (c : Char) : List Char → Option (List Char)
  | d :: cs => if c = d then some cs else none
  | [] => none

def daysOf (year month : Nat) : Nat :=
  if month = 2 then (if year % 4 = 0 && (year % 100 != 0 || year % 400 = 0) then 29 else 28)
  else if month = 4 || month = 6 || month = 9 || month = 11 then 30
  else 31

def date? (cs : List Char) : Option (Date × List Char) := do
  let (year, cs) ← fixed? 4 cs
  let (month, cs) ← fixed? 2 (← after? '-' cs)
  let (day, cs) ← fixed? 2 (← after? '-' cs)
  if 1 ≤ month && month ≤ 12 && 1 ≤ day && day ≤ daysOf year month then
    some (⟨year, month, day⟩, cs)
  else none

/-- The nanoseconds of the digits of a fraction; digits after the ninth do not count. -/
def nanoseconds (digits : List Char) : Nat :=
  numberOf ((digits ++ List.replicate 9 '0').take 9)

def fraction? : List Char → Option (Nat × List Char)
  | '.' :: cs =>
    let digits := cs.takeWhile Text.isDigit
    if digits.isEmpty then none else some (nanoseconds digits, cs.dropWhile Text.isDigit)
  | cs => some (0, cs)

def second? : List Char → Option ((Nat × Nat) × List Char)
  | ':' :: cs => do
    let (second, cs) ← fixed? 2 cs
    let (nanosecond, cs) ← fraction? cs
    return ((second, nanosecond), cs)
  | cs => some ((0, 0), cs)

/-- A time of day and what follows it; a leap second may be the 60th. -/
def time? (cs : List Char) : Option (TimeOfDay × List Char) := do
  let (hour, cs) ← fixed? 2 cs
  let (minute, cs) ← fixed? 2 (← after? ':' cs)
  let ((second, nanosecond), cs) ← second? cs
  if hour < 24 && minute < 60 && second ≤ 60 then some (⟨hour, minute, second, nanosecond⟩, cs)
  else none

def offset? : List Char → Option Offset
  | ['Z'] | ['z'] => some .universal
  | sign :: cs => do
    let (hours, cs) ← fixed? 2 cs
    let (minutes, cs) ← fixed? 2 (← after? ':' cs)
    let distance : Int := hours * 60 + minutes
    if hours < 24 && minutes < 60 && cs.isEmpty then
      if sign = '+' then some (.ahead distance)
      else if sign = '-' then some (.ahead (-distance))
      else none
    else none
  | [] => none

def parse? (cs : List Char) : Option Moment :=
  match date? cs with
  | some (date, []) => some ⟨some date, none, none⟩
  | some (date, c :: cs) => do
    if c = 'T' || c = 't' || c = ' ' then
      match ← time? cs with
      | (time, []) => return ⟨some date, some time, none⟩
      | (time, cs) => return ⟨some date, some time, some (← offset? cs)⟩
    else none
  | none => do
    match ← time? cs with
    | (time, []) => return ⟨none, some time, none⟩
    | _ => none

def isDate (cs : List Char) : Bool :=
  match date? cs with
  | some (_, []) => true
  | _ => false

/-! ## Writing -/

def padded (width n : Nat) : String :=
  let digits := toString n
  Text.times "0" (width - digits.length) ++ digits

def displayDate (d : Date) : String :=
  padded 4 d.year ++ "-" ++ padded 2 d.month ++ "-" ++ padded 2 d.day

def displayTime (t : TimeOfDay) : String :=
  let fraction := ((padded 9 t.nanosecond).toList.reverse.dropWhile (· == '0')).reverse
  padded 2 t.hour ++ ":" ++ padded 2 t.minute ++ ":" ++ padded 2 t.second ++
    (if fraction.isEmpty then "" else "." ++ String.ofList fraction)

def displayOffset : Offset → String
  | .universal => "Z"
  | .ahead minutes =>
    (if minutes < 0 then "-" else "+") ++ padded 2 (minutes.natAbs / 60) ++ ":" ++
      padded 2 (minutes.natAbs % 60)

def display (m : Moment) : String :=
  (match m.date with
    | some date => displayDate date
    | none => "") ++
  (match m.date, m.time with
    | some _, some time => "T" ++ displayTime time
    | none, some time => displayTime time
    | _, none => "") ++
  (match m.offset with
    | some offset => displayOffset offset
    | none => "")

end Moment

end AnnotationEdit
