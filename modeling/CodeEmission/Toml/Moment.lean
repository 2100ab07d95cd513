import CodeEmission.Data.Basic

/-! # Dates and times in configuration notation

A date, a time of day, or both, in the last case also with the distance from universal time.
-/

namespace CodeEmission.Toml.Moment

def number? (cs : List Char) : Option Nat :=
  if cs.all Char.isDigit then some (cs.foldl (fun n c => n * 10 + (c.toNat - '0'.toNat)) 0)
  else none

def isBetween (least most : Nat) (cs : List Char) : Bool :=
  (number? cs).any fun n => decide (least ≤ n ∧ n ≤ most)

def isLeapYear (year : Nat) : Bool := year % 4 = 0 && (year % 100 != 0 || year % 400 = 0)

def daysIn (year month : Nat) : Nat :=
  match month with
  | 2 => if isLeapYear year then 29 else 28
  | 4 | 6 | 9 | 11 => 30
  | _ => 31

def isDate : List Char → Bool
  | [y₁, y₂, y₃, y₄, '-', m₁, m₂, '-', d₁, d₂] =>
    match number? [y₁, y₂, y₃, y₄], number? [m₁, m₂] with
    | some year, some month =>
      isBetween 1 12 [m₁, m₂] && isBetween 1 (daysIn year month) [d₁, d₂]
    | _, _ => false
  | _ => false

def isFraction : List Char → Bool
  | [] => true
  | c :: cs => c = '.' && !cs.isEmpty && cs.all Char.isDigit

/-- Whether some characters are a time of day. A minute may have a leap second. -/
def isTime : List Char → Bool
  | h₁ :: h₂ :: ':' :: m₁ :: m₂ :: ':' :: s₁ :: s₂ :: fraction =>
    isBetween 0 23 [h₁, h₂] && isBetween 0 59 [m₁, m₂] && isBetween 0 60 [s₁, s₂] &&
      isFraction fraction
  | _ => false

def isOffset : List Char → Bool
  | [] => true
  | [c] => c = 'Z' || c = 'z'
  | [c, h₁, h₂, ':', m₁, m₂] =>
    (c = '+' || c = '-') && isBetween 0 23 [h₁, h₂] && isBetween 0 59 [m₁, m₂]
  | _ => false

def isTimeChar (c : Char) : Bool := c.isDigit || c = ':' || c = '.'

def isTimeOfDate : List Char → Bool
  | c :: cs =>
    (c = 'T' || c = 't' || c = ' ') && isTime (cs.takeWhile isTimeChar) &&
      isOffset (cs.dropWhile isTimeChar)
  | [] => false

def isMoment (cs : List Char) : Bool :=
  isTime cs || isDate cs || (isDate (cs.take 10) && isTimeOfDate (cs.drop 10))

/-- A date or time as data. It counts as an object, with a name in it that nobody asks for. -/
def toData (cs : List Char) : Data := .object [("date-time", .string (String.ofList cs))]

end CodeEmission.Toml.Moment
