import AgentMail.Migrate.Basic
import Mathlib.Algebra.GroupWithZero.Nat

open Pattern (Str)

namespace Migrate

def isLeap (year : Nat) : Bool :=
  year % 4 = 0 ∧ year % 100 ≠ 0 ∨ year % 400 = 0

def daysInMonth (year month : Nat) : Nat :=
  if month = 2 then if isLeap year then 29 else 28
  else if month ∈ [4, 6, 9, 11] then 30
  else 31

inductive Suffix
  | z
  | offset (west : Bool) (hours minutes : Nat)

def Suffix.Valid : Suffix → Prop
  | z                     => True
  | offset _ hours minutes => hours < 24 ∧ minutes < 60

-- What an offset is ahead of universal time.
def Suffix.seconds : Suffix → Int
  | z                        => 0
  | offset west hours minutes => (if west then -1 else 1) * (hours * 3600 + minutes * 60)

-- A date and a time, with a fraction of up to six digits and an offset.
structure Timestamp where
  year      : Nat
  month     : Nat
  day       : Nat
  separator : Char
  hour      : Nat
  minute    : Nat
  second    : Nat
  fraction  : List (Fin 10)
  suffix    : Option Suffix
  year_mem      : 1970 ≤ year ∧ year ≤ 9999
  month_mem     : 1 ≤ month ∧ month ≤ 12
  day_mem       : 1 ≤ day ∧ day ≤ daysInMonth year month
  separator_mem : separator = ' ' ∨ separator = 'T'
  hour_lt       : hour < 24
  minute_lt     : minute < 60
  second_lt     : second < 60
  fraction_le   : fraction.length ≤ 6
  suffix_valid  : ∀ s ∈ suffix, s.Valid

def twoDigits (n : Nat) : Str :=
  [(n / 10).digitChar, (n % 10).digitChar]

def Suffix.text : Suffix → Str
  | z                        => ['Z']
  | offset west hours minutes =>
    (if west then '-' else '+') :: twoDigits hours ++ ':' :: twoDigits minutes

namespace Timestamp

variable (t : Timestamp)

def fractionDigits : Str :=
  t.fraction.map (·.val.digitChar)

-- The text up to the seconds.
def whole : Str :=
  twoDigits (t.year / 100) ++ twoDigits (t.year % 100) ++ '-' :: twoDigits t.month ++
    '-' :: twoDigits t.day ++
    t.separator :: twoDigits t.hour ++ ':' :: twoDigits t.minute ++ ':' :: twoDigits t.second

def naive : Str :=
  if t.fraction = [] then t.whole else t.whole ++ '.' :: t.fractionDigits

def text : Str :=
  t.naive ++ t.suffix.elim [] Suffix.text

-- The days from 1970-01-01.
def days : Nat :=
  365 * (t.year - 1970) + ((t.year - 1) / 4 - (t.year - 1) / 100 + (t.year - 1) / 400 - 477) +
    ((List.range (t.month - 1)).map fun m => daysInMonth t.year (m + 1)).sum + (t.day - 1)

def seconds : Int :=
  t.days * 86400 + t.hour * 3600 + t.minute * 60 + t.second - t.suffix.elim 0 Suffix.seconds

def fractionMicros : Nat :=
  Nat.ofDigitChars 10 t.fractionDigits 0 * 10 ^ (6 - t.fraction.length)

def micros : Int :=
  t.seconds * 1000000 + t.fractionMicros

-- What is documented of `strftime` and of the parsers of `chrono`, for the text of `t`. RFC 3339
-- asks for an offset, and a format reads the texts with its own separator.
structure Documented (strftime : Str → Str → Option Str) (chrono : Chrono) : Prop where
  strftime : strftime "%s".toList t.text = some (toString t.seconds).toList
  rfc3339  : chrono.parseFromRfc3339 t.text = t.suffix.map fun _ => t.micros
  naive    : t.suffix = none → ∀ separator, separator = ' ' ∨ separator = 'T' →
    chrono.parseNaiveDateTime t.text ("%Y-%m-%d".toList ++ separator :: "%H:%M:%S%.f".toList) =
      if t.separator = separator then some t.micros else none

end Timestamp

end Migrate
