import AgentMail.Reservation.Store
import Mathlib.Algebra.Order.Field.Rat

open Pattern
open Reservation (Platform SqlValue isUnreleased trimSpaces)

namespace Guard

-- The sign, the digits and the fraction at the start of a text, and what comes after them.
structure Numeral where
  negative : Bool
  whole    : Str
  fraction : Str
  rest     : Str
  deriving DecidableEq

def splitSign : Str → Bool × Str
  | '-' :: s => (true, s)
  | '+' :: s => (false, s)
  | s        => (false, s)

def scanFraction (negative : Bool) (whole : Str) : Str → Numeral
  | '.' :: s => ⟨negative, whole, s.takeWhile Char.isDigit, s.dropWhile Char.isDigit⟩
  | rest     => ⟨negative, whole, [], rest⟩

def scanNumeral (s : Str) : Numeral :=
  let (negative, s) := splitSign s
  scanFraction negative (s.takeWhile Char.isDigit) (s.dropWhile Char.isDigit)

namespace Numeral

def hasDigits (n : Numeral) : Bool :=
  n.whole ≠ [] || n.fraction ≠ []

def value (n : Numeral) : ℚ :=
  let digits := (n.whole ++ n.fraction).foldl (fun m c => 10 * m + (c.toNat - '0'.toNat)) 0
  let magnitude : ℚ := digits / 10 ^ n.fraction.length
  if n.negative then -magnitude else magnitude

end Numeral

def isNumeralChar (c : Char) : Bool :=
  c.isDigit || c = '.' || c = '+' || c = '-'

section

-- The number that stands for a decimal one.
variable (nearest : ℚ → ℚ)

-- `parse::<f64>()` on a text of digits, dots and signs
def parseF64 (s : Str) : Option ℚ :=
  let n := scanNumeral s
  if n.hasDigits ∧ n.rest = [] then some (nearest n.value) else none

-- `CAST(.. AS REAL)` on such a text, which reads the longest prefix that is a number
def castReal (s : Str) : ℚ :=
  let n := scanNumeral s
  if n.hasDigits then nearest n.value else 0

-- The field `released_ts` of an artifact in the archive.
inductive JsonValue
  | null
  | number (value : ℚ)
  | string (text : Str)
  | other

def releasedTsMarksRecordReleased : JsonValue → Bool
  | .null         => false
  | .number value => 0 < value
  | .string text  =>
    let trimmed := trim text
    if trimmed = [] || fold true trimmed = "null".toList || fold true trimmed = "none".toList ||
      trimmed = ['0'] then
      false
    else if trimmed.all isNumeralChar then
      (parseF64 nearest trimmed).any (0 < ·)
    else
      true
  | .other        => false

def archived : SqlValue → JsonValue
  | .null      => .null
  | .integer n => .number n
  | .real q    => .number q
  | .text s    => .string s
  | .blob      => .other

def guardActive (value : SqlValue) : Bool :=
  !releasedTsMarksRecordReleased nearest (archived value)

def serverActive (pf : Platform) (value : SqlValue) : Bool :=
  isUnreleased { pf with castReal := castReal nearest } value

end

-- A text of digits, dots and signs that is no number.
structure Malformed (text : Str) : Prop where
  nonempty : text ≠ []
  chars    : ∀ c ∈ text, isNumeralChar c
  parse    : parseF64 id text = none

-- The texts that begin or end with another white space than the space are left out.
def Spaced : SqlValue → Prop
  | .text s => trim s = trimSpaces s
  | .blob   => False
  | _       => True

end Guard
