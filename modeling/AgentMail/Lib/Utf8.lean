import Mathlib.Tactic.Common

-- Texts as bytes.

namespace Utf8

def encode (s : List Char) : List UInt8 :=
  s.flatMap String.utf8EncodeChar

def isContinuation (b : UInt8) : Bool :=
  0x80 ≤ b ∧ b ≤ 0xBF

-- The second bytes that a sequence of three or four bytes may have.
def isSecond (lead second : UInt8) : Bool :=
  if lead = 0xE0 then
    0xA0 ≤ second ∧ second ≤ 0xBF
  else if lead = 0xED then
    0x80 ≤ second ∧ second ≤ 0x9F
  else if lead = 0xF0 then
    0x90 ≤ second ∧ second ≤ 0xBF
  else if lead = 0xF4 then
    0x80 ≤ second ∧ second ≤ 0x8F
  else
    (0xE1 ≤ lead ∧ lead ≤ 0xF3) && isContinuation second

-- How many bytes stand for one replacement character where no character can be read.
def invalidLength : List UInt8 → Nat
  | lead :: second :: rest =>
    if isSecond lead second then
      if 0xF0 ≤ lead ∧ (rest.head?.map isContinuation).getD false then 3 else 2
    else
      1
  | _ => 1

def lossyUpTo : Nat → List UInt8 → List Char
  | 0, _            => []
  | _, []           => []
  | n + 1, b :: bytes =>
    match (b :: bytes).toByteArray.utf8DecodeChar? 0 with
    | some c => c :: lossyUpTo n ((b :: bytes).drop c.utf8Size)
    | none   => '\uFFFD' :: lossyUpTo n ((b :: bytes).drop (invalidLength (b :: bytes)))

-- `String::from_utf8_lossy`
def fromUtf8Lossy (bytes : List UInt8) : List Char :=
  lossyUpTo bytes.length bytes

theorem encode_cons (c : Char) (s : List Char) :
    encode (c :: s) = String.utf8EncodeChar c ++ encode s :=
  List.flatMap_cons

theorem lossyUpTo_utf8EncodeChar (n : Nat) (c : Char) (bytes : List UInt8) :
    lossyUpTo (n + 1) (String.utf8EncodeChar c ++ bytes) = c :: lossyUpTo n bytes := by
  have hd : (String.utf8EncodeChar c ++ bytes).toByteArray.utf8DecodeChar? 0 = some c := by
    rw [List.toByteArray_append]
    exact ByteArray.utf8DecodeChar?_utf8EncodeChar_append
  have hl : (String.utf8EncodeChar c ++ bytes).drop c.utf8Size = bytes := by
    rw [← String.length_utf8EncodeChar, List.drop_left]
  cases hb : String.utf8EncodeChar c ++ bytes
  case nil => exact (String.utf8EncodeChar_ne_nil (List.append_eq_nil_iff.mp hb).left).elim
  case cons =>
    rw [hb] at hd hl
    simp only [lossyUpTo, hd, hl]

theorem lossyUpTo_encode {s : List Char} : ∀ {n}, (encode s).length ≤ n →
    lossyUpTo n (encode s) = s := by
  induction s
  case nil =>
    intro n _
    cases n <;> rfl
  case cons c s hi =>
    intro n hn
    rw [encode_cons, List.length_append, String.length_utf8EncodeChar] at hn
    have hc := c.utf8Size_pos
    obtain ⟨n, rfl⟩ : ∃ m, n = m + 1 := ⟨n - 1, by omega⟩
    rw [encode_cons, lossyUpTo_utf8EncodeChar, hi (by omega)]

-- Valid texts are read as they are.
theorem fromUtf8Lossy_encode (s : List Char) : fromUtf8Lossy (encode s) = s :=
  lossyUpTo_encode (Nat.le_refl _)

end Utf8
