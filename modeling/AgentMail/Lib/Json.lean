import AgentMail.Lib.Float64

-- Parsed JSON, where the fields of an object are in the order of the text and have distinct names.

inductive JsonNumber
  | posInt (n : UInt64)
  | negInt (n : Int64)
  | float (f : Float64)
  deriving DecidableEq

def JsonNumber.asI64 : JsonNumber → Option Int
  | .posInt n => if n.toNat < 2 ^ 63 then some n.toNat else none
  | .negInt n => some n.toInt
  | .float _  => none

inductive Json
  | null
  | bool (b : Bool)
  | number (n : JsonNumber)
  | string (s : List Char)
  | array (values : List Json)
  | object (fields : List (List Char × Json))

namespace Json

def get? (key : List Char) : Json → Option Json
  | .object fields => (fields.find? (·.fst = key)).map Prod.snd
  | _              => none

def asStr : Json → Option (List Char)
  | .string s => some s
  | _         => none

def asBool : Json → Option Bool
  | .bool b => some b
  | _       => none

def asI64 : Json → Option Int
  | .number n => n.asI64
  | _         => none

theorem asI64_lt {value : Json} {n : Int} (h : value.asI64 = some n) : n < 2 ^ 63 := by
  unfold asI64 JsonNumber.asI64 at h
  split at h
  case h_2 => exact nomatch h
  case h_1 number =>
    cases number
    case float => exact nomatch h
    case negInt m =>
      cases h
      exact m.toInt_lt
    case posInt m =>
      have ⟨hm, he⟩ := Option.ite_none_right_eq_some.mp h
      cases he
      omega

mutual

def beq : Json → Json → Bool
  | .null, .null         => true
  | .bool a, .bool b     => a == b
  | .number a, .number b => a == b
  | .string a, .string b => a == b
  | .array a, .array b   => beqValues a b
  | .object a, .object b => beqFields a b
  | _, _                 => false

def beqValues : List Json → List Json → Bool
  | [], []         => true
  | a :: as, b :: bs => a.beq b && beqValues as bs
  | _, _           => false

def beqFields : List (List Char × Json) → List (List Char × Json) → Bool
  | [], []                     => true
  | (k, a) :: as, (l, b) :: bs => k == l && a.beq b && beqFields as bs
  | _, _                       => false

end

mutual

theorem eq_of_beq {a b : Json} (h : a.beq b) : a = b := by
  cases a <;> cases b <;> simp only [beq, Bool.false_eq_true, beq_iff_eq] at h
  case null.null => rfl
  case bool.bool => rw [h]
  case number.number => rw [h]
  case string.string => rw [h]
  case array.array => rw [eq_of_beqValues h]
  case object.object => rw [eq_of_beqFields h]

theorem eq_of_beqValues {as bs : List Json} (h : beqValues as bs) : as = bs := by
  cases as <;> cases bs <;> simp only [beqValues, Bool.false_eq_true, Bool.and_eq_true] at h
  case nil.nil   => rfl
  case cons.cons => rw [eq_of_beq h.left, eq_of_beqValues h.right]

theorem eq_of_beqFields {as bs : List (List Char × Json)} (h : beqFields as bs) : as = bs := by
  cases as <;> cases bs <;> simp only [beqFields, Bool.false_eq_true, Bool.and_eq_true,
    beq_iff_eq] at h
  case nil.nil   => rfl
  case cons.cons a as b bs =>
    obtain ⟨⟨hk, h⟩, hs⟩ := h
    rw [Prod.ext hk (eq_of_beq h), eq_of_beqFields hs]

end

mutual

theorem beq_self (a : Json) : a.beq a := by
  cases a <;> simp only [beq, beq_self_eq_true]
  case array values  => exact beqValues_self values
  case object fields => exact beqFields_self fields

theorem beqValues_self (as : List Json) : beqValues as as := by
  cases as
  case nil       => rfl
  case cons a as => simp only [beqValues, beq_self a, beqValues_self as, Bool.and_self]

theorem beqFields_self (as : List (List Char × Json)) : beqFields as as := by
  cases as
  case nil => rfl
  case cons a as =>
    obtain ⟨k, a⟩ := a
    simp only [beqFields, beq_self a, beqFields_self as, beq_self_eq_true, Bool.and_self]

end

instance : DecidableEq Json :=
  fun a b => decidable_of_iff (a.beq b) ⟨eq_of_beq, fun h => h ▸ a.beq_self⟩

-- The value nests at most so many arrays and objects.
inductive Within : Nat → Json → Prop
  | null {n} : Within n .null
  | bool {n b} : Within n (.bool b)
  | number {n x} : Within n (.number x)
  | string {n s} : Within n (.string s)
  | array {n values} (h : ∀ value ∈ values, Within n value) : Within (n + 1) (.array values)
  | object {n fields} (h : ∀ field ∈ fields, Within n field.snd) : Within (n + 1) (.object fields)

-- What holds of all keys and of all strings of the value.
inductive All (key string : List Char → Prop) : Json → Prop
  | null : All key string .null
  | bool {b} : All key string (.bool b)
  | number {n} : All key string (.number n)
  | string {s} (h : string s) : All key string (.string s)
  | array {values} (h : ∀ value ∈ values, All key string value) : All key string (.array values)
  | object {fields} (hk : ∀ field ∈ fields, key field.fst)
      (h : ∀ field ∈ fields, All key string field.snd) :
    All key string (.object fields)

variable {key key' string string' : List Char → Prop} {s : List Char} {value : Json}
  {values : List Json} {fields : List (List Char × Json)}

theorem Within.mono {m n : Nat} (h : value.Within m) (hn : m ≤ n) : value.Within n := by
  induction h generalizing n
  case null   => exact .null
  case bool   => exact .bool
  case number => exact .number
  case string => exact .string
  case array m values _ hi =>
    obtain ⟨n, rfl⟩ := Nat.exists_eq_succ_of_ne_zero (Nat.ne_zero_of_lt hn)
    exact .array fun value hv => hi value hv (Nat.le_of_succ_le_succ hn)
  case object m fields _ hi =>
    obtain ⟨n, rfl⟩ := Nat.exists_eq_succ_of_ne_zero (Nat.ne_zero_of_lt hn)
    exact .object fun field hf => hi field hf (Nat.le_of_succ_le_succ hn)

theorem all_string : All key string (.string s) ↔ string s :=
  ⟨fun | .string h => h, .string⟩

theorem all_array : All key string (.array values) ↔ ∀ value ∈ values, value.All key string :=
  ⟨fun | .array h => h, .array⟩

theorem all_object : All key string (.object fields) ↔ ∀ field ∈ fields, key field.fst ∧
    field.snd.All key string := by
  constructor
  case mp  => exact fun | .object hk h => fun field hm => ⟨hk field hm, h field hm⟩
  case mpr => exact fun h => .object (fun field hm => (h field hm).left) fun field hm =>
    (h field hm).right

theorem All.and (h : value.All key string) (h' : value.All key' string') :
    value.All key fun s => string s ∧ string' s := by
  induction h
  case null           => exact .null
  case bool           => exact .bool
  case number         => exact .number
  case string h       => exact .string ⟨h, all_string.mp h'⟩
  case array _ hi     => exact .array fun value hm => hi value hm (all_array.mp h' value hm)
  case object hk _ hi =>
    exact .object hk fun field hm => hi field hm (all_object.mp h' field hm).right

theorem All.imp (h : value.All key string) (hs : ∀ s, string s → string' s) :
    value.All key string' := by
  induction h
  case null           => exact .null
  case bool           => exact .bool
  case number         => exact .number
  case string h       => exact .string (hs _ h)
  case array _ hi     => exact .array hi
  case object hk _ hi => exact .object hk hi

end Json
