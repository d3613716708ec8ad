import Mathlib.Data.List.TakeWhile
import AgentMail.Pattern.Basic

namespace Pattern

variable {ci : Bool} {s t pre full : Str}

-- Lowering the case of ASCII letters does not change the length of the encoding, and it neither
-- introduces nor removes a separator.

theorem toNat_toLower (c : Char) :
    c.toLower.toNat = if 65 ≤ c.toNat ∧ c.toNat ≤ 90 then c.toNat + 32 else c.toNat := by
  unfold Char.toLower
  by_cases h : c.val ≥ 'A'.val ∧ c.val ≤ 'Z'.val
  case neg =>
    have h' : ¬(65 ≤ c.toNat ∧ c.toNat ≤ 90) := h
    rw [dif_neg h, if_neg h']
  case pos =>
    have h' : 65 ≤ c.toNat ∧ c.toNat ≤ 90 := h
    rw [dif_pos h, if_pos h']
    show (c.val + 32).toNat = c.val.toNat + 32
    have : c.val.toNat ≤ 90 := h'.2
    rw [UInt32.toNat_add]
    simp
    omega

theorem toLower_eq_iff {c d : Char}
    (hd : d.toNat < 65 ∨ 90 < d.toNat ∧ d.toNat < 97 ∨ 122 < d.toNat) : c.toLower = d ↔ c = d := by
  rw [← Char.toNat_inj, ← Char.toNat_inj, toNat_toLower]
  split <;> omega

theorem toLower_eq_slash {c : Char} : c.toLower = '/' ↔ c = '/' :=
  toLower_eq_iff (by decide)

theorem utf8Size_congr {c d : Char} (h : c.toNat = d.toNat ∨ c.toNat < 128 ∧ d.toNat < 128) :
    c.utf8Size = d.utf8Size := by
  cases h
  case inl h => rw [Char.toNat_inj.mp h]
  case inr h =>
    have : c.utf8Size = 1 :=
      Char.utf8Size_eq_one_iff.mpr (UInt32.le_iff_toNat_le.mpr (Nat.le_of_lt_succ h.1))
    have : d.utf8Size = 1 :=
      Char.utf8Size_eq_one_iff.mpr (UInt32.le_iff_toNat_le.mpr (Nat.le_of_lt_succ h.2))
    omega

theorem utf8Size_toLower (c : Char) : c.toLower.utf8Size = c.utf8Size := by
  apply utf8Size_congr
  rw [toNat_toLower]
  split <;> omega

@[simp]
theorem fold_nil : fold ci [] = [] := by
  cases ci <;> rfl

@[simp]
theorem fold_eq_nil : fold ci s = [] ↔ s = [] := by
  cases ci <;> simp [fold]

@[simp]
theorem fold_append : fold ci (s ++ t) = fold ci s ++ fold ci t := by
  cases ci <;> simp [fold]

@[simp]
theorem fold_slash : fold ci ('/' :: s) = '/' :: fold ci s := by
  cases ci
  case false => rfl
  case true  => exact congrArg (· :: _) (toLower_eq_slash.mpr rfl)

theorem fold_cons {c : Char} : fold ci (c :: s) = fold ci [c] ++ fold ci s :=
  fold_append (s := [c])

theorem length_fold : (fold ci s).length = s.length := by
  cases ci <;> simp [fold]

theorem toLower_toLower (c : Char) : c.toLower.toLower = c.toLower := by
  rw [← Char.toNat_inj, toNat_toLower, toNat_toLower]
  split
  case isTrue h  => exact if_neg (by omega)
  case isFalse   => rfl

theorem fold_fold : fold ci (fold ci s) = fold ci s := by
  cases ci
  case false => rfl
  case true  => exact List.map_map.trans (List.map_congr_left fun c _ => toLower_toLower c)

theorem fold_eq_iff_forall₂ :
    fold ci s = fold ci t ↔ List.Forall₂ (fun c d => fold ci [c] = fold ci [d]) s t := by
  induction s generalizing t
  case nil => rw [List.forall₂_nil_left_iff, fold_nil, eq_comm, fold_eq_nil]
  case cons c s hi =>
    cases t
    case nil => simp
    case cons d t =>
      rw [fold_cons, fold_cons (c := d), List.forall₂_cons, ← hi]
      exact ⟨fun h => List.append_inj h (by simp [length_fold]), fun h => by rw [h.left, h.right]⟩

theorem textEq_iff : textEq ci s t ↔ fold ci s = fold ci t := by
  cases ci <;> simp [textEq, fold]

theorem byteLen_append (s t : Str) : byteLen (s ++ t) = byteLen s + byteLen t := by
  simp [byteLen]

theorem byteLen_fold (ci : Bool) (s : Str) : byteLen (fold ci s) = byteLen s := by
  cases ci
  case false => rfl
  case true  => simp [fold, byteLen, Function.comp_def, utf8Size_toLower]

theorem byteLen_eq_of_fold_eq (h : fold ci s = fold ci t) : byteLen s = byteLen t := by
  rw [← byteLen_fold ci, h, byteLen_fold]

theorem fold_eq_append {a b : Str} (h : fold ci s = a ++ b) :
    ∃ s₁ s₂, s = s₁ ++ s₂ ∧ fold ci s₁ = a ∧ fold ci s₂ = b := by
  cases ci
  case false => exact ⟨a, b, h, rfl, rfl⟩
  case true  => exact List.map_eq_append_iff.mp h

theorem fold_eq_slash {a : Str} (h : fold ci s = '/' :: a) : ∃ s', s = '/' :: s' ∧
    fold ci s' = a := by
  cases ci
  case false => exact ⟨a, h, rfl⟩
  case true  =>
    have ⟨c, s', hs, hc, ha⟩ := List.map_eq_cons_iff.mp h
    exact ⟨s', toLower_eq_slash.mp hc ▸ hs, ha⟩

theorem byteLen_cons (c : Char) (s : Str) : byteLen (c :: s) = c.utf8Size + byteLen s := by
  simp [byteLen]

theorem sliceTo_cons (c : Char) (s : Str) (n : Nat) :
    sliceTo (c :: s) (c.utf8Size + n) = (sliceTo s n).map (c :: ·) := by
  have ⟨m, hm⟩ := Nat.exists_eq_add_one.mpr c.utf8Size_pos
  have hn : c.utf8Size + n = (m + n) + 1 := by omega
  rw [hn, sliceTo, if_pos (by omega)]
  congr 2
  omega

theorem slashAt_cons (c : Char) (s : Str) (n : Nat) :
    slashAt (c :: s) (c.utf8Size + n) = slashAt s n := by
  have ⟨m, hm⟩ := Nat.exists_eq_add_one.mpr c.utf8Size_pos
  have hn : c.utf8Size + n = (m + n) + 1 := by omega
  have hs : (m + n) + 1 - c.utf8Size = n := by omega
  rw [hn, slashAt, hs]
  simp
  omega

theorem sliceTo_append (s t : Str) : sliceTo (s ++ t) (byteLen s) = some s := by
  induction s
  case nil         => cases t <;> rfl
  case cons c s hi => simp [byteLen_cons, sliceTo_cons, hi]

theorem slashAt_append (s t : Str) : slashAt (s ++ t) (byteLen s) ↔ ∃ t', t = '/' :: t' := by
  induction s
  case nil         => cases t <;> simp [slashAt, byteLen]
  case cons c s hi => simpa [byteLen_cons, slashAt_cons] using hi

theorem of_sliceTo {n : Nat} (h : sliceTo s n = some t) : t <+: s ∧ byteLen t = n := by
  fun_induction sliceTo s n generalizing t
  case case1 => simp_all [byteLen]
  case case2 => simp at h
  case case3 c s n hc hi =>
    have ⟨t', ht', he⟩ := Option.map_eq_some_iff.mp h
    have ⟨hp, hl⟩ := hi ht'
    subst he
    refine ⟨List.cons_prefix_cons.mpr ⟨rfl, hp⟩, ?_⟩
    rw [byteLen_cons]
    omega
  case case4 => simp at h

theorem splitOn_fold (s : Str) : (fold ci s).splitOn '/' = (s.splitOn '/').map (fold ci) := by
  induction s
  case nil => simp
  case cons c s hi =>
    have ⟨l, ls, hl⟩ := List.exists_cons_of_ne_nil (List.splitOn_ne_nil '/' s)
    by_cases hc : c = '/'
    case pos => simp [hc, List.splitOn_cons_eq_if_modifyHead, hi]
    case neg =>
      have ⟨d, hd, hd'⟩ : ∃ d, fold ci [c] = [d] ∧ d ≠ '/' := by
        cases ci
        case false => exact ⟨c, rfl, hc⟩
        case true  => exact ⟨c.toLower, rfl, toLower_eq_slash.not.mpr hc⟩
      have hf : fold ci (c :: s) = d :: fold ci s := by rw [fold_cons, hd]; rfl
      have hm : fold ci (c :: l) = d :: fold ci l := by rw [fold_cons, hd]; rfl
      simp [hf, List.splitOn_cons_eq_if_modifyHead, hd', hc, hi, hl, hm]

theorem forall₂_congr_mem {R S : Str → Str → Prop} {l l' : List Str}
    (h : ∀ a ∈ l, ∀ b, R a b ↔ S a b) : List.Forall₂ R l l' ↔ List.Forall₂ S l l' := by
  induction l generalizing l' <;> cases l' <;> simp_all

theorem join_splitOn (s : Str) : ['/'].intercalate (s.splitOn '/') = s :=
  List.intercalate_splitOn '/'

theorem fold_eq_iff_splitOn : fold ci s = fold ci t ↔
    List.Forall₂ (fun l r => fold ci l = fold ci r) (s.splitOn '/') (t.splitOn '/') := by
  rw [← List.forall₂_map_right_iff (R := fun l r => fold ci l = r),
    ← List.forall₂_map_left_iff (R := fun l r => l = r), List.forall₂_eq_eq_eq, ← splitOn_fold,
    ← splitOn_fold]
  constructor
  case mp  => exact congrArg _
  case mpr =>
    intro h
    rw [← join_splitOn (fold ci s), h, join_splitOn]

-- A path below a directory, up to letter case.
def Below (ci : Bool) (pre full : Str) : Prop :=
  ∃ s t, full = s ++ '/' :: t ∧ fold ci s = fold ci pre

theorem below_iff : Below ci pre full ↔ fold ci pre ++ ['/'] <+: fold ci full := by
  constructor
  case mp =>
    intro ⟨s, t, hf, hs⟩
    exact ⟨fold ci t, by simp [hf, hs]⟩
  case mpr =>
    intro ⟨r, hr⟩
    have ⟨s, t, hf, hs, ht⟩ := fold_eq_append (hr.symm.trans (List.append_assoc ..))
    have ⟨t', ht', _⟩ := fold_eq_slash ht
    exact ⟨s, t', ht' ▸ hf, hs⟩

theorem isTextPrefix_iff :
    isTextPrefix ci pre full = some true ↔ ∃ s t, full = s ++ t ∧ fold ci s = fold ci pre := by
  cases ci
  case false =>
    simp only [isTextPrefix, Bool.false_eq_true, if_false, Option.some.injEq,
      List.isPrefixOf_iff_prefix]
    constructor
    case mp  => exact fun ⟨t, ht⟩ => ⟨pre, t, ht.symm, rfl⟩
    case mpr => exact fun ⟨s, t, hf, hs⟩ => ⟨t, ((show s = pre from hs) ▸ hf).symm⟩
  case true =>
    simp only [isTextPrefix, if_true]
    constructor
    case mp =>
      intro h
      split at h
      case isFalse => cases h
      case isTrue =>
        have ⟨s, hs, he⟩ := Option.map_eq_some_iff.mp h
        have ⟨⟨t, ht⟩, _⟩ := of_sliceTo hs
        exact ⟨s, t, ht.symm, textEq_iff.mp he⟩
    case mpr =>
      intro ⟨s, t, hf, hs⟩
      have hl := byteLen_eq_of_fold_eq hs
      rw [if_pos (by simp [hf, byteLen_append, hl]), hf, ← hl, sliceTo_append]
      simp [textEq_iff, hs]

theorem isDirectoryPrefix_iff :
    isDirectoryPrefix ci pre full = some true ↔ pre = [] ∨ Below ci pre full := by
  by_cases hp : pre = []
  case pos => simp [isDirectoryPrefix, hp]
  simp only [isDirectoryPrefix, List.isEmpty_iff, hp, if_false, false_or, Option.map_eq_some_iff,
    Bool.and_eq_true]
  constructor
  case mp =>
    intro ⟨b, hb, hb', hl⟩
    have ⟨s, t, hf, hs⟩ := isTextPrefix_iff.mp (hb' ▸ hb)
    have ⟨t', ht'⟩ := (slashAt_append s t).mp (hf ▸ byteLen_eq_of_fold_eq hs ▸ hl)
    exact ⟨s, t', ht' ▸ hf, hs⟩
  case mpr =>
    intro ⟨s, t, hf, hs⟩
    refine ⟨true, isTextPrefix_iff.mpr ⟨s, _, hf, hs⟩, rfl, ?_⟩
    rw [hf, ← byteLen_eq_of_fold_eq hs]
    exact (slashAt_append ..).mpr ⟨t, rfl⟩

theorem isDirectoryPrefix_caseSensitive : isDirectoryPrefix false pre full ≠ none := by
  simp only [isDirectoryPrefix, isTextPrefix]
  split <;> simp

-- The first segment of a path.
def head (s : Str) : Str :=
  s.takeWhile (· ≠ '/')

theorem splitOn_eq_head_cons (s : Str) : ∃ rest, s.splitOn '/' = head s :: rest := by
  induction s
  case nil => exact ⟨[], rfl⟩
  case cons c s hi =>
    have ⟨rest, hr⟩ := hi
    rw [List.splitOn_cons_eq_if_modifyHead]
    by_cases hc : c = '/'
    case pos => exact ⟨s.splitOn '/', by simp [head, hc]⟩
    case neg => exact ⟨rest, by simp [hc, hr, head]⟩

theorem not_mem_head (s : Str) : '/' ∉ head s := by
  intro h
  simpa using List.mem_takeWhile_imp h

theorem head_append_slash (s t : Str) : head (s ++ '/' :: t) = head s := by
  induction s
  case nil         => simp [head]
  case cons c s hi => by_cases hc : c = '/' <;> simp_all [head]

theorem fold_head (s : Str) : fold ci (head s) = head (fold ci s) := by
  cases ci
  case false => rfl
  case true =>
    simp only [fold, head, if_true, List.takeWhile_map]
    congr 2
    funext c
    simp [toLower_eq_slash]

-- A path starts with its first segment.
theorem eq_head_append (s : Str) : s = head s ∨ ∃ t, s = head s ++ '/' :: t := by
  induction s
  case nil => exact .inl rfl
  case cons c s hi =>
    by_cases hc : c = '/'
    case pos => exact .inr ⟨s, by simp [head, hc]⟩
    case neg =>
      have hh : head (c :: s) = c :: head s := by simp [head, hc]
      cases hi
      case inl hi => exact .inl (by rw [hh, ← hi])
      case inr hi =>
        have ⟨t, ht⟩ := hi
        exact .inr ⟨t, by rw [hh, List.cons_append, ← ht]⟩

theorem head_head (s : Str) : head (head s) = head s := by
  refine List.takeWhile_eq_self_iff.mpr fun c hc => ?_
  simp only [decide_eq_true_eq]
  rintro rfl
  exact not_mem_head s hc

theorem Below.head_eq (h : Below ci pre full) : fold ci (head full) = fold ci (head pre) := by
  have ⟨s, t, hf, hs⟩ := h
  rw [hf, head_append_slash, fold_head, fold_head, hs]

theorem head_eq_of_fold_eq (h : fold ci s = fold ci t) : fold ci (head s) = fold ci (head t) := by
  rw [fold_head, fold_head, h]

theorem of_mem_splitOnP {p : Char → Bool} {l : Str} (h : l ∈ s.splitOnP p) :
    ∀ c ∈ l, c ∈ s ∧ ¬p c := by
  induction s generalizing l
  case nil => simp_all
  case cons c s hi =>
    have hm {l : Str} (h : l ∈ s.splitOnP p) : ∀ d ∈ l, d ∈ c :: s ∧ ¬p d :=
      fun d hd => ⟨List.mem_cons_of_mem _ (hi h d hd).left, (hi h d hd).right⟩
    rw [List.splitOnP_cons_eq_if_modifyHead] at h
    split at h
    case isTrue =>
      cases List.mem_cons.mp h
      case inl h => simp [h]
      case inr h => exact hm h
    case isFalse hc =>
      have ⟨l', ls, hl⟩ := List.exists_cons_of_ne_nil (List.splitOnP_ne_nil p s)
      rw [hl, List.modifyHead_cons] at h
      cases List.mem_cons.mp h
      case inr h => exact hm (hl ▸ List.mem_cons_of_mem _ h)
      case inl h =>
        subst h
        intro d hd
        cases List.mem_cons.mp hd
        case inl hd => subst hd; exact ⟨List.mem_cons_self, hc⟩
        case inr hd => exact hm (hl ▸ List.mem_cons_self) d hd

theorem of_mem_splitOn {l : Str} (h : l ∈ s.splitOn '/') : '/' ∉ l ∧ ∀ c ∈ l, c ∈ s := by
  rw [List.splitOn_eq_splitOnP] at h
  exact ⟨fun hm => (of_mem_splitOnP h _ hm).right (beq_self_eq_true _),
    fun c hc => (of_mem_splitOnP h c hc).left⟩

-- The components that normalized paths are joined from.
structure IsComponent (part : Str) : Prop where
  ne_nil       : part ≠ []
  no_slash     : '/' ∉ part
  no_backslash : '\\' ∉ part

theorem isComponent_of_foldl {components parts : List Str}
    (hp : ∀ part ∈ parts, IsComponent part)
    (hc : ∀ c ∈ components, '/' ∉ c ∧ '\\' ∉ c) :
    ∀ part ∈ components.foldl pushComponent parts, IsComponent part := by
  induction components generalizing parts
  case nil => exact hp
  case cons c components hi =>
    refine hi ?_ fun c hc' => hc c (List.mem_cons_of_mem _ hc')
    intro part hpart
    unfold pushComponent at hpart
    split at hpart
    case isTrue => exact hp part hpart
    case isFalse hn =>
      split at hpart
      case isTrue  => exact hp part ((List.dropLast_sublist _).subset hpart)
      case isFalse =>
        cases List.mem_append.mp hpart
        case inl h => exact hp part h
        case inr h =>
          have hc := hc c List.mem_cons_self
          cases List.mem_singleton.mp h
          exact ⟨fun h => hn (.inl h), hc.left, hc.right⟩

-- What normalized paths have in common.
structure Normalized (norm : Str) : Prop where
  no_backslash : '\\' ∉ norm
  head_ne_nil  : norm ≠ [] → head norm ≠ []

theorem normalized_intercalate {parts : List Str} (h : ∀ part ∈ parts, IsComponent part) :
    Normalized (['/'].intercalate parts) := by
  induction parts
  case nil => exact ⟨nofun, nofun⟩
  case cons part parts hi =>
    have hp := h part List.mem_cons_self
    have ⟨c, part', hc⟩ := List.exists_cons_of_ne_nil hp.ne_nil
    have hs : c ≠ '/' := fun hs => hp.no_slash (by simp [hc, hs])
    have hi := hi fun p hm => h p (List.mem_cons_of_mem _ hm)
    cases parts
    case nil =>
      exact ⟨by simpa using hp.no_backslash, fun _ => by simp [head, hc, hs]⟩
    case cons part₁ parts =>
      rw [List.intercalate_cons_cons]
      refine ⟨?_, fun _ => by simp [head, hc, hs]⟩
      have := hi.no_backslash
      simp [hp.no_backslash, this]

theorem normalized_normalizePattern (raw : Str) : Normalized (normalizePattern raw) := by
  apply normalized_intercalate
  apply isComponent_of_foldl (by simp)
  intro c hc
  have h := of_mem_splitOnP hc
  exact ⟨fun hm => (h _ hm).right rfl, fun hm => (h _ hm).right rfl⟩

end Pattern
