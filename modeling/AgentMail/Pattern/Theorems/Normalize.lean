import Mathlib.Data.List.DropRight
import AgentMail.Pattern.Theorems.Text

namespace Pattern

variable {s t : Str} {parts : List Str}

def isSeparator (c : Char) : Bool :=
  c = '/' || c = '\\'

-- The pieces of a path that remain when `.` and `..` are resolved.
def resolved (s : Str) : List Str :=
  (s.splitOnP isSeparator).foldl pushComponent []

theorem normalizePattern_eq : normalizePattern s = ['/'].intercalate (resolved (trim s)) :=
  rfl

theorem trim_eq : trim s = trimEnd (trimStart s) :=
  rfl

-- The pieces that normalizing keeps.
structure Kept (part : Str) : Prop extends IsComponent part where
  ne_dot     : part ≠ ['.']
  ne_dot_dot : part ≠ ['.', '.']

theorem pushComponent_kept {part : Str} (h : Kept part) :
    pushComponent parts part = parts ++ [part] := by
  simp [pushComponent, h.ne_nil, h.ne_dot, h.ne_dot_dot]

theorem foldl_kept {kept : List Str} (h : ∀ part ∈ kept, Kept part) :
    kept.foldl pushComponent parts = parts ++ kept := by
  induction kept generalizing parts
  case nil => simp
  case cons part kept hi =>
    rw [List.foldl_cons, pushComponent_kept (h part List.mem_cons_self),
      hi fun p hp => h p (List.mem_cons_of_mem _ hp), List.append_assoc]
    rfl

theorem ne_dots_of_foldl {components : List Str}
    (h : ∀ part ∈ parts, part ≠ ['.'] ∧ part ≠ ['.', '.']) :
    ∀ part ∈ components.foldl pushComponent parts, part ≠ ['.'] ∧ part ≠ ['.', '.'] := by
  induction components generalizing parts
  case nil => exact h
  case cons c components hi =>
    refine hi fun part hp => ?_
    unfold pushComponent at hp
    split at hp
    case isTrue => exact h part hp
    case isFalse hd =>
      split at hp
      case isTrue => exact h part ((List.dropLast_sublist _).subset hp)
      case isFalse hd' =>
        cases List.mem_append.mp hp
        case inl hp => exact h part hp
        case inr hp =>
          cases List.mem_singleton.mp hp
          exact ⟨fun he => hd (.inr he), hd'⟩

theorem no_separator_of_mem (h : t ∈ s.splitOnP isSeparator) : '/' ∉ t ∧ '\\' ∉ t :=
  ⟨fun hm => (of_mem_splitOnP h _ hm).right rfl, fun hm => (of_mem_splitOnP h _ hm).right rfl⟩

theorem resolved_kept : ∀ part ∈ resolved s, Kept part := by
  intro part hp
  have hc := isComponent_of_foldl (List.forall_mem_nil _) (fun _ => no_separator_of_mem) part hp
  have ⟨hd, hd'⟩ := ne_dots_of_foldl (List.forall_mem_nil _) part hp
  exact ⟨hc, hd, hd'⟩

-- Splitting and joining.

def NoSeparators (parts : List Str) : Prop :=
  ∀ part ∈ parts, ∀ c ∈ part, ¬isSeparator c

theorem splitOnP_intercalate (hn : parts ≠ []) (h : NoSeparators parts) :
    (['/'].intercalate parts).splitOnP isSeparator = parts := by
  induction parts
  case nil => exact absurd rfl hn
  case cons part parts hi =>
    have hp := h part List.mem_cons_self
    cases parts
    case nil => simpa using List.splitOnP_eq_singleton fun c hc => Bool.eq_false_iff.mpr (hp c hc)
    case cons part₁ parts =>
      rw [List.intercalate_cons_cons, List.append_assoc, List.singleton_append,
        List.splitOnP_append_cons_of_forall_mem (fun c hc => Bool.eq_false_iff.mpr (hp c hc)) _ rfl,
        hi nofun fun p hp => h p (List.mem_cons_of_mem _ hp)]

theorem Kept.no_separator {part : Str} (h : Kept part) : ∀ c ∈ part, ¬isSeparator c := by
  intro c hc hs
  rcases (by simpa [isSeparator] using hs : c = '/' ∨ c = '\\') with rfl | rfl
  · exact h.no_slash hc
  · exact h.no_backslash hc

-- The length of a path is determined by the lengths of its pieces.

def weight (parts : List Str) : Nat :=
  (parts.map fun part => part.length + 1).sum

theorem length_intercalate (h : parts ≠ []) :
    (['/'].intercalate parts).length + 1 = weight parts := by
  induction parts
  case nil => exact absurd rfl h
  case cons part parts hi =>
    cases parts
    case nil => simp [weight]
    case cons part₁ parts =>
      have hi := hi nofun
      rw [List.intercalate_cons_cons, List.append_assoc, List.length_append, List.length_append]
      simp only [weight, List.map_cons, List.sum_cons, List.length_singleton] at hi ⊢
      omega

theorem weight_splitOnP : weight (s.splitOnP isSeparator) = s.length + 1 := by
  induction s
  case nil => rfl
  case cons c s hi =>
    rw [List.splitOnP_cons_eq_if_modifyHead]
    split
    case isTrue =>
      simp only [weight, List.map_cons, List.sum_cons, List.length_nil, List.length_cons] at hi ⊢
      omega
    case isFalse =>
      have ⟨t, ts, ht⟩ := List.exists_cons_of_ne_nil (List.splitOnP_ne_nil isSeparator s)
      rw [ht] at hi ⊢
      simp only [weight, List.modifyHead_cons, List.map_cons, List.sum_cons,
        List.length_cons] at hi ⊢
      omega

theorem foldl_pushComponent_sublist {components : List Str} :
    (components.foldl pushComponent parts).Sublist (parts ++ components) := by
  induction components generalizing parts
  case nil => simp
  case cons c components hi =>
    refine hi.trans ?_
    unfold pushComponent
    split
    case isTrue => exact (List.Sublist.refl _).append (List.sublist_cons_self ..)
    case isFalse =>
      split
      case isTrue  => exact (List.dropLast_sublist _).append (List.sublist_cons_self ..)
      case isFalse => simp

theorem weight_le_of_sublist {parts' : List Str} (h : parts.Sublist parts') :
    weight parts ≤ weight parts' := by
  induction h
  case slnil => exact Nat.le_refl _
  case cons hi => simp only [weight, List.map_cons, List.sum_cons] at hi ⊢; omega
  case cons_cons hi => simp only [weight, List.map_cons, List.sum_cons] at hi ⊢; omega

theorem length_resolved_le : (['/'].intercalate (resolved s)).length ≤ s.length := by
  by_cases h : resolved s = []
  case pos => simp [h]
  case neg =>
    have hl := length_intercalate h
    have hs : (resolved s).Sublist ([] ++ s.splitOnP isSeparator) := foldl_pushComponent_sublist
    have hw : weight (resolved s) ≤ weight (s.splitOnP isSeparator) := weight_le_of_sublist hs
    rw [weight_splitOnP] at hw
    omega

-- Trimming.

theorem trimStart_suffix : trimStart s <:+ s :=
  List.dropWhile_suffix _

theorem trimEnd_prefix_self : trimEnd s <+: s := by
  have h := List.dropWhile_suffix isWhitespace (l := s.reverse)
  rw [← List.reverse_prefix, List.reverse_reverse] at h
  exact h

theorem exists_trimStart_append (s : Str) : ∃ ws, s = ws ++ trimStart s ∧
    ∀ c ∈ ws, isWhitespace c :=
  ⟨s.takeWhile isWhitespace, List.takeWhile_append_dropWhile.symm, fun _ => List.mem_takeWhile_imp⟩

theorem exists_trimEnd_append (s : Str) : ∃ ws, s = trimEnd s ++ ws ∧ ∀ c ∈ ws, isWhitespace c := by
  refine ⟨(s.reverse.takeWhile isWhitespace).reverse, ?_, fun c hc => ?_⟩
  · rw [trimEnd, ← List.reverse_append, List.takeWhile_append_dropWhile, List.reverse_reverse]
  · exact List.mem_takeWhile_imp (List.mem_reverse.mp hc)

theorem trimStart_trimStart : trimStart (trimStart s) = trimStart s :=
  List.dropWhile_idempotent ..

theorem trimEnd_trimEnd : trimEnd (trimEnd s) = trimEnd s := by
  rw [trimEnd, trimEnd, List.reverse_reverse, List.dropWhile_idempotent]

theorem trimStart_eq_self : trimStart s = s ↔ ∀ c, s.head? = some c → ¬isWhitespace c := by
  cases s
  case nil => exact iff_of_true rfl nofun
  case cons c s =>
    rw [trimStart, List.head?_cons]
    constructor
    case mpr => exact fun h => List.dropWhile_cons_of_neg (h c rfl)
    case mp  =>
      intro h d hd hw
      cases hd
      have hl := (List.dropWhile_suffix isWhitespace (l := s)).length_le
      rw [List.dropWhile_cons_of_pos hw] at h
      rw [h, List.length_cons] at hl
      omega

theorem trimEnd_eq_self : trimEnd s = s ↔ ∀ c, s.getLast? = some c → ¬isWhitespace c := by
  have h := trimStart_eq_self (s := s.reverse)
  rw [List.head?_reverse] at h
  rw [← h, trimStart, trimEnd]
  exact ⟨List.reverse_eq_iff.mp, List.reverse_eq_iff.mpr⟩

theorem trim_eq_self (h : ∀ c ∈ s, ¬isWhitespace c) : trim s = s := by
  have hs : trimStart s = s := trimStart_eq_self.mpr fun c hc => h c (List.mem_of_head? hc)
  have he : trimEnd s = s := trimEnd_eq_self.mpr fun c hc => h c (List.mem_of_getLast? hc)
  rw [trim_eq, hs, he]

theorem trimEnd_cons {c : Char} (h : ¬isWhitespace c) : trimEnd (c :: t) = c :: trimEnd t := by
  unfold trimEnd
  rw [List.reverse_cons, List.dropWhile_append]
  split
  case isTrue hd => simp [List.isEmpty_iff.mp hd, h]
  case isFalse   => simp

theorem trimEnd_append_of_ne_nil (h : trimEnd t ≠ []) : trimEnd (s ++ t) = s ++ trimEnd t := by
  unfold trimEnd at h ⊢
  rw [List.reverse_append, List.dropWhile_append, if_neg]
  · simp
  · simpa using h

section

variable {ws : Str} (h : ∀ c ∈ ws, isWhitespace c)

include h

theorem trimStart_whitespace : trimStart (ws ++ s) = trimStart s :=
  List.dropWhile_append_of_pos h

theorem trimEnd_whitespace : trimEnd (s ++ ws) = trimEnd s := by
  have h : ∀ c ∈ ws.reverse, isWhitespace c := fun c hc => h c (List.mem_reverse.mp hc)
  rw [trimEnd, List.reverse_append, List.dropWhile_append_of_pos h]
  rfl

end

theorem trim_trimEnd : trim (trimEnd s) = trim s := by
  have ⟨ws, hs, hw⟩ := exists_trimEnd_append s
  conv_rhs => rw [hs]
  generalize trimEnd s = x
  rw [trim_eq, trim_eq, trimStart, trimStart, List.dropWhile_append]
  split
  case isFalse   => exact (trimEnd_whitespace hw).symm
  case isTrue h  =>
    have hd : ws.dropWhile isWhitespace = [] := List.dropWhile_eq_nil_iff.mpr hw
    rw [List.isEmpty_iff.mp h, hd]

theorem trim_trimStart : trim (trimStart s) = trim s := by
  rw [trim_eq, trim_eq, trimStart_trimStart]

theorem trim_trim : trim (trim s) = trim s := by
  rw [trim_eq (s := s), trim_trimEnd, trim_trimStart, trim_eq]

theorem trimStart_append : trimStart (s ++ '/' :: t) = trimStart s ++ '/' :: t := by
  unfold trimStart
  rw [List.dropWhile_append]
  split
  case isTrue h =>
    rw [List.isEmpty_iff.mp h, List.dropWhile_cons_of_neg (by decide)]
    rfl
  case isFalse => rfl

theorem trimEnd_append : trimEnd (s ++ '/' :: t) = s ++ '/' :: trimEnd t := by
  unfold trimEnd
  rw [List.reverse_append, List.reverse_cons, List.append_assoc, List.dropWhile_append]
  split
  case isTrue h =>
    rw [List.isEmpty_iff.mp h, List.singleton_append, List.dropWhile_cons_of_neg (by decide)]
    simp
  case isFalse => simp

def trimHead : List Str → List Str
  | []            => []
  | part :: parts => trimStart part :: parts

def trimLast : List Str → List Str
  | []                     => []
  | [part]                 => [trimEnd part]
  | part :: part₁ :: parts => part :: trimLast (part₁ :: parts)

-- Separators are no whitespace, so that trimming a path trims its first and its last piece.

theorem trimStart_intercalate (parts : List Str) :
    trimStart (['/'].intercalate parts) = ['/'].intercalate (trimHead parts) := by
  match parts with
  | []                     => rfl
  | [part]                 => simp [trimHead]
  | part :: part₁ :: parts =>
    rw [trimHead, List.intercalate_cons_cons, List.intercalate_cons_cons, List.append_assoc,
      List.append_assoc]
    exact trimStart_append

theorem trimEnd_intercalate (parts : List Str) :
    trimEnd (['/'].intercalate parts) = ['/'].intercalate (trimLast parts) := by
  fun_induction trimLast parts
  case case1 => rfl
  case case2 => simp
  case case3 part part₁ parts hi =>
    have ⟨p, ps, hp⟩ : ∃ p ps, trimLast (part₁ :: parts) = p :: ps := by
      cases parts <;> exact ⟨_, _, rfl⟩
    rw [hp] at hi ⊢
    rw [List.intercalate_cons_cons, List.intercalate_cons_cons, List.append_assoc,
      List.append_assoc, ← hi]
    exact trimEnd_append

theorem trim_intercalate (parts : List Str) :
    trim (['/'].intercalate parts) = ['/'].intercalate (trimLast (trimHead parts)) := by
  rw [trim_eq, trimStart_intercalate, trimEnd_intercalate]

theorem trimHead_mem {part : Str} (h : part ∈ trimHead parts) :
    ∃ part' ∈ parts, part <:+ part' := by
  cases parts
  case nil => cases h
  case cons p ps =>
    cases List.mem_cons.mp h
    case inl h => exact ⟨p, List.mem_cons_self, h ▸ trimStart_suffix⟩
    case inr h => exact ⟨part, List.mem_cons_of_mem _ h, List.suffix_rfl⟩

theorem trimLast_mem {part : Str} (h : part ∈ trimLast parts) :
    ∃ part' ∈ parts, part <+: part' := by
  fun_induction trimLast parts
  case case1 => cases h
  case case2 p => exact ⟨p, List.mem_cons_self, List.mem_singleton.mp h ▸ trimEnd_prefix_self⟩
  case case3 p _ _ hi =>
    cases List.mem_cons.mp h
    case inl h => exact ⟨p, List.mem_cons_self, h ▸ List.prefix_rfl⟩
    case inr h =>
      have ⟨part', hm, hp⟩ := hi h
      exact ⟨part', List.mem_cons_of_mem _ hm, hp⟩

theorem NoSeparators.trimHead (h : NoSeparators parts) : NoSeparators (trimHead parts) := by
  intro part hp c hc
  have ⟨part', hm, hs⟩ := trimHead_mem hp
  exact h part' hm c (hs.subset hc)

theorem NoSeparators.trimLast (h : NoSeparators parts) : NoSeparators (trimLast parts) := by
  intro part hp c hc
  have ⟨part', hm, hs⟩ := trimLast_mem hp
  exact h part' hm c (hs.subset hc)

theorem trimHead_eq_nil : trimHead parts = [] ↔ parts = [] := by
  cases parts <;> simp [trimHead]

theorem trimLast_eq_nil : trimLast parts = [] ↔ parts = [] := by
  fun_cases trimLast parts <;> simp

-- The pieces that are found when a joined path is normalized.
theorem splitOnP_trim (hn : parts ≠ []) (h : NoSeparators parts) :
    (trim (['/'].intercalate parts)).splitOnP isSeparator = trimLast (trimHead parts) := by
  rw [trim_intercalate, splitOnP_intercalate _ h.trimHead.trimLast]
  rwa [Ne, trimLast_eq_nil, trimHead_eq_nil]

-- The first of the pieces does not start with whitespace, and the last one does not end with it.
def Tight (parts : List Str) : Prop :=
  (∀ part, parts.head? = some part → trimStart part = part) ∧
    ∀ part, parts.getLast? = some part → trimEnd part = part

theorem trimHead_eq_self : trimHead parts = parts ↔ ∀ part, parts.head? = some part →
    trimStart part = part := by
  cases parts <;> simp [trimHead]

theorem trimLast_eq_self : trimLast parts = parts ↔ ∀ part, parts.getLast? = some part →
    trimEnd part = part := by
  fun_induction trimLast parts
  case case1 => simp
  case case2 => simp
  case case3 hi => simpa [List.getLast?_cons_cons] using hi

theorem trim_infix_self : trim s <:+: s :=
  trimEnd_prefix_self.isInfix.trans trimStart_suffix.isInfix

theorem trimmed_eq_self (h : trim s = s) : trimStart s = s ∧ trimEnd s = s := by
  have hs : trimStart s = s := by
    refine trimStart_suffix.eq_of_length_le ?_
    have := (trimEnd_prefix_self (s := trimStart s)).length_le
    rw [← trim_eq, h] at this
    exact this
  exact ⟨hs, by rw [trim_eq, hs] at h; exact h⟩

theorem intercalate_inj {parts' : List Str} (hn : parts ≠ []) (hn' : parts' ≠ [])
    (h : NoSeparators parts) (h' : NoSeparators parts')
    (he : ['/'].intercalate parts = ['/'].intercalate parts') : parts = parts' := by
  rw [← splitOnP_intercalate hn h, he, splitOnP_intercalate hn' h']

theorem trim_intercalate_eq_self (hn : parts ≠ []) (h : NoSeparators parts) :
    trim (['/'].intercalate parts) = ['/'].intercalate parts ↔ Tight parts := by
  rw [Tight, ← trimHead_eq_self, ← trimLast_eq_self]
  constructor
  case mp =>
    intro ht
    have ⟨hs, he⟩ := trimmed_eq_self ht
    rw [trimStart_intercalate] at hs
    rw [trimEnd_intercalate] at he
    exact ⟨intercalate_inj (mt trimHead_eq_nil.mp hn) hn h.trimHead h hs,
      intercalate_inj (mt trimLast_eq_nil.mp hn) hn h.trimLast h he⟩
  case mpr =>
    intro ⟨hs, he⟩
    rw [trim_intercalate, hs, he]

theorem noSeparators_resolved : NoSeparators (resolved s) :=
  fun part hp => (resolved_kept part hp).no_separator

theorem resolved_intercalate (h : ∀ part ∈ parts, Kept part) :
    resolved (['/'].intercalate parts) = parts := by
  by_cases hn : parts = []
  case pos => subst hn; rfl
  case neg =>
    rw [resolved, splitOnP_intercalate hn fun part hp => (h part hp).no_separator, foldl_kept h,
      List.nil_append]

-- Normalizing does not lengthen a path, so a normalized path that is shorter without its outer
-- whitespace is normalized to another one.
theorem normalizePattern_idempotent_iff :
    normalizePattern (normalizePattern s) = normalizePattern s ↔ Tight (resolved (trim s)) := by
  by_cases hn : resolved (trim s) = []
  case pos =>
    rw [normalizePattern_eq (s := s), hn]
    exact iff_of_true rfl ⟨nofun, nofun⟩
  case neg =>
    rw [normalizePattern_eq (s := s), ← trim_intercalate_eq_self hn noSeparators_resolved,
      normalizePattern_eq]
    constructor
    case mpr => exact fun h => by rw [h, resolved_intercalate resolved_kept]
    case mp =>
      intro h
      have hl := length_resolved_le (s := trim (['/'].intercalate (resolved (trim s))))
      rw [h] at hl
      exact trim_infix_self.eq_of_length_le hl

-- Paths that disappear when they are normalized.

def Dropped (piece : Str) : Prop :=
  piece = [] ∨ piece = ['.']

instance (piece : Str) : Decidable (Dropped piece) :=
  inferInstanceAs (Decidable (_ ∨ _))

-- Nothing is left of the pieces when the outer whitespace is trimmed.
def Vanishes : List Str → Prop
  | [part]        => Dropped (trim part)
  | [first, last] => Dropped (trimStart first) ∧ Dropped (trimEnd last)
  | _             => False

theorem Kept.not_dropped {part : Str} (h : Kept part) : ¬Dropped part :=
  fun hd => hd.elim h.ne_nil h.ne_dot

theorem foldl_pushComponent_eq_nil {components : List Str} (h : ∀ c ∈ components, c ≠ ['.', '.']) :
    components.foldl pushComponent parts = [] ↔ parts = [] ∧ ∀ c ∈ components, Dropped c := by
  induction components generalizing parts
  case nil => simp
  case cons c components hi =>
    rw [List.foldl_cons, hi fun c hc => h c (List.mem_cons_of_mem _ hc), List.forall_mem_cons]
    unfold pushComponent
    split
    case isTrue hd  => exact and_congr_right fun _ => (and_iff_right hd).symm
    case isFalse hd =>
      rw [if_neg (h c List.mem_cons_self)]
      exact iff_of_false (by simp) fun hc => hd hc.right.left

theorem infix_intercalate {part : Str} (h : part ∈ parts) : part <:+: ['/'].intercalate parts := by
  induction parts
  case nil => cases h
  case cons p parts hi =>
    cases parts
    case nil =>
      cases List.mem_singleton.mp h
      simp
    case cons p₁ parts =>
      rw [List.intercalate_cons_cons]
      cases List.mem_cons.mp h
      case inl h => exact h ▸ ((List.prefix_append _ _).trans (List.prefix_append _ _)).isInfix
      case inr h => exact (hi h).trans (List.suffix_append _ _).isInfix

theorem intercalate_eq_nil (h : ∀ part ∈ parts, Kept part) : ['/'].intercalate parts = [] ↔
    parts = [] := by
  constructor
  case mpr => rintro rfl; rfl
  case mp  =>
    intro he
    rw [← resolved_intercalate h, he]
    rfl

theorem vanishes_iff (h : ∀ part ∈ parts, Kept part) (hn : parts ≠ []) :
    Vanishes parts ↔ ∀ c ∈ trimLast (trimHead parts), Dropped c := by
  match parts with
  | []          => exact absurd rfl hn
  | [part]      => simp [Vanishes, trimHead, trimLast, trim_eq]
  | [_, _]      => simp [Vanishes, trimHead, trimLast]
  | first :: part :: part₁ :: rest =>
    refine iff_of_false id fun hd => ?_
    exact (h part (by simp)).not_dropped (hd part (by simp [trimHead, trimLast]))

theorem normalizePattern_eq_nil_iff (h : ∀ part ∈ parts, Kept part) (hn : parts ≠ [])
    (hd : ¬['.', '.'] <:+: ['/'].intercalate parts) :
    normalizePattern (['/'].intercalate parts) = [] ↔ Vanishes parts := by
  have hs : NoSeparators parts := fun part hp => (h part hp).no_separator
  have hc : ∀ c ∈ trimLast (trimHead parts), c ≠ ['.', '.'] := by
    rintro c hc rfl
    have ⟨p, hp, hc⟩ := trimLast_mem hc
    have ⟨p', hp', hp⟩ := trimHead_mem hp
    exact hd ((hc.isInfix.trans hp.isInfix).trans (infix_intercalate hp'))
  rw [normalizePattern_eq, intercalate_eq_nil resolved_kept, resolved, splitOnP_trim hn hs,
    foldl_pushComponent_eq_nil hc, and_iff_right rfl, vanishes_iff h hn]

end Pattern
