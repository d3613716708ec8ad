import Mathlib.Computability.Language
import Mathlib.Data.List.Infix
import Mathlib.Order.CompletePartialOrder

-- Regular expressions in which only classes of characters are repeated, the divisions of a text by
-- what they match, and one way to find them, by backtracking.

inductive Regex (α : Type)
  | empty
  | cls (p : α → Bool)
  | star (greedy : Bool) (p : α → Bool)
  | seq (r₁ r₂ : Regex α)
  | alt (r₁ r₂ : Regex α)

namespace Regex

variable {α : Type}

def language : Regex α → Language α
  | empty     => 1
  | cls p     => { w | ∃ c, p c ∧ w = [c] }
  | star _ p  => { w | ∀ c ∈ w, p c }
  | seq r₁ r₂ => r₁.language * r₂.language
  | alt r₁ r₂ => r₁.language + r₂.language

-- The rests of a text behind a repeated class, the longest match first or last.
def starRests (greedy : Bool) (p : α → Bool) : List α → List (List α)
  | []     => [[]]
  | c :: s =>
    if p c then
      if greedy then starRests greedy p s ++ [c :: s] else (c :: s) :: starRests greedy p s
    else
      [c :: s]

-- The rests of a text behind a match at its front, in the order in which backtracking comes to
-- them.
def rests : Regex α → List α → List (List α)
  | empty, s     => [s]
  | cls _, []    => []
  | cls p, c :: s => if p c then [s] else []
  | star g p, s  => starRests g p s
  | seq r₁ r₂, s => (r₁.rests s).flatMap r₂.rests
  | alt r₁ r₂, s => r₁.rests s ++ r₂.rests s

def times (p : α → Bool) : Nat → Regex α
  | 0     => empty
  | n + 1 => seq (cls p) (times p n)

-- `{n,}`
def atLeast (p : α → Bool) (n : Nat) : Regex α :=
  seq (times p n) (star true p)

section Language

variable {p : α → Bool} {g : Bool} {r r₁ r₂ : Regex α} {s rest w : List α} {n : Nat}

theorem mem_empty : w ∈ (empty : Regex α).language ↔ w = [] :=
  Language.mem_one w

theorem mem_cls : w ∈ (cls p).language ↔ ∃ c, p c ∧ w = [c] :=
  Iff.rfl

theorem mem_star : w ∈ (star g p).language ↔ ∀ c ∈ w, p c :=
  Iff.rfl

theorem mem_seq : w ∈ (seq r₁ r₂).language ↔ ∃ u ∈ r₁.language, ∃ v ∈ r₂.language, u ++ v = w :=
  Language.mem_mul

theorem mem_alt : w ∈ (alt r₁ r₂).language ↔ w ∈ r₁.language ∨ w ∈ r₂.language :=
  Language.mem_add ..

theorem mem_starRests : rest ∈ starRests g p s ↔ ∃ w, (∀ c ∈ w, p c) ∧ w ++ rest = s := by
  induction s
  case nil => simp [starRests]
  case cons c s hi =>
    have hcons : (∃ w, (∀ c ∈ w, p c) ∧ w ++ rest = c :: s) ↔
        rest = c :: s ∨ p c ∧ ∃ w, (∀ c ∈ w, p c) ∧ w ++ rest = s := by
      constructor
      case mp =>
        rintro ⟨w, hw, he⟩
        cases w
        case nil => exact .inl he
        case cons d w =>
          obtain ⟨rfl, he'⟩ := List.cons.inj he
          have ⟨hd, hw⟩ := List.forall_mem_cons.mp hw
          exact .inr ⟨hd, w, hw, he'⟩
      case mpr =>
        rintro (rfl | ⟨hc, w, hw, rfl⟩)
        · exact ⟨[], by simp, rfl⟩
        · exact ⟨c :: w, List.forall_mem_cons.mpr ⟨hc, hw⟩, rfl⟩
    rw [hcons, ← hi, starRests]
    split
    case isTrue hc  => cases g <;> simp [hc, or_comm]
    case isFalse hc => simp [hc]

-- The matcher is sound and complete for the language.
theorem mem_rests : rest ∈ r.rests s ↔ ∃ w ∈ r.language, w ++ rest = s := by
  induction r generalizing s rest
  case empty => simp [rests, mem_empty, eq_comm]
  case cls p =>
    cases s
    case nil => simp [rests, mem_cls]
    case cons c s =>
      simp only [rests, mem_cls]
      constructor
      case mp =>
        intro h
        split at h <;> simp at h
        exact ⟨[c], ⟨c, ‹_›, rfl⟩, by simp [h]⟩
      case mpr =>
        rintro ⟨_, ⟨d, hd, rfl⟩, he⟩
        cases he
        simp [hd]
  case star => exact mem_starRests
  case seq r₁ r₂ h₁ h₂ =>
    simp only [rests, List.mem_flatMap, h₁, h₂, mem_seq]
    constructor
    case mp =>
      rintro ⟨_, ⟨u, hu, rfl⟩, v, hv, rfl⟩
      exact ⟨u ++ v, ⟨u, hu, v, hv, rfl⟩, List.append_assoc ..⟩
    case mpr =>
      rintro ⟨_, ⟨u, hu, v, hv, rfl⟩, rfl⟩
      exact ⟨v ++ rest, ⟨u, hu, (List.append_assoc ..).symm⟩, v, hv, rfl⟩
  case alt r₁ r₂ h₁ h₂ =>
    simp only [rests, List.mem_append, h₁, h₂, mem_alt, or_and_right, exists_or]

end Language

section Extent

variable {r : Regex α} {c : α} {w : List α}

-- Whether a class of the expression has the character.
def allows (c : α) : Regex α → Bool
  | empty     => false
  | cls p     => p c
  | star _ p  => p c
  | seq r₁ r₂ => r₁.allows c || r₂.allows c
  | alt r₁ r₂ => r₁.allows c || r₂.allows c

def minLength : Regex α → Nat
  | empty     => 0
  | cls _     => 1
  | star _ _  => 0
  | seq r₁ r₂ => r₁.minLength + r₂.minLength
  | alt r₁ r₂ => min r₁.minLength r₂.minLength

theorem allows_of_mem (hw : w ∈ r.language) (hc : c ∈ w) : r.allows c := by
  induction r generalizing w
  case empty => simp [mem_empty.mp hw] at hc
  case cls p =>
    obtain ⟨d, hd, rfl⟩ := mem_cls.mp hw
    exact List.mem_singleton.mp hc ▸ hd
  case star => exact hw c hc
  case seq h₁ h₂ =>
    obtain ⟨u, hu, v, hv, rfl⟩ := mem_seq.mp hw
    exact Bool.or_eq_true_iff.mpr ((List.mem_append.mp hc).imp (h₁ hu) (h₂ hv))
  case alt h₁ h₂ => exact Bool.or_eq_true_iff.mpr ((mem_alt.mp hw).imp (h₁ · hc) (h₂ · hc))

theorem minLength_le (hw : w ∈ r.language) : r.minLength ≤ w.length := by
  induction r generalizing w
  case empty | star => exact Nat.zero_le _
  case cls p =>
    obtain ⟨d, _, rfl⟩ := mem_cls.mp hw
    exact le_rfl
  case seq h₁ h₂ =>
    obtain ⟨u, hu, v, hv, rfl⟩ := mem_seq.mp hw
    rw [List.length_append]
    exact Nat.add_le_add (h₁ hu) (h₂ hv)
  case alt h₁ h₂ =>
    obtain hw | hw := mem_alt.mp hw
    · exact (min_le_left ..).trans (h₁ hw)
    · exact (min_le_right ..).trans (h₂ hw)

-- A character that all words of one part have, all words of the sequence have.
theorem contains_seq_left {r₁ r₂ : Regex α} (h : ∀ u ∈ r₁.language, c ∈ u) :
    ∀ w ∈ (seq r₁ r₂).language, c ∈ w := by
  intro w hw
  obtain ⟨u, hu, v, _, rfl⟩ := mem_seq.mp hw
  exact List.mem_append_left _ (h u hu)

theorem contains_seq_right {r₁ r₂ : Regex α} (h : ∀ v ∈ r₂.language, c ∈ v) :
    ∀ w ∈ (seq r₁ r₂).language, c ∈ w := by
  intro w hw
  obtain ⟨u, _, v, hv, rfl⟩ := mem_seq.mp hw
  exact List.mem_append_right _ (h v hv)

theorem prefix_seq {x : List α} {r₁ r₂ : Regex α} (h : ∀ u ∈ r₁.language, x <+: u) :
    ∀ w ∈ (seq r₁ r₂).language, x <+: w := by
  intro w hw
  obtain ⟨u, hu, v, _, rfl⟩ := mem_seq.mp hw
  exact (h u hu).trans (List.prefix_append u v)

theorem suffix_seq {x : List α} {r₁ r₂ : Regex α} (h : ∀ v ∈ r₂.language, x <:+ v) :
    ∀ w ∈ (seq r₁ r₂).language, x <:+ w := by
  intro w hw
  obtain ⟨u, _, v, hv, rfl⟩ := mem_seq.mp hw
  exact (h v hv).trans (List.suffix_append u v)

theorem nil_not_mem (h : 0 < r.minLength) : [] ∉ r.language :=
  fun hm => absurd (minLength_le hm) (Nat.not_le.mpr h)

end Extent

-- A text that is searched falls into characters that no match takes up, and matches.
inductive Token (α : Type)
  | keep (c : α)
  | hit (w : List α)

def Token.text : Token α → List α
  | keep c => [c]
  | hit w  => w

def Token.isHit : Token α → Bool
  | keep _ => false
  | hit _  => true

def Token.render (marker : List α) : Token α → List α
  | keep c => [c]
  | hit _  => marker

-- A division of a text by a language, where no word begins at a character that is kept.
inductive Cut (l : Language α) : List α → List (Token α) → Prop
  | nil : Cut l [] []
  | keep {c s ts} (hn : ∀ w ∈ l, ¬w <+: c :: s) (h : Cut l s ts) : Cut l (c :: s) (.keep c :: ts)
  | hit {w s ts} (hw : w ∈ l) (hn : w ≠ []) (h : Cut l s ts) : Cut l (w ++ s) (.hit w :: ts)

-- The matches from left to right, each of them the first that backtracking comes to. The characters
-- of a match are skipped. A match of the empty text is none.
def tokensFrom (r : Regex α) : Nat → List α → List (Token α)
  | _, []             => []
  | skip + 1, _ :: s  => tokensFrom r skip s
  | 0, c :: s         =>
    match (r.rests (c :: s)).head? with
    | none      => .keep c :: tokensFrom r 0 s
    | some rest =>
      match s.length + 1 - rest.length with
      | 0        => .keep c :: tokensFrom r 0 s
      | skip + 1 => .hit ((c :: s).take (skip + 1)) :: tokensFrom r skip s

def tokens (r : Regex α) (s : List α) : List (Token α) :=
  r.tokensFrom 0 s

section Tokens

variable {r : Regex α} {s : List α} {ts : List (Token α)} {l : Language α} {marker : List α}

theorem tokensFrom_eq (skip : Nat) : r.tokensFrom skip s = r.tokensFrom 0 (s.drop skip) := by
  induction skip generalizing s
  case zero => rfl
  case succ skip hi =>
    cases s
    case nil  => rfl
    case cons => exact hi

theorem cut_tokens (hr : [] ∉ r.language) : Cut r.language s (r.tokens s) := by
  rw [tokens]
  induction hn : s.length using Nat.strongRecOn generalizing s
  case ind n hi =>
    cases s
    case nil => exact .nil
    case cons c s =>
      rw [tokensFrom]
      cases hh : (r.rests (c :: s)).head?
      case none =>
        refine .keep (fun w hw ⟨rest, he⟩ => ?_) (hi s.length (by simp at hn; omega) rfl)
        have hm : rest ∈ r.rests (c :: s) := mem_rests.mpr ⟨w, hw, he⟩
        rw [List.head?_eq_none_iff.mp hh] at hm
        exact absurd hm List.not_mem_nil
      case some rest =>
        have ⟨w, hw, he⟩ := mem_rests.mp (List.mem_of_mem_head? hh)
        have hne : w ≠ [] := fun h => hr (h ▸ hw)
        have hpos : 0 < w.length := List.length_pos_iff.mpr hne
        have hl : w.length + rest.length = s.length + 1 := by
          rw [← List.length_append, he, List.length_cons]
        have hk : s.length + 1 - rest.length = (w.length - 1) + 1 := by omega
        have hw' : (c :: s).take (w.length - 1 + 1) = w := by
          rw [Nat.sub_add_cancel hpos, ← he, List.take_left]
        have hs' : s.drop (w.length - 1) = rest := by
          have hd : (c :: s).drop (w.length - 1 + 1) = rest := by
            rw [Nat.sub_add_cancel hpos, ← he, List.drop_left]
          exact hd
        dsimp only
        rw [hk]
        dsimp only
        rw [tokensFrom_eq (w.length - 1), hw', hs', ← he]
        exact .hit hw hne (hi rest.length (by simp at hn; omega) rfl)

theorem Cut.text (h : Cut l s ts) : ts.flatMap Token.text = s := by
  induction h
  case nil          => rfl
  case keep hi      => simp [Token.text, hi]
  case hit hi       => simp [Token.text, hi]

-- Without a word of the language in it, a text is kept as it is.
theorem Cut.of_absent (h : Cut l s ts) (hl : ∀ w ∈ l, ¬w <:+: s) : ts = s.map .keep := by
  induction h
  case nil => rfl
  case keep c s ts _ _ hi =>
    rw [hi fun w hw hin => hl w hw (hin.trans (List.suffix_cons c s).isInfix), List.map_cons]
  case hit w s ts hw _ _ _ => exact absurd (List.prefix_append w s).isInfix (hl w hw)

theorem Cut.countP_eq_zero (h : Cut l s ts) : ts.countP Token.isHit = 0 ↔ ts = s.map .keep := by
  constructor
  case mp =>
    induction h
    case nil     => exact fun _ => rfl
    case keep hi =>
      intro h
      rw [List.map_cons, hi (by simpa [Token.isHit] using h)]
    case hit     => simp [Token.isHit]
  case mpr =>
    rintro rfl
    simp [List.countP_eq_zero, Token.isHit]

theorem Cut.absent_of_keep (h : Cut l s ts) (hn : [] ∉ l) (hk : ts = s.map .keep) :
    ∀ w ∈ l, ¬w <:+: s := by
  intro w hw hin
  induction h
  case nil =>
    rw [List.infix_nil.mp hin] at hw
    exact hn hw
  case keep hn' _ hi =>
    obtain hp | hin := List.infix_cons_iff.mp hin
    · exact hn' w hw hp
    · exact hi (List.cons.inj hk).right hin
  case hit u s ts _ hu _ _ =>
    match u, hu with
    | c :: u, _ => cases (List.cons.inj hk).left

theorem Cut.countP_eq_zero_iff (h : Cut l s ts) (hn : [] ∉ l) :
    ts.countP Token.isHit = 0 ↔ ∀ w ∈ l, ¬w <:+: s :=
  h.countP_eq_zero.trans ⟨h.absent_of_keep hn, h.of_absent⟩

theorem flatMap_render_keep : (s.map Token.keep).flatMap (Token.render marker) = s := by
  induction s
  case nil         => rfl
  case cons c s hi => simp [Token.render, hi]

end Tokens

section Marker

variable {o c : α} {inner w x y : List α} {s : List α} {ts : List (Token α)} {l l' : Language α}
  {marker : List α}

-- A word that cannot touch a marker in brackets.
structure Tame (o c : α) (inner w : List α) : Prop where
  ne_nil  : w ≠ []
  opening : o ∉ w
  closing : c ∉ w
  inner   : ¬w <:+: inner

-- Wherever a word of the language is in a text with markers, a word of the language was at a
-- character that was kept.
def Shy (marker : List α) (l : Language α) : Prop :=
  ∀ ts, ∀ w ∈ l, w <:+: ts.flatMap (Token.render marker) →
    ∃ w' ∈ l, ∃ pre d rest, ts = pre ++ Token.keep d :: rest ∧
      w' <+: (Token.keep d :: rest).flatMap Token.text

theorem infix_append_cases (h : x <:+: w ++ y) : x <:+: y ∨ ∃ v, v ≠ [] ∧ v <:+ w ∧
    x <+: v ++ y := by
  induction w
  case nil => exact .inl h
  case cons d w hi =>
    obtain h | h := List.infix_cons_iff.mp h
    · exact .inr ⟨d :: w, by simp, List.suffix_refl _, h⟩
    · obtain h | ⟨v, hv, hs, hp⟩ := hi h
      · exact .inl h
      · exact .inr ⟨v, hv, hs.trans (List.suffix_cons d w), hp⟩

-- It does not begin within a marker.
theorem Tame.not_begins {v : List α} (h : Tame o c inner w) (hv : v ≠ [])
    (hs : v <:+ o :: inner ++ [c]) : ¬w <+: v ++ y := by
  intro hwp
  rw [List.cons_append, List.suffix_cons_iff] at hs
  obtain rfl | hs := hs
  · have hm := hwp.head h.ne_nil
    exact absurd (hm ▸ List.head_mem h.ne_nil) (by simpa using h.opening)
  · obtain rfl | ⟨v', rfl, hv'⟩ := List.suffix_concat_iff.mp hs
    · exact absurd rfl hv
    · rw [List.append_assoc] at hwp
      obtain hwv | hvw := List.prefix_or_prefix_of_prefix hwp (List.prefix_append v' ([c] ++ y))
      · exact absurd (hwv.isInfix.trans hv'.isInfix) h.inner
      · obtain ⟨z, rfl⟩ := hvw
        have hz := (List.prefix_append_right_inj v').mp hwp
        cases z
        case nil      => exact absurd (by simpa using hv'.isInfix) h.inner
        case cons d z =>
          have hd := (List.cons_prefix_cons.mp hz).left
          exact absurd (by simp [hd]) h.closing

theorem Tame.infix_of_append (h : Tame o c inner w) (hw : w ++ x <:+: (o :: inner ++ [c]) ++ y) :
    w ++ x <:+: y := by
  obtain hw | ⟨v, hv, hs, hp⟩ := infix_append_cases hw
  · exact hw
  · exact absurd ((List.prefix_append w x).trans hp) (h.not_begins hv hs)

theorem exists_of_prefix_render (hw : o ∉ w)
    (h : w ++ x <+: ts.flatMap (Token.render (o :: inner))) :
    ∃ rest, ts = w.map Token.keep ++ rest ∧ x <+: rest.flatMap (Token.render (o :: inner)) := by
  induction w generalizing ts
  case nil => exact ⟨ts, rfl, h⟩
  case cons d w hi =>
    have ⟨hd, hw⟩ : o ≠ d ∧ o ∉ w := by simpa using hw
    cases ts
    case nil => simp at h
    case cons tok ts =>
      cases tok
      case hit u =>
        have h : d :: (w ++ x) <+: o :: (inner ++ ts.flatMap (Token.render (o :: inner))) := by
          simpa [Token.render] using h
        exact absurd (List.cons_prefix_cons.mp h).left.symm hd
      case keep e =>
        have h : d :: (w ++ x) <+: e :: ts.flatMap (Token.render (o :: inner)) := by
          simpa [Token.render] using h
        have ⟨he, h⟩ := List.cons_prefix_cons.mp h
        have ⟨rest, hts, hx⟩ := hi hw h
        exact ⟨rest, by rw [he, hts]; rfl, hx⟩

-- A tame word in a text with markers is in a part of it that was kept.
theorem Tame.exists_of_infix_render (h : Tame o c inner w)
    (hw : w ++ x <:+: ts.flatMap (Token.render (o :: inner ++ [c]))) :
    ∃ pre rest, ts = pre ++ w.map Token.keep ++ rest ∧
      x <+: rest.flatMap (Token.render (o :: inner ++ [c])) := by
  induction ts
  case nil =>
    have he : w = [] ∧ x = [] := by simpa using hw
    exact absurd he.left h.ne_nil
  case cons tok ts hi =>
    cases tok
    case hit u =>
      have ⟨pre, rest, he, hx⟩ := hi (h.infix_of_append (by simpa [Token.render] using hw))
      exact ⟨.hit u :: pre, rest, by rw [he]; rfl, hx⟩
    case keep d =>
      have hw : w ++ x <:+: d :: ts.flatMap (Token.render (o :: inner ++ [c])) := by
        simpa [Token.render] using hw
      obtain hp | hin := List.infix_cons_iff.mp hw
      · have hp : w ++ x <+: (Token.keep d :: ts).flatMap (Token.render (o :: (inner ++ [c]))) := by
          simpa [Token.render] using hp
        have ⟨rest, he, hx⟩ := exists_of_prefix_render h.opening hp
        exact ⟨[], rest, he, hx⟩
      · have ⟨pre, rest, he, hx⟩ := hi (by simpa using hin)
        exact ⟨.keep d :: pre, rest, by rw [he]; rfl, hx⟩

theorem flatMap_text_keep : (s.map Token.keep).flatMap Token.text = s := by
  induction s
  case nil         => rfl
  case cons d s hi => simp [Token.text, hi]

theorem Tame.infix_text (h : Tame o c inner w)
    (hw : w <:+: ts.flatMap (Token.render (o :: inner ++ [c]))) : w <:+: ts.flatMap Token.text := by
  have hw : w ++ [] <:+: ts.flatMap (Token.render (o :: inner ++ [c])) := by rwa [List.append_nil]
  have ⟨pre, rest, he, _⟩ := h.exists_of_infix_render hw
  rw [he, List.flatMap_append, List.flatMap_append, flatMap_text_keep]
  exact List.infix_append _ _ _

theorem shy_of_tame (h : ∀ w ∈ l, Tame o c inner w) : Shy (o :: inner ++ [c]) l := by
  intro ts w hw hin
  have hin : w ++ [] <:+: ts.flatMap (Token.render (o :: inner ++ [c])) := by rwa [List.append_nil]
  have ⟨pre, rest, he, _⟩ := (h w hw).exists_of_infix_render hin
  have hne := (h w hw).ne_nil
  match w, hne with
  | d :: w, _ =>
    refine ⟨d :: w, hw, pre, d, w.map Token.keep ++ rest, by rw [he]; simp, ?_⟩
    simp [Token.text, flatMap_text_keep]

-- Words with anything between a tame beginning and a tame end.
theorem shy_of_framed {heads tails : Language α} (hh : ∀ w ∈ heads, Tame o c inner w)
    (ht : ∀ w ∈ tails, Tame o c inner w)
    (hl : ∀ w, w ∈ l ↔ ∃ u ∈ heads, ∃ x, ∃ v ∈ tails, u ++ (x ++ v) = w) :
    Shy (o :: inner ++ [c]) l := by
  intro ts w hw hin
  obtain ⟨u, hu, x, v, hv, rfl⟩ := (hl w).mp hw
  have ⟨pre, rest, he, hx⟩ := (hh u hu).exists_of_infix_render hin
  have hvin := (ht v hv).infix_text ((List.suffix_append x v).isInfix.trans hx.isInfix)
  obtain ⟨p, q, hpq⟩ := hvin
  have hne := (hh u hu).ne_nil
  match u, hne with
  | d :: u, _ =>
    refine ⟨d :: u ++ (p ++ v), (hl _).mpr ⟨_, hu, p, v, hv, rfl⟩, pre, d, u.map Token.keep ++ rest,
      by rw [he]; simp, ?_⟩
    simp only [List.flatMap_cons, List.flatMap_append, flatMap_text_keep, ← hpq, Token.text]
    exact ⟨q, by simp⟩

theorem Cut.of_append {pre : List (Token α)} (h : Cut l s (pre ++ ts)) :
    Cut l (ts.flatMap Token.text) ts := by
  induction pre generalizing s
  case nil =>
    rw [List.nil_append] at h
    exact h.text.symm ▸ h
  case cons tok pre hi =>
    cases h
    case keep h => exact hi h
    case hit h  => exact hi h

-- No word of a shy part of the language is left by its own replacement ..
theorem Cut.absent_render (h : Cut l s ts) (hs : Shy marker l') (hl : l' ≤ l) :
    ∀ w ∈ l', ¬w <:+: ts.flatMap (Token.render marker) := by
  intro w hw hin
  obtain ⟨w', hw', pre, d, rest, rfl, hp⟩ := hs ts w hw hin
  have h' := h.of_append
  generalize (Token.keep d :: rest).flatMap Token.text = s' at h' hp
  cases h'
  case keep hn _ => exact hn w' (hl hw') hp

-- .. or brought back by another one.
theorem Shy.absent_render (hs : Shy marker l') (h : Cut l s ts) (ha : ∀ w ∈ l', ¬w <:+: s) :
    ∀ w ∈ l', ¬w <:+: ts.flatMap (Token.render marker) := by
  intro w hw hin
  obtain ⟨w', hw', pre, d, rest, rfl, hp⟩ := hs ts w hw hin
  refine ha w' hw' (hp.isInfix.trans ?_)
  rw [← h.text, List.flatMap_append]
  exact (List.suffix_append _ _).isInfix

-- A text in which parts of another one have made room for markers.
inductive Masked (marker : List α) (part : List α → Prop) : List α → List α → Prop
  | nil : Masked marker part [] []
  | keep {c s t} (h : Masked marker part s t) : Masked marker part (c :: s) (c :: t)
  | cut {v s t} (hv : part v) (h : Masked marker part s t) :
      Masked marker part (v ++ s) (marker ++ t)

-- The words of the language neither begin nor end within a marker.
structure Intact (marker : List α) (l : Language α) : Prop where
  begins : ∀ w ∈ l, ∀ v y, v ≠ [] → v <:+ marker → ¬w <+: v ++ y
  ends   : ∀ w ∈ l, ∀ v, v ≠ [] → v <+: marker → v ≠ marker → ¬v <:+ w

theorem intact_of_tame (h : ∀ w ∈ l, Tame o c inner w) : Intact (o :: inner ++ [c]) l where
  begins w hw v y hv hs := (h w hw).not_begins hv hs
  ends w hw v hv hp _ hs := by
    obtain ⟨d, v, rfl⟩ := List.exists_cons_of_ne_nil hv
    have hd := (List.cons_prefix_cons.mp hp).left
    exact absurd (hs.subset List.mem_cons_self) (hd ▸ (h w hw).opening)

theorem not_prefix_of_head {x w v y : List α} (hx : x ≠ []) (hw : x <+: w)
    (hc : ∀ c ∈ x, c ∉ marker) (hv : v ≠ []) (hs : v <:+ marker) : ¬w <+: v ++ y := by
  intro h
  obtain ⟨c, x, rfl⟩ := List.exists_cons_of_ne_nil hx
  obtain ⟨d, v, rfl⟩ := List.exists_cons_of_ne_nil hv
  have hd := (List.cons_prefix_cons.mp (hw.trans h)).left
  exact hc c List.mem_cons_self (hs.subset (hd ▸ List.mem_cons_self))

theorem not_suffix_of_last {x w v : List α} (hx : x ≠ []) (hw : x <:+ w) (hc : ∀ c ∈ x, c ∉ marker)
    (hv : v ≠ []) (hp : v <+: marker) : ¬v <:+ w := by
  intro h
  have hl := (hw.getLast hx).trans (h.getLast hv).symm
  exact hc _ (List.getLast_mem hx) (hp.subset (hl ▸ List.getLast_mem hv))

namespace Masked

variable {part : List α → Prop} {t : List α}

theorem refl (s : List α) : Masked marker part s s := by
  induction s
  case nil     => exact .nil
  case cons hi => exact .keep hi

theorem cut_marker (hl : Intact marker l) {v : List α} (hv : v <:+ marker) (h : Cut l (v ++ t) ts) :
    ∃ us, ts = v.map Token.keep ++ us ∧ Cut l t us := by
  induction v generalizing ts
  case nil => exact ⟨ts, rfl, h⟩
  case cons d v hi =>
    rw [List.cons_append] at h
    generalize he : d :: (v ++ t) = s' at h
    cases h
    case nil => cases he
    case keep c s us hn h =>
      obtain ⟨rfl, rfl⟩ := List.cons.inj he
      have ⟨us', he', h'⟩ := hi ((List.suffix_cons d v).trans hv) h
      exact ⟨us', by rw [he']; rfl, h'⟩
    case hit w s us hw _ _ =>
      refine absurd ?_ (hl.begins w hw (d :: v) t (by simp) hv)
      rw [List.cons_append, he]
      exact List.prefix_append w s

-- A word of the masked text stands for a part of the original, which has all of the parts that were
-- cut from it.
theorem split (h : Masked marker part s (w ++ t))
    (hw : ∀ v, v ≠ [] → v <+: marker → v ≠ marker → ¬v <:+ w) :
    ∃ s₁ s₂, s = s₁ ++ s₂ ∧ Masked marker part s₂ t ∧ (s₁ = w ∨ ∃ v, part v ∧ v <:+: s₁) := by
  generalize he : w ++ t = u at h
  induction h generalizing w
  case nil =>
    obtain ⟨rfl, rfl⟩ := List.append_eq_nil_iff.mp he
    exact ⟨[], [], rfl, .nil, .inl rfl⟩
  case keep d s u h hi =>
    cases w
    case nil =>
      rw [List.nil_append] at he
      exact ⟨[], d :: s, rfl, he ▸ h.keep, .inl rfl⟩
    case cons e w =>
      obtain ⟨rfl, he'⟩ := List.cons.inj he
      have ⟨s₁, s₂, hs, h₂, hp⟩ :=
        hi (fun v hv hp hne hs => hw v hv hp hne (hs.trans (List.suffix_cons e w))) he'
      refine ⟨e :: s₁, s₂, by rw [hs]; rfl, h₂, hp.imp (congrArg (e :: ·)) fun ⟨v, hv, hin⟩ => ?_⟩
      exact ⟨v, hv, hin.trans (List.suffix_cons e s₁).isInfix⟩
  case cut v s u hv h hi =>
    by_cases hn : w = []
    case pos =>
      subst hn
      rw [List.nil_append] at he
      exact ⟨[], v ++ s, rfl, he ▸ h.cut hv, .inl rfl⟩
    case neg =>
      obtain hwm | hmw :=
        List.prefix_or_prefix_of_prefix (⟨t, he⟩ : w <+: marker ++ u) (List.prefix_append marker u)
      · by_cases hm : w = marker
        case neg => exact absurd (List.suffix_refl w) (hw w hn hwm hm)
        case pos =>
          subst hm
          obtain rfl := List.append_cancel_left he
          exact ⟨v, s, rfl, h, .inr ⟨v, hv, List.infix_refl v⟩⟩
      · obtain ⟨w', rfl⟩ := hmw
        rw [List.append_assoc] at he
        have hw' (v) (hv : v ≠ []) (hp : v <+: marker) (hne : v ≠ marker) : ¬v <:+ w' := fun hs =>
          hw v hv hp hne (hs.trans (List.suffix_append marker w'))
        have ⟨s₁, s₂, hs, h₂, _⟩ := hi hw' (List.append_cancel_left he)
        exact ⟨v ++ s₁, s₂, by rw [hs, List.append_assoc], h₂,
          .inr ⟨v, hv, (List.prefix_append v s₁).isInfix⟩⟩

-- Replacements add up, as long as they take whole markers.
theorem render (hm : marker ≠ []) (hl : Intact marker l) (hlp : ∀ w ∈ l, part w)
    (hp : ∀ v v', part v → v <:+: v' → part v') (h : Masked marker part s t) (hc : Cut l t ts) :
    Masked marker part s (ts.flatMap (Token.render marker)) := by
  induction hn : t.length using Nat.strongRecOn generalizing s t ts
  case ind n hi =>
    cases h
    case nil =>
      generalize he : ([] : List α) = t at hc
      cases hc
      case nil          => exact .nil
      case keep         => cases he
      case hit hw hne _ => exact absurd (List.append_eq_nil_iff.mp he.symm).left hne
    case cut v s t hv h =>
      obtain ⟨us, rfl, hc'⟩ := cut_marker hl (List.suffix_refl marker) hc
      have hlen := List.length_pos_iff.mpr hm
      rw [List.flatMap_append, flatMap_render_keep]
      exact .cut hv (hi t.length (by simp at hn; omega) h hc' rfl)
    case keep d s t h =>
      generalize he : d :: t = u at hc
      cases hc
      case nil => cases he
      case keep e u us _ hc =>
        obtain ⟨rfl, rfl⟩ := List.cons.inj he
        exact .keep (hi t.length (by simp at hn; omega) h hc rfl)
      case hit w u us hw hne hc =>
        have h' : Masked marker part (d :: s) (w ++ u) := he ▸ h.keep
        have ⟨s₁, s₂, hs, h₂, hpart⟩ := h'.split (hl.ends w hw)
        have hpos := List.length_pos_iff.mpr hne
        have hlen := congrArg List.length he
        rw [List.length_append] at hlen
        rw [hs, List.flatMap_cons]
        refine .cut ?_ (hi u.length (by omega) h₂ hc rfl)
        obtain rfl | ⟨v, hv, hin⟩ := hpart
        · exact hlp s₁ hw
        · exact hp v s₁ hv hin

end Masked

end Marker

end Regex
