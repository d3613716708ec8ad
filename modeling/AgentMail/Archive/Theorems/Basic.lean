import Mathlib.Data.List.TakeWhile
import Mathlib.Tactic.Common
import AgentMail.Archive.Basic

open Search (find)

namespace Archive

variable {ν : Type} {serde : Serde ν} {m : ν} {b content rest pre post u : Text} {c : Char}
variable {i j k searchFrom : Nat}

-- After a line break, the text goes on on the same line, and not with a marker.
def Indented (u : Text) : Prop :=
  ∀ pre post, u = pre ++ '\n' :: post → ∃ c rest, post = c :: rest ∧ c ≠ '-'

theorem Formatted.indented (h : Formatted u) : Indented u := by
  induction u
  case nil => exact fun pre post hp => absurd hp.symm (List.append_ne_nil_of_right_ne_nil _ nofun)
  case cons c u hi =>
    intro pre post hp
    cases pre
    case cons _ pre => exact hi h.right pre post (List.cons.inj hp).right
    case nil =>
      have ⟨hc, hu⟩ := List.cons.inj hp
      have ⟨d, hd, hm⟩ := h.left hc
      refine ⟨d, post.tail, ?_, ?_⟩
      · rw [← hu]
        exact List.eq_cons_of_mem_head? hd
      · rintro rfl
        contradiction

-- An object may also start on a new line.
theorem Indented.cons_newline (h : Indented u) (hu : u = c :: rest) (hc : c ≠ '-') :
    Indented ('\n' :: u) := by
  intro pre post hp
  cases pre
  case nil       => exact ⟨c, rest, (List.cons.inj hp).right.symm.trans hu, hc⟩
  case cons d pre => exact h pre post (List.cons.inj hp).right

-- Within an indented text, no line starts with a marker.
theorem Indented.not_marker (h : Indented u) (hi : u[i]? = some '\n') :
    ¬marker <+: (u ++ post).drop (i + 1) := by
  have ⟨hlt, he⟩ := List.getElem?_eq_some_iff.mp hi
  have hu : u = u.take i ++ '\n' :: u.drop (i + 1) := by
    rw [← he, ← List.drop_eq_getElem_cons hlt, List.take_append_drop]
  have ⟨c, rest, hr, hc⟩ := h _ _ hu
  rw [List.drop_append_of_le_length hlt, hr, List.cons_append]
  intro hp
  exact hc (List.cons_prefix_cons.mp hp).left.symm

theorem Serde.Lawful.fromStr_newline (h : serde.Lawful) (m : ν) :
    serde.fromStr (serde.toStringPretty m ++ ['\n']) = some m := by
  rw [h.fromStr_append _ _ fun c hc => by rw [List.mem_singleton.mp hc]; rfl]
  exact h.fromStr_toStringPretty m

theorem getLast?_take (h : j < content.length) : (content.take (j + 1)).getLast? = content[j]? := by
  rw [List.take_add_one, List.getElem?_eq_getElem h]
  exact List.getLast?_concat

theorem getElem?_of_marker (h : marker <+: content.drop j) (hi : i < 3) :
    content[j + i]? = some '-' := by
  have ⟨t, ht⟩ := h
  rw [← List.getElem?_drop, ← ht, List.getElem?_append_left hi]
  obtain _ | _ | _ | i := i
  case succ.succ.succ => omega
  all_goals rfl

-- A marker is not behind the next one that is known.
theorem find_marker (h : find marker (content.drop searchFrom) = some i)
    (hk : marker <+: content.drop k) (hf : searchFrom ≤ k) :
    searchFrom + i ≤ k ∧ marker <+: content.drop (searchFrom + i) := by
  have hk' : marker <+: (content.drop searchFrom).drop (k - searchFrom) := by
    rwa [List.drop_drop, Nat.add_sub_of_le hf]
  have ⟨j, hj, hfind⟩ := Search.exists_find_le hk'
  obtain rfl := Option.some.inj (h.symm.trans hfind)
  refine ⟨by omega, ?_⟩
  rw [← List.drop_drop]
  exact (Search.find_eq_some_iff.mp h).right.left

-- The closing marker is behind the place where the search starts, and the body is behind it.
theorem searchMarker_le (h : searchMarker content searchFrom = some (i, j)) :
    searchFrom ≤ i ∧ i + 3 ≤ j ∧ j ≤ content.length := by
  fun_induction searchMarker content searchFrom
  case case1 => cases h
  case case2 sf r hr start after _ hi =>
    have ⟨hle, hij, hj⟩ := hi h
    exact ⟨by omega, hij, hj⟩
  case case3 sf r hr start after _ he =>
    have ⟨hi, hj⟩ := Prod.mk.inj (Option.some.inj h)
    omega
  case case4 sf r hr start after _ _ hcr =>
    have ⟨hi, hj⟩ := Prod.mk.inj (Option.some.inj h)
    have hl := hcr.length_le
    rw [List.length_drop, List.length_cons, List.length_singleton] at hl
    omega
  case case5 sf r hr start after _ _ _ hlf =>
    have ⟨hi, hj⟩ := Prod.mk.inj (Option.some.inj h)
    have hl := hlf.length_le
    rw [List.length_drop, List.length_singleton] at hl
    omega
  case case6 sf r hr start after _ _ _ _ hi =>
    have ⟨hle, hij, hj⟩ := hi h
    exact ⟨by omega, hij, hj⟩

-- The slices that the extraction takes are within the text.
theorem frontmatterBounds_le {jsonStart jsonEnd bodyStart : Nat}
    (h : frontmatterBounds content = some (jsonStart, jsonEnd, bodyStart)) :
    jsonStart ≤ jsonEnd ∧ jsonEnd ≤ bodyStart ∧ bodyStart ≤ content.length := by
  have hslices {n : Nat} (h : ((searchMarker content n).map
      fun p => (n, p.fst, p.snd)) = some (jsonStart, jsonEnd, bodyStart)) :
      jsonStart ≤ jsonEnd ∧ jsonEnd ≤ bodyStart ∧ bodyStart ≤ content.length := by
    obtain ⟨⟨i, j⟩, hs, he⟩ := Option.map_eq_some_iff.mp h
    cases he
    obtain ⟨hle, hij, hj⟩ := searchMarker_le hs
    exact ⟨hle, by omega, hj⟩
  unfold frontmatterBounds at h
  split at h
  case h_1 => cases h
  case h_2 =>
    split at h
    case isTrue => exact hslices h
    case isFalse =>
      split at h
      case isTrue  => exact hslices h
      case isFalse => cases h

-- The first line that is a marker is found, if none of the lines before starts with one.
theorem searchMarker_eq (hk : content[k]? = some '\n')
    (hm : marker ++ ['\n'] <+: content.drop (k + 1)) (hf : searchFrom ≤ k + 1)
    (hno : ∀ j < k, searchFrom ≤ j + 1 → content[j]? = some '\n' →
      ¬marker <+: content.drop (j + 1)) :
    searchMarker content searchFrom = some (k + 1, k + 5) := by
  have ⟨hlt, _⟩ := List.getElem?_eq_some_iff.mp hk
  have hmk : marker <+: content.drop (k + 1) := (List.prefix_append ..).trans hm
  have ⟨t, ht⟩ := hm
  have hafter : content.drop (k + 4) = '\n' :: t := by
    rw [← List.drop_drop (i := 3), ← ht]
    rfl
  -- A marker at the start of a line can only be the one that is known.
  have heq {start : Nat} (hs : searchFrom ≤ start) (hle : start ≤ k + 1)
      (hp : marker <+: content.drop start)
      (hl : ¬(start = 0 ∨ (content.take start).getLast? ≠ some '\n')) : start = k + 1 := by
    obtain ⟨hz, hl⟩ := not_or.mp hl
    obtain ⟨j, rfl⟩ := Nat.exists_eq_succ_of_ne_zero hz
    by_contra hne
    have hj : j < k := by omega
    rw [not_not, Nat.succ_eq_add_one, getLast?_take (hj.trans hlt)] at hl
    exact hno j hj hs hl hp
  fun_induction searchMarker content searchFrom
  case case1 sf hn =>
    refine absurd ?_ (Search.not_prefix_of_find_eq_none hn (k + 1 - sf))
    rwa [List.drop_drop, Nat.add_sub_of_le hf]
  case case2 sf r hr start after hskip hi =>
    have ⟨hle, hp⟩ := find_marker hr hmk hf
    have hne : start ≠ k + 1 := by
      intro he
      rw [he, getLast?_take hlt, hk] at hskip
      exact hskip.elim nofun fun hn => hn rfl
    have hnk (i : Nat) (hi : i < 3) : start + i ≠ k := by
      intro he
      cases hk.symm.trans (he ▸ getElem?_of_marker hp hi)
    have h0 := hnk 0 (by omega)
    have h1 := hnk 1 (by omega)
    have h2 := hnk 2 (by omega)
    refine hi (by omega) (fun j hj hsf => hno j hj (by omega)) fun hs => heq (by omega)
  case case3 sf r hr start after hl he =>
    have ⟨hle, hp⟩ := find_marker hr hmk hf
    have hs : start = k + 1 := heq (Nat.le_add_right ..) hle hp hl
    have he' : k + 4 = content.length := by omega
    rw [he', List.drop_length] at hafter
    cases hafter
  case case4 sf r hr start after hl _ hcr =>
    have ⟨hle, hp⟩ := find_marker hr hmk hf
    have hs : start = k + 1 := heq (Nat.le_add_right ..) hle hp hl
    have ha : after = k + 4 := by omega
    rw [ha, hafter] at hcr
    cases (List.cons_prefix_cons.mp hcr).left
  case case5 sf r hr start after hl _ _ hlf =>
    have ⟨hle, hp⟩ := find_marker hr hmk hf
    have hs : start = k + 1 := heq (Nat.le_add_right ..) hle hp hl
    have ha : after + 1 = k + 5 := by omega
    rw [hs, ha]
  case case6 sf r hr start after hl _ _ hlf _ =>
    have ⟨hle, hp⟩ := find_marker hr hmk hf
    have hs : start = k + 1 := heq (Nat.le_add_right ..) hle hp hl
    have ha : after = k + 4 := by omega
    rw [ha, hafter] at hlf
    exact absurd (List.prefix_append ['\n'] t) hlf

theorem stripLineBreak_cons : stripLineBreak ('\n' :: b) = b := by
  simp [stripLineBreak, List.dropPrefix?]

theorem find_closing (h : Indented u) : find closing (u ++ closing ++ rest) = some u.length := by
  refine Search.find_append fun j hj hp => ?_
  rw [List.append_assoc] at hp
  have hlt : j < (u ++ (closing ++ rest)).length := by
    rw [List.length_append]
    omega
  rw [List.drop_eq_getElem_cons hlt] at hp
  have ⟨hc, hm⟩ := List.cons_prefix_cons.mp hp
  refine h.not_marker ?_ ((List.prefix_append marker ['\n']).trans hm)
  rw [List.getElem?_eq_getElem hj, hc, List.getElem_append_left hj]

-- The reader of message files takes back what has been written.
theorem parseMessageFile_render (h : serde.Lawful) :
    parseMessageFile serde (renderMessageBundleContent serde m b) = .ok (m, b) := by
  have hrest : (renderMessageBundleContent serde m b).dropPrefix? (opening ++ ['\n']) =
      some (serde.toStringPretty m ++ closing ++ '\n' :: b) := by
    simp only [renderMessageBundleContent, List.append_assoc]
    exact List.dropPrefix?_append_of_beq _ BEq.rfl
  have htake :
      (serde.toStringPretty m ++ closing ++ '\n' :: b).take (serde.toStringPretty m).length =
      serde.toStringPretty m := by
    rw [List.append_assoc, List.take_left]
  have hdrop : (serde.toStringPretty m ++ closing ++ '\n' :: b).drop
      ((serde.toStringPretty m).length + 5) = '\n' :: b := by
    rw [List.append_assoc, ← List.drop_drop, List.drop_left]
    rfl
  simp only [parseMessageFile, hrest, find_closing (h.formatted m).indented, htake, hdrop,
    h.fromStr_toStringPretty, stripLineBreak_cons]

-- The fences of a rendered message, with the frontmatter behind a line break.
theorem searchMarker_render (h : Indented ('\n' :: u)) :
    searchMarker (opening ++ ('\n' :: u ++ ('\n' :: marker ++ '\n' :: rest))) 8 =
      some (u.length + 9, u.length + 13) := by
  have hlen : (opening ++ '\n' :: u).length = u.length + 8 := by
    simp [opening]
  have hsplit : opening ++ ('\n' :: u ++ ('\n' :: marker ++ '\n' :: rest)) =
      (opening ++ '\n' :: u) ++ '\n' :: (marker ++ '\n' :: rest) := by
    simp
  refine searchMarker_eq (k := u.length + 8) ?_ ?_ (by omega) fun j hj hsf hn => ?_
  · rw [hsplit, ← hlen, List.getElem?_append_right (Nat.le_refl _), Nat.sub_self]
    rfl
  · rw [hsplit, ← hlen, ← List.drop_drop, List.drop_left]
    exact ⟨rest, by simp⟩
  · obtain ⟨i, rfl⟩ : ∃ i, j = i + 7 := ⟨j - 7, by omega⟩
    have hi : i < ('\n' :: u).length := by
      rw [List.length_cons]
      omega
    have hget : ('\n' :: u)[i]? = some '\n' := by
      have ho : opening.length ≤ i + 7 := Nat.le_add_left ..
      have hsub : i + 7 - opening.length = i := Nat.add_sub_cancel ..
      rwa [List.getElem?_append_right ho, hsub, List.getElem?_append_left hi] at hn
    have hm : ¬marker <+: ('\n' :: u ++ ('\n' :: marker ++ '\n' :: rest)).drop (i + 1) :=
      h.not_marker hget
    rw [show i + 7 + 1 = opening.length + (i + 1) from by simp [opening]; omega, ← List.drop_drop,
      List.drop_left]
    exact hm

theorem frontmatterBounds_render (h : serde.Lawful) (ho : serde.isObject m) :
    frontmatterBounds (renderMessageBundleContent serde m b) =
      some (8, (serde.toStringPretty m).length + 9, (serde.toStringPretty m).length + 13) := by
  have ⟨rest, hr⟩ := h.object m ho
  have heq : renderMessageBundleContent serde m b =
      opening ++ ('\n' :: serde.toStringPretty m ++ ('\n' :: marker ++ '\n' :: '\n' :: b)) := by
    simp [renderMessageBundleContent, closing]
  have hfind : find opening (renderMessageBundleContent serde m b) = some 0 :=
    Search.find_eq_some_iff.mpr ⟨Nat.zero_le _, heq ▸ List.prefix_append .., nofun⟩
  have hcr : ¬opening ++ ['\r', '\n'] <+: renderMessageBundleContent serde m b := by
    rw [heq, List.prefix_append_right_inj]
    intro hp
    cases (List.cons_prefix_cons.mp hp).left
  have hlf : opening ++ ['\n'] <+: renderMessageBundleContent serde m b := by
    rw [heq, List.prefix_append_right_inj]
    exact List.prefix_append ..
  have hs : searchMarker (opening ++ ('\n' :: serde.toStringPretty m ++
      ('\n' :: marker ++ '\n' :: '\n' :: b))) 8 = some ((serde.toStringPretty m).length + 9,
        (serde.toStringPretty m).length + 13) :=
    searchMarker_render ((h.formatted m).indented.cons_newline hr nofun)
  simp only [frontmatterBounds, hfind, List.drop_zero, hcr, hlf, if_false, if_true]
  rw [heq]
  simp only [Nat.zero_add, hs, Option.map_some]

theorem extractJsonFrontmatter_render (h : serde.Lawful) (ho : serde.isObject m) :
    extractJsonFrontmatter (renderMessageBundleContent serde m b) =
      some (serde.toStringPretty m ++ ['\n']) := by
  have heq : renderMessageBundleContent serde m b = (opening ++ ['\n']) ++
      (serde.toStringPretty m ++ ['\n']) ++ (marker ++ '\n' :: '\n' :: b) := by
    simp [renderMessageBundleContent, closing]
  have hlen : ((opening ++ ['\n']) ++ (serde.toStringPretty m ++ ['\n'])).length =
      (serde.toStringPretty m).length + 9 := by
    simp [opening]
  rw [extractJsonFrontmatter, frontmatterBounds_render h ho, Option.map_some, heq, ← hlen]
  refine congrArg some ?_
  dsimp only
  rw [List.take_left]
  rfl

-- The other reader returns the body without the line breaks that it starts with.
theorem extractBody_render (h : serde.Lawful) (ho : serde.isObject m) :
    extractBodyAfterFrontmatter (renderMessageBundleContent serde m b) =
      some (b.dropWhile isNewline) := by
  have heq : renderMessageBundleContent serde m b =
      (opening ++ ['\n'] ++ serde.toStringPretty m ++ closing) ++ '\n' :: b := by
    simp [renderMessageBundleContent]
  have hlen : (opening ++ ['\n'] ++ serde.toStringPretty m ++ closing).length =
      (serde.toStringPretty m).length + 13 := by
    simp [opening, closing, marker]
  rw [extractBodyAfterFrontmatter, frontmatterBounds_render h ho, Option.map_some, heq, ← hlen]
  refine congrArg some ?_
  dsimp only
  rw [List.drop_left]
  rfl

theorem parseArchivedMessage_render (h : serde.Lawful) (ho : serde.isObject m) :
    parseArchivedMessage serde (renderMessageBundleContent serde m b) =
      .ok (m, b.dropWhile isNewline) := by
  simp only [parseArchivedMessage, extractJsonFrontmatter_render h ho, h.fromStr_newline,
    extractBody_render h ho, Option.getD_some]

theorem dropWhile_isNewline_iff :
    b.dropWhile isNewline = b ↔ ∀ c ∈ b.head?, isNewline c = false := by
  rw [List.dropWhile_eq_self_iff]
  cases b <;> simp

section

-- Objects with a subject that consists of letters.
def Subject : Type :=
  { s : Text // ∀ c ∈ s, c.isAlpha }

def subjectStart : Text :=
  ['{', '\n', ' ', ' ', '"', 's', 'u', 'b', 'j', 'e', 'c', 't', '"', ':', ' ', '"']

def subjectEnd : Text :=
  ['"', '\n', '}']

def trimEnd (s : Text) : Text :=
  (s.reverse.dropWhile isWhitespace).reverse

def parseSubject (s : Text) : Option (Option Subject) :=
  if s = ['n', 'u', 'l', 'l'] then some none
  else match s.dropPrefix? subjectStart with
    | none      => none
    | some rest =>
      if rest.dropWhile Char.isAlpha = subjectEnd then
        some (some ⟨rest.takeWhile Char.isAlpha, fun _ hc => List.mem_takeWhile_imp hc⟩)
      else none

def subjectSerde : Serde (Option Subject) where
  null             := none
  isObject         := Option.isSome
  toStringPretty m := m.elim ['n', 'u', 'l', 'l'] fun s => subjectStart ++ s.val ++ subjectEnd
  fromStr s        := parseSubject (trimEnd s)

theorem trimEnd_append {s ws : Text} (h : ∀ c ∈ ws, isWhitespace c) :
    trimEnd (s ++ ws) = trimEnd s := by
  rw [trimEnd, List.reverse_append, List.dropWhile_append_of_pos fun c hc =>
    h c (List.mem_reverse.mp hc)]
  rfl

theorem trimEnd_concat {s : Text} (h : isWhitespace c = false) : trimEnd (s ++ [c]) = s ++ [c] := by
  rw [trimEnd, List.reverse_append, List.reverse_singleton, List.singleton_append,
    List.dropWhile_cons_of_neg (by rw [h]; nofun), List.reverse_cons, List.reverse_reverse]

theorem Formatted.append_letters {s : Text} (h : Formatted u) (hs : ∀ c ∈ s, c.isAlpha) :
    Formatted (s ++ u) := by
  induction s
  case nil => exact h
  case cons c s hi =>
    have ⟨hc, hs⟩ := List.forall_mem_cons.mp hs
    refine ⟨?_, hi hs⟩
    rintro rfl
    cases hc

theorem parseSubject_append (s : Subject) :
    parseSubject (subjectStart ++ s.val ++ subjectEnd) = some (some s) := by
  have hn : subjectStart ++ s.val ++ subjectEnd ≠ ['n', 'u', 'l', 'l'] :=
    fun h => absurd (List.cons.inj h).left (by decide)
  have hd : (subjectStart ++ s.val ++ subjectEnd).dropPrefix? subjectStart =
      some (s.val ++ subjectEnd) := by
    rw [List.append_assoc]
    exact List.dropPrefix?_append_of_beq _ BEq.rfl
  have hdrop : (s.val ++ subjectEnd).dropWhile Char.isAlpha = subjectEnd :=
    List.dropWhile_append_of_pos s.property
  have htake : (s.val ++ subjectEnd).takeWhile Char.isAlpha = s.val :=
    (List.takeWhile_append_of_pos s.property).trans (List.append_nil _)
  simp only [parseSubject, hn, if_false, hd, hdrop, if_true, htake]
  rfl

theorem subjectSerde_lawful : subjectSerde.Lawful where
  fromStr_toStringPretty m := by
    cases m
    case none   => rfl
    case some s =>
      have ht : trimEnd (subjectStart ++ s.val ++ subjectEnd) = subjectStart ++ s.val ++
          subjectEnd := by
        have he : subjectEnd = ['"', '\n'] ++ ['}'] := rfl
        rw [he, ← List.append_assoc]
        exact trimEnd_concat rfl
      exact (congrArg parseSubject ht).trans (parseSubject_append s)
  fromStr_append s ws h := congrArg parseSubject (trimEnd_append h)
  object m h := by
    cases m
    case none   => cases h
    case some s => exact ⟨_, rfl⟩
  formatted m := by
    cases m
    case none   => simp [subjectSerde, Formatted]
    case some s =>
      have hs : Formatted (s.val ++ subjectEnd) :=
        Formatted.append_letters (by simp [subjectEnd, Formatted]) s.property
      simpa [subjectSerde, subjectStart, Formatted] using hs

end

-- A message is read back unless its file is known to be too large.
theorem readMessageFile_render (h : serde.Lawful) (len : Option Nat) :
    readMessageFile serde len (renderMessageBundleContent serde m b) = .ok (m, b) ↔
      ∀ n ∈ len, n ≤ maxMessageFileLen := by
  rw [readMessageFile, parseMessageFile_render h]
  split
  case isTrue hl =>
    have ⟨n, hn, hlt⟩ := hl
    exact iff_of_false nofun fun h => absurd (h n hn) (Nat.not_le_of_lt hlt)
  case isFalse hl => exact iff_of_true rfl fun n hn => Nat.le_of_not_lt fun hlt => hl ⟨n, hn, hlt⟩

theorem render_roundtrip (h : serde.Lawful) (ho : serde.isObject m) :
    parseMessageFile serde (renderMessageBundleContent serde m b) = .ok (m, b) ∧
      (∃ frontmatter, extractJsonFrontmatter (renderMessageBundleContent serde m b) =
        some frontmatter ∧ serde.fromStr frontmatter = some m) ∧
      extractBodyAfterFrontmatter (renderMessageBundleContent serde m b) =
        some (b.dropWhile isNewline) ∧
      parseArchivedMessage serde (renderMessageBundleContent serde m b) =
        .ok (m, b.dropWhile isNewline) ∧
      (extractBodyAfterFrontmatter (renderMessageBundleContent serde m b) = some b ↔
        ∀ c ∈ b.head?, isNewline c = false) := by
  refine ⟨parseMessageFile_render h, ⟨_, extractJsonFrontmatter_render h ho, ?_⟩,
    extractBody_render h ho, parseArchivedMessage_render h ho, ?_⟩
  · exact h.fromStr_newline m
  · rw [extractBody_render h ho, Option.some.injEq, dropWhile_isNewline_iff]

def greeting : Subject :=
  ⟨['H', 'i'], List.forall_mem_cons.mpr ⟨rfl, List.forall_mem_cons.mpr ⟨rfl, nofun⟩⟩⟩

-- A body that looks like the end of the frontmatter.
def fence : Text :=
  ['-', '-', '-', '\n', 'H', 'i', '\n']

theorem render_roundtrip_fence :
    parseMessageFile subjectSerde (renderMessageBundleContent subjectSerde (some greeting) fence) =
        .ok (some greeting, fence) ∧
      extractBodyAfterFrontmatter (renderMessageBundleContent subjectSerde (some greeting) fence) =
        some fence := by
  have ⟨hp, _, _, _, hb⟩ : _ ∧ _ ∧ _ ∧ _ ∧ (extractBodyAfterFrontmatter
      (renderMessageBundleContent subjectSerde (some greeting) fence) = some fence ↔ _) :=
    render_roundtrip subjectSerde_lawful rfl
  refine ⟨hp, hb.mpr fun c hc => ?_⟩
  cases hc
  rfl

-- A body that starts with an empty line.
theorem not_roundtrip_empty_line :
    extractBodyAfterFrontmatter
      (renderMessageBundleContent subjectSerde (some greeting) ('\n' :: fence)) ≠
        some ('\n' :: fence) := by
  rw [extractBody_render subjectSerde_lawful rfl]
  decide

end Archive
