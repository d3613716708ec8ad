import AgentMail.Share.Theorems.Scrub
import Mathlib.Algebra.BigOperators.Group.List.Basic

open Pattern (Str)
open Regex

namespace Scrub

instance : AddCommMonoid Tally where
  add_assoc a b c := by ext <;> exact Nat.add_assoc ..
  zero_add a      := by ext <;> exact Nat.zero_add _
  add_zero a      := by ext <;> exact Nat.add_zero _
  add_comm a b    := by ext <;> exact Nat.add_comm ..
  nsmul           := nsmulRec

@[simp]
theorem MessageEdit.apply_id {edit : MessageEdit} {row : MessageRow} :
    (edit.apply row).id = row.id :=
  rfl

section Page

variable {messages : Table MessageRow.id} {lastId : Int} {row : MessageRow}

theorem mem_rowsAfter : row ∈ rowsAfter messages lastId ↔ row ∈ messages.rows ∧
    lastId < row.id := by
  simp [rowsAfter]

theorem pairwise_rowsAfter : (rowsAfter messages lastId).Pairwise (·.id < ·.id) := by
  have hle : (rowsAfter messages lastId).Pairwise fun a b => decide (a.id ≤ b.id) := by
    refine List.pairwise_mergeSort (fun a b c hab hbc => ?_) (fun a b => ?_) _
    · simp only [decide_eq_true_eq] at hab hbc ⊢
      exact hab.trans hbc
    · simpa using Int.le_total a.id b.id
  have hne : (rowsAfter messages lastId).Pairwise (·.id ≠ ·.id) := by
    have hp :=
      (List.mergeSort_perm (messages.rows.filter (lastId < ·.id)) (·.id ≤ ·.id)).map MessageRow.id
    exact List.pairwise_map.mp (hp.nodup_iff.mpr ((List.filter_sublist.map _).nodup messages.nodup))
  exact (hle.and hne).imp fun h => lt_of_le_of_ne (of_decide_eq_true h.left) h.right

theorem pairwise_page : (page messages lastId).Pairwise (·.id < ·.id) :=
  pairwise_rowsAfter.sublist (List.take_sublist 500 _)

theorem mem_of_mem_page (h : row ∈ page messages lastId) : row ∈ messages.rows ∧ lastId < row.id :=
  mem_rowsAfter.mp (List.mem_of_mem_take h)

theorem mem_page_iff {last : MessageRow} (hl : (page messages lastId).getLast? = some last)
    (hr : row ∈ messages.rows) :
    row ∈ page messages lastId ↔ lastId < row.id ∧ row.id ≤ last.id := by
  have ⟨front, hf⟩ := List.getLast?_eq_some_iff.mp hl
  constructor
  case mp =>
    intro h
    have hp : (page messages lastId).Pairwise (·.id < ·.id) := pairwise_page
    refine ⟨(mem_of_mem_page h).right, ?_⟩
    rw [hf] at h hp
    obtain h | h := List.mem_append.mp h
    · exact (List.pairwise_append.mp hp |>.right.right row h last (List.mem_singleton_self last)).le
    · exact (List.mem_singleton.mp h ▸ le_rfl)
  case mpr =>
    intro ⟨h, hle⟩
    have hs : (rowsAfter messages lastId).Pairwise (·.id < ·.id) := pairwise_rowsAfter
    have hm := mem_rowsAfter.mpr ⟨hr, h⟩
    rw [← (rowsAfter messages lastId).take_append_drop 500] at hs hm
    obtain hm | hm := List.mem_append.mp hm
    · exact hm
    · have hlt := (List.pairwise_append.mp hs).right.right last (List.mem_of_getLast? hl) row hm
      omega

theorem nodup_rows : messages.rows.Nodup :=
  List.Nodup.of_map _ messages.nodup

theorem filter_perm_page {last : MessageRow} (hl : (page messages lastId).getLast? = some last) :
    (messages.rows.filter (lastId < ·.id)).Perm
      (page messages lastId ++ messages.rows.filter (last.id < ·.id)) := by
  have hlast := (mem_of_mem_page (List.mem_of_getLast? hl)).right
  have hp : (page messages lastId).Nodup := pairwise_page.imp fun h he => by simp [he] at h
  have hd : (page messages lastId).Disjoint (messages.rows.filter (last.id < ·.id)) := by
    intro row hm hf
    have ⟨hr, hlt⟩ := List.mem_filter.mp hf
    have hle := ((mem_page_iff hl hr).mp hm).right
    simp at hlt
    omega
  refine (List.perm_ext_iff_of_nodup (nodup_rows.filter _) (hp.append (nodup_rows.filter _) hd)).mpr
    fun row => ?_
  rw [List.mem_append, List.mem_filter, List.mem_filter]
  simp only [decide_eq_true_eq]
  constructor
  case mp =>
    intro ⟨hr, h⟩
    by_cases hle : row.id ≤ last.id
    case pos => exact .inl ((mem_page_iff hl hr).mpr ⟨h, hle⟩)
    case neg => exact .inr ⟨hr, by omega⟩
  case mpr =>
    rintro (h | ⟨hr, h⟩)
    · exact mem_of_mem_page h
    · exact ⟨hr, by omega⟩

theorem find?_page {last : MessageRow} (hl : (page messages lastId).getLast? = some last)
    (hr : row ∈ messages.rows) :
    (page messages lastId).find? (·.id = row.id) = if lastId < row.id ∧ row.id ≤ last.id then
      some row else none := by
  have hu {read : MessageRow} (hm : read ∈ page messages lastId) (he : read.id = row.id) :
      read = row :=
    List.inj_on_of_nodup_map messages.nodup (mem_of_mem_page hm).left hr he
  split
  case isTrue h =>
    have hm := (mem_page_iff hl hr).mpr h
    cases hf : (page messages lastId).find? (·.id = row.id)
    case none => exact absurd (by simp) (List.find?_eq_none.mp hf row hm)
    case some read =>
      have he := hu (List.mem_of_find?_eq_some hf) (by simpa using List.find?_some hf)
      rw [he]
  case isFalse h =>
    refine List.find?_eq_none.mpr fun read hm he => h ?_
    have he := hu hm (by simpa using he)
    exact (mem_page_iff hl hr).mp (he ▸ hm)

theorem not_lt_of_page_eq_nil (h : page messages lastId = []) (hr : row ∈ messages.rows) :
    ¬lastId < row.id := by
  intro hlt
  have hn := (List.take_eq_nil_iff.mp h).resolve_left (by decide)
  exact List.not_mem_nil (hn ▸ mem_rowsAfter.mpr ⟨hr, hlt⟩)

end Page

section Rows

variable {engine : RegexEngine} {toLowercase : Char → List Char} {fromStr : Str → Option Json}
  {toString : List Json → Str} {cfg : ScrubConfig}
variable {messages : Table MessageRow.id} {tally : Tally} {rows : List MessageRow} {lastId : Int}

theorem rows_foldl_scrubRow (hn : rows.Pairwise (·.id < ·.id)) :
    (rows.foldl (scrubRow engine toLowercase fromStr toString cfg) (messages, tally)).1.rows =
      messages.rows.map fun row =>
      (rows.find? (·.id = row.id)).elim row fun read =>
        (scrubMessage engine toLowercase fromStr toString cfg read).1.apply row := by
  induction rows generalizing messages tally
  case nil => simp
  case cons read rows hi =>
    have ⟨hread, hn⟩ := List.pairwise_cons.mp hn
    rw [List.foldl_cons, scrubRow, hi hn]
    simp only [Table.update, List.map_map]
    refine List.map_congr_left fun row _ => ?_
    by_cases h : row.id = read.id
    case neg => simp [h, Ne.symm h]
    case pos =>
      have hnone : rows.find? (·.id = read.id) = none :=
        List.find?_eq_none.mpr fun a ha => by simpa using (hread a ha).ne'
      simp [h, hnone]

theorem tally_foldl_scrubRow :
    (rows.foldl (scrubRow engine toLowercase fromStr toString cfg) (messages, tally)).2 =
      tally + (rows.map fun row =>
        (scrubMessage engine toLowercase fromStr toString cfg row).2).sum := by
  induction rows generalizing messages tally
  case nil               => simp
  case cons row rows hi =>
    rw [List.foldl_cons, scrubRow, hi, List.map_cons, List.sum_cons, add_assoc]

-- What one page does, as long as its rows are in the table.
variable (engine toLowercase fromStr toString cfg tally) in
theorem scrubPage_eq {last : MessageRow} (hl : (page messages lastId).getLast? = some last) :
    ∃ messages',
      (page messages lastId).foldl (scrubRow engine toLowercase fromStr toString cfg)
        (messages, tally) = (messages',
        tally + ((page messages lastId).map fun row =>
          (scrubMessage engine toLowercase fromStr toString cfg row).2).sum) ∧
      messages'.rows = messages.rows.map fun row =>
        if lastId < row.id ∧ row.id ≤ last.id then
          (scrubMessage engine toLowercase fromStr toString cfg row).1.apply row else row := by
  refine ⟨_, Prod.ext rfl tally_foldl_scrubRow, ?_⟩
  refine (rows_foldl_scrubRow pairwise_page).trans (List.map_congr_left fun row hr => ?_)
  rw [find?_page hl hr]
  split <;> rfl

-- The rows from a page on are scrubbed, each as it was in the beginning.
variable (engine toLowercase fromStr toString cfg tally) in
theorem scrubPages_eq {fuel : Nat} (hf : (messages.rows.filter (lastId < ·.id)).length < fuel) :
    ∃ messages',
      scrubPages engine toLowercase fromStr toString cfg fuel lastId (messages, tally) =
        some (messages',
        tally + ((messages.rows.filter (lastId < ·.id)).map fun row =>
          (scrubMessage engine toLowercase fromStr toString cfg row).2).sum) ∧
      messages'.rows = messages.rows.map fun row =>
        if lastId < row.id then
          (scrubMessage engine toLowercase fromStr toString cfg row).1.apply row else row := by
  induction fuel generalizing messages tally lastId
  case zero => omega
  case succ fuel hi =>
    rw [scrubPages]
    dsimp only
    split
    case h_1 hl =>
      have hnil := List.getLast?_eq_none_iff.mp hl
      have hr (row) (h : row ∈ messages.rows) := not_lt_of_page_eq_nil hnil h
      have he : messages.rows.filter (lastId < ·.id) = [] :=
        List.filter_eq_nil_iff.mpr (by simpa using hr)
      refine ⟨messages, by simp [he], ?_⟩
      exact ((List.map_congr_left fun row h => if_neg (hr row h)).trans (List.map_id _)).symm
    case h_2 last hl =>
      have hlast := List.mem_of_getLast? hl
      have hlt := (mem_of_mem_page hlast).right
      have hp := filter_perm_page hl
      have ⟨messages₁, hs, hrows⟩ := scrubPage_eq engine toLowercase fromStr toString cfg tally hl
      have hrest :
          messages₁.rows.filter (last.id < ·.id) = messages.rows.filter (last.id < ·.id) := by
        rw [hrows, List.filter_map]
        have hf : messages.rows.filter ((last.id < ·.id) ∘ fun row =>
            if lastId < row.id ∧ row.id ≤ last.id then
              (scrubMessage engine toLowercase fromStr toString cfg row).1.apply row else row) =
              messages.rows.filter (last.id < ·.id) := by
          refine List.filter_congr fun row _ => ?_
          rw [Function.comp_apply, apply_ite MessageRow.id, MessageEdit.apply_id, ite_self]
        refine hf ▸ (List.map_congr_left fun row h => ?_).trans (List.map_id _)
        have h : row ∈ messages.rows.filter (last.id < ·.id) := hf ▸ h
        have hlt := of_decide_eq_true (List.mem_filter.mp h).right
        exact if_neg fun h => by omega
      have hlen := hp.length_eq
      rw [List.length_append] at hlen
      have hpos := List.length_pos_of_mem hlast
      rw [hs, (hp.map _).sum_eq, List.map_append, List.sum_append, ← add_assoc]
      generalize tally + ((page messages lastId).map _).sum = tally₁
      have ⟨messages', he, hm⟩ := @hi messages₁ tally₁ last.id (by rw [hrest]; omega)
      refine ⟨messages', by rw [he, hrest], ?_⟩
      rw [hm, hrows, List.map_map]
      refine List.map_congr_left fun row _ => ?_
      by_cases hle : row.id ≤ last.id
      case pos =>
        have hn : ¬last.id < row.id := by omega
        simp only [Function.comp_apply, apply_ite MessageRow.id, MessageEdit.apply_id, ite_self, hn,
          if_false, hle, and_true]
      case neg =>
        have hlt' : last.id < row.id := by omega
        simp [hle, hlt', hlt.trans hlt']

end Rows

section Clean

variable {engine : RegexEngine} {toLowercase : Char → List Char} {fromStr : Str → Option Json}
  {toString : List Json → Str} {cfg : ScrubConfig}
variable {row : MessageRow} {values : List Json} {text : Str} {n limit : Nat} {preset : ScrubPreset}

-- The attachments, as they were written or as they would be read.
def AttachmentsClean (toLowercase : Char → List Char) (fromStr : Str → Option Json)
    (toString : List Json → Str) (text : Str) : Prop :=
  ∃ values, (text = toString values ∨ values = parseAttachmentsJson fromStr text) ∧
    ∀ value ∈ values, value.All (¬isRedactKey toLowercase ·) Clean

variable (text) in
theorem within_of_mem_parse
    (hf : ∀ s value, fromStr s = some value → value.Within (n + 1)) :
    ∀ value ∈ parseAttachmentsJson fromStr text, value.Within n := by
  intro value hm
  have of_array {s values} (h : fromStr s = some (.array values)) (hm : value ∈ values) :
      value.Within n := by
    cases hf s _ h
    case array h => exact h value hm
  unfold parseAttachmentsJson at hm
  split at hm
  case isTrue => cases hm
  case isFalse =>
    split at hm
    case h_1 h => exact of_array h hm
    case h_2 =>
      split at hm
      case h_1 h => exact of_array h hm
      case h_2   => cases hm
    case h_3 => cases hm

theorem scrubAttachments_nil : scrubAttachments engine toLowercase cfg [] = ([], 0, 0) := by
  simp [scrubAttachments]

theorem scrubAttachments_fst (hc : cfg.scrubSecrets) :
    (scrubAttachments engine toLowercase cfg values).1 =
      values.map fun value => (scrubStructure engine toLowercase 1 value).1 := by
  rw [scrubAttachments, hc, Bool.true_and]
  cases values
  case nil => rfl
  case cons v vs =>
    rw [← scrubValues_fst, scrubStructure]
    rfl

variable (toLowercase) in
theorem scrubAttachments_clean (he : engine.Lawful) (hc : cfg.scrubSecrets) (hn : n + 1 ≤ 256)
    (hv : ∀ value ∈ values, value.Within n) :
    ∀ value ∈ (scrubAttachments engine toLowercase cfg values).1,
      value.Within n ∧ value.All (¬isRedactKey toLowercase ·) Clean := by
  rw [scrubAttachments_fst hc]
  intro _ h
  obtain ⟨value, hm, rfl⟩ := List.mem_map.mp h
  exact ⟨within_scrubStructure (hv value hm), all_scrubStructure he (hv value hm) (by omega)⟩

theorem clean_placeholder : Clean "[Message body redacted]".toList := by
  have h : scrubText backtracking "[Message body redacted]".toList =
      ("[Message body redacted]".toList, 0) := by
    decide +kernel
  intro r hr w hw hin
  exact absurd hin ((scrubText_eq_self_iff lawful_backtracking).mp h r hr w hw)

theorem getD_scrubText_clean (he : engine.Lawful) :
    Clean ((if (scrubText engine text).1 ≠ text then some (scrubText engine text).1
      else none).getD text) := by
  split
  case isTrue    => exact clean_scrubText he
  case isFalse h => exact (not_not.mp h) ▸ clean_scrubText he

theorem redactBody_clean (he : engine.Lawful)
    (hb : cfg.bodyPlaceholder.getD "[Message body redacted]" = "[Message body redacted]") :
    Clean ((redactBody cfg (scrubText engine text).1 text).1.getD text) := by
  have hp := clean_placeholder
  rw [redactBody, hb]
  generalize "[Message body redacted]".toList = placeholder at hp ⊢
  cases cfg.redactBody
  case false =>
    simp only [Bool.false_eq_true, if_false]
    exact getD_scrubText_clean he
  case true =>
    simp only [if_true]
    split
    case isTrue    => exact hp
    case isFalse h => exact (not_not.mp h).symm ▸ hp

variable (toLowercase toString row) in
theorem scrubMessage_attachments (he : engine.Lawful) (hc : cfg.scrubSecrets) (hn : n + 1 ≤ 256)
    (hf : ∀ s value, fromStr s = some value → value.Within (n + 1)) :
    let row' := (scrubMessage engine toLowercase fromStr toString cfg row).1.apply row
    ∃ values, (row'.attachments = toString values ∨
      values = parseAttachmentsJson fromStr row'.attachments) ∧
      ∀ value ∈ values, value.Within n ∧ value.All (¬isRedactKey toLowercase ·) Clean := by
  simp only [scrubMessage, MessageEdit.apply]
  cases hdrop : cfg.dropAttachments && !(parseAttachmentsJson fromStr row.attachments).isEmpty
  case true =>
    simp only [if_true, Bool.true_or, Option.getD_some, scrubAttachments_nil]
    exact ⟨[], .inl rfl, nofun⟩
  case false =>
    have hw := within_of_mem_parse row.attachments hf
    have hv := scrubAttachments_clean toLowercase he hc hn hw
    simp only [Bool.false_eq_true, if_false, Bool.false_or]
    split
    case isTrue    => exact ⟨_, .inl rfl, hv⟩
    case isFalse h =>
      simp only [Bool.or_eq_true, not_or, decide_eq_true_eq, not_not] at h
      rw [h.left] at hv
      exact ⟨_, .inr rfl, hv⟩

variable (toLowercase toString row) in
theorem scrubMessage_clean (he : engine.Lawful) (hc : cfg.scrubSecrets)
    (hb : cfg.bodyPlaceholder.getD "[Message body redacted]" = "[Message body redacted]")
    (hf : ∀ s value, fromStr s = some value → value.Within 256) :
    let row' := (scrubMessage engine toLowercase fromStr toString cfg row).1.apply row
    Clean row'.subject ∧ Clean row'.bodyMd ∧
      AttachmentsClean toLowercase fromStr toString row'.attachments := by
  refine ⟨?_, ?_, ?_⟩
  · simp only [scrubMessage, hc, if_true, MessageEdit.apply]
    exact getD_scrubText_clean he
  · simp only [scrubMessage, hc, if_true, MessageEdit.apply]
    exact redactBody_clean he hb
  · have ⟨values, hor, hv⟩ := scrubMessage_attachments toLowercase toString row he hc le_rfl hf
    exact ⟨values, hor, fun value hm => (hv value hm).right⟩

theorem redactBody_of_redact {body : Str} (h : cfg.redactBody) :
    (redactBody cfg body text).1.getD text =
      (cfg.bodyPlaceholder.getD "[Message body redacted]").toList := by
  rw [redactBody, if_pos h]
  generalize (cfg.bodyPlaceholder.getD "[Message body redacted]").toList = placeholder
  dsimp only
  split
  case isTrue    => rfl
  case isFalse h => exact not_not.mp h

theorem scrubSecrets_of_ne (h : preset ≠ .archive) : (presetConfig preset).scrubSecrets := by
  cases preset
  case standard => rfl
  case strict   => rfl
  case archive  => exact absurd rfl h

theorem bodyPlaceholder_presetConfig {preset : ScrubPreset} :
    (presetConfig preset).bodyPlaceholder.getD "[Message body redacted]" =
      "[Message body redacted]" := by
  cases preset <;> rfl

-- Nothing of the body or of the attachments is left.
def Emptied (fromStr : Str → Option Json) (toString : List Json → Str) (row : MessageRow) : Prop :=
  row.bodyMd = "[Message body redacted]".toList ∧
    (row.attachments = toString [] ∨ parseAttachmentsJson fromStr row.attachments = [])

theorem scrubMessage_strict :
    Emptied fromStr toString
      ((scrubMessage engine toLowercase fromStr toString (presetConfig .strict) row).1.apply
      row) := by
  constructor
  case left =>
    simp only [scrubMessage, MessageEdit.apply]
    rw [redactBody_of_redact rfl]
    exact congrArg String.toList bodyPlaceholder_presetConfig
  case right =>
    have hd : (presetConfig .strict).dropAttachments = true := rfl
    simp only [scrubMessage, MessageEdit.apply, hd, Bool.true_and]
    cases hp : parseAttachmentsJson fromStr row.attachments
    case nil       => exact .inr (by simpa [scrubAttachments_nil] using hp)
    case cons v vs => exact .inl (by simp [scrubAttachments_nil])

-- What is relied on of `serde_json`, which reads no deeper than some limit: what is printed can be
-- read, with the same keys and strings in it. Numbers may differ.
structure Serde (limit : Nat) (fromStr : Str → Option Json) (toString : List Json → Str) :
    Prop where
  pos      : 0 < limit
  limit_le : limit ≤ 256
  nil      : fromStr [] = none
  within   : ∀ s value, fromStr s = some value → value.Within limit
  printed  : ∀ values, (Json.array values).Within limit → ∃ values',
    fromStr (toString values) = some (.array values') ∧ values'.length = values.length ∧
    ∀ key string, (∀ value ∈ values, value.All key string) → ∀ value ∈ values', value.All key string

theorem Serde.parse_toString (h : Serde limit fromStr toString)
    (hw : (Json.array values).Within limit) : ∃ values',
    parseAttachmentsJson fromStr (toString values) = values' ∧ values'.length = values.length ∧
    ∀ key string, (∀ value ∈ values, value.All key string) →
      ∀ value ∈ values', value.All key string := by
  have ⟨values', hp, hlen, hall⟩ := h.printed values hw
  refine ⟨values', ?_, hlen, hall⟩
  have hn : toString values ≠ [] := by
    intro hn
    rw [hn, h.nil] at hp
    exact nomatch hp
  rw [parseAttachmentsJson, if_neg (by simpa using hn), hp]

theorem Serde.within_parse (h : Serde limit fromStr toString) :
    (Json.array (parseAttachmentsJson fromStr text)).Within limit := by
  obtain ⟨m, rfl⟩ := Nat.exists_eq_succ_of_ne_zero h.pos.ne'
  exact .array (within_of_mem_parse text h.within)

theorem scrubAttachments_eq_self (he : engine.Lawful) (hw : (Json.array values).Within n)
    (hn : n ≤ 256)
    (h : ∀ value ∈ values, value.All (¬isRedactKey toLowercase ·) (¬ContainsSecret ·)) :
    scrubAttachments engine toLowercase cfg values = (values, 0, 0) := by
  rw [scrubAttachments]
  split
  case isFalse => rfl
  case isTrue  =>
    rw [(scrubStructure_eq_self_iff_all he hw (by omega)).mpr (.array h)]

-- There is nothing to scrub.
structure Settled (toLowercase : Char → List Char) (fromStr : Str → Option Json)
    (cfg : ScrubConfig) (row : MessageRow) : Prop where
  subject     : ¬ContainsSecret row.subject
  bodyMd      : ¬ContainsSecret row.bodyMd
  attachments : ∀ value ∈ parseAttachmentsJson fromStr row.attachments,
    value.All (¬isRedactKey toLowercase ·) (¬ContainsSecret ·)
  redacted    : cfg.redactBody →
    row.bodyMd = (cfg.bodyPlaceholder.getD "[Message body redacted]").toList
  dropped     : cfg.dropAttachments → parseAttachmentsJson fromStr row.attachments = []

theorem Settled.scrubMessage_eq (h : Settled toLowercase fromStr cfg row)
    (he : engine.Lawful) (hs : Serde limit fromStr toString) :
    scrubMessage engine toLowercase fromStr toString cfg row = (⟨none, none, none⟩, 0) := by
  have hsubject := (scrubText_eq_self_iff_not he).mpr h.subject
  have hbody := (scrubText_eq_self_iff_not he).mpr h.bodyMd
  have hdrop : (cfg.dropAttachments && !(parseAttachmentsJson fromStr row.attachments).isEmpty) =
      false := by
    cases hd : cfg.dropAttachments
    case false => rfl
    case true  => rw [h.dropped hd]; rfl
  have ha : scrubAttachments engine toLowercase cfg (parseAttachmentsJson fromStr row.attachments) =
      (_, 0, 0) :=
    scrubAttachments_eq_self he hs.within_parse hs.limit_le h.attachments
  have hr : redactBody cfg row.bodyMd row.bodyMd = (none, 0) := by
    rw [redactBody]
    split
    case isTrue hr => exact if_neg (not_not.mpr (h.redacted hr))
    case isFalse   => rw [if_neg (not_not.mpr rfl)]
  simp only [scrubMessage, hsubject, hbody, ite_self, hdrop, Bool.false_eq_true, if_false, ha, hr,
    ne_eq, not_true_eq_false, decide_false, Bool.or_self, gt_iff_lt, lt_self_iff_false, add_zero]
  rfl

variable (toLowercase row) in
theorem Serde.scrubMessage_parse (hs : Serde limit fromStr toString)
    (he : engine.Lawful) (hc : cfg.scrubSecrets) :
    ∀ value ∈ parseAttachmentsJson fromStr
      ((scrubMessage engine toLowercase fromStr toString cfg row).1.apply row).attachments,
      value.All (¬isRedactKey toLowercase ·) Clean := by
  have hlimit := hs.limit_le
  obtain ⟨n, rfl⟩ := Nat.exists_eq_succ_of_ne_zero hs.pos.ne'
  have ⟨values, hor, hv⟩ :=
    scrubMessage_attachments toLowercase toString row he hc hlimit hs.within
  have ha (value) (hm : value ∈ values) := (hv value hm).right
  obtain h | h := hor
  · have ⟨values', hp, _, hall⟩ := hs.parse_toString (.array fun value hm => (hv value hm).left)
    rw [h, hp]
    exact hall _ _ ha
  · exact h ▸ ha

-- The text has a URL with a password in it.
def HasCredentials (text : Str) : Prop :=
  ∃ w ∈ urlCredentials.language, w <:+: text

theorem not_containsSecret_of_clean (h : Clean text) (hc : ¬HasCredentials text) :
    ¬ContainsSecret text :=
  fun ⟨r, hr, w, hw, hin⟩ => hc ⟨w, (h r hr w hw hin).left, hin⟩

-- No text that is read of the message has credentials.
structure NoCredentials (fromStr : Str → Option Json) (row : MessageRow) : Prop where
  subject     : ¬HasCredentials row.subject
  bodyMd      : ¬HasCredentials row.bodyMd
  attachments : ∀ value ∈ parseAttachmentsJson fromStr row.attachments,
    value.All (fun _ => True) (¬HasCredentials ·)

-- Nothing that is read of the message looks like a secret.
structure Scrubbed (toLowercase : Char → List Char) (fromStr : Str → Option Json)
    (preset : ScrubPreset) (row : MessageRow) : Prop where
  subject     : Clean row.subject
  bodyMd      : Clean row.bodyMd
  attachments : ∀ value ∈ parseAttachmentsJson fromStr row.attachments,
    value.All (¬isRedactKey toLowercase ·) Clean
  strict      : preset = .strict → row.bodyMd = "[Message body redacted]".toList ∧
    parseAttachmentsJson fromStr row.attachments = []

theorem Serde.parse_nil (hs : Serde limit fromStr toString) :
    parseAttachmentsJson fromStr (toString []) = [] := by
  obtain ⟨n, hn⟩ := Nat.exists_eq_succ_of_ne_zero hs.pos.ne'
  have hw : (Json.array []).Within limit := hn ▸ .array nofun
  have ⟨values, hp, hlen, _⟩ := hs.parse_toString hw
  rw [hp, List.length_eq_zero_iff.mp hlen]

variable (toLowercase row) in
theorem Serde.scrubbed (hs : Serde limit fromStr toString) (he : engine.Lawful)
    (hp : preset ≠ .archive) : Scrubbed toLowercase fromStr preset
    ((scrubMessage engine toLowercase fromStr toString (presetConfig preset) row).1.apply row) := by
  have hc := scrubSecrets_of_ne hp
  have ⟨hsubject, hbody, _⟩ :=
    scrubMessage_clean toLowercase toString row he hc bodyPlaceholder_presetConfig
      fun s value h => (hs.within s value h).mono hs.limit_le
  refine ⟨hsubject, hbody, hs.scrubMessage_parse toLowercase row he hc, ?_⟩
  rintro rfl
  have hs' : Emptied fromStr toString
      ((scrubMessage engine toLowercase fromStr toString (presetConfig .strict) row).1.apply row) :=
    scrubMessage_strict
  refine ⟨hs'.left, ?_⟩
  obtain ha | ha := hs'.right
  · exact ha ▸ hs.parse_nil
  · exact ha

theorem Scrubbed.settled (h : Scrubbed toLowercase fromStr preset row)
    (hc : NoCredentials fromStr row) :
    Settled toLowercase fromStr (presetConfig preset) row where
  subject     := not_containsSecret_of_clean h.subject hc.subject
  bodyMd      := not_containsSecret_of_clean h.bodyMd hc.bodyMd
  attachments value hm := ((h.attachments value hm).and (hc.attachments value hm)).imp
    fun _ ⟨hs, hc⟩ => not_containsSecret_of_clean hs hc
  redacted hr := by
    cases preset
    case standard => exact nomatch hr
    case strict   =>
      exact (h.strict rfl).left.trans (congrArg String.toList bodyPlaceholder_presetConfig.symm)
    case archive  => exact nomatch hr
  dropped hd := by
    cases preset
    case standard => exact nomatch hd
    case strict   => exact (h.strict rfl).right
    case archive  => exact nomatch hd

end Clean

section Snapshot

variable {engine : RegexEngine} {toLowercase : Char → List Char} {fromStr : Str → Option Json}
  {toString : List Json → Str} {cfg : ScrubConfig}
variable {preset : ScrubPreset} {snapshot snapshot' : Snapshot} {summary : ScrubSummary}
  {row : MessageRow} {limit : Nat}

def cleared (cfg : ScrubConfig) (snapshot : Snapshot) : Snapshot :=
  (clearAgentLinks cfg
    (clearFileReservations cfg (clearRecipients cfg (clearAckState cfg snapshot).1).1).1).1

theorem cleared_messages :
    (cleared cfg snapshot).messages.rows = snapshot.messages.rows.map fun row =>
      if cfg.clearAckState then { row with ackRequired := 0 } else row := by
  have ha : (cleared cfg snapshot).messages = (clearAckState cfg snapshot).1.messages := by
    unfold cleared clearAgentLinks clearFileReservations clearRecipients
    split <;> split <;> split <;> rfl
  rw [ha, clearAckState]
  split
  case isTrue  => simp [Table.update]
  case isFalse => simp

variable (engine toLowercase fromStr toString preset snapshot) in
theorem scrubSnapshot_eq : ∃ messages summary,
    scrubSnapshot engine toLowercase fromStr toString preset snapshot =
      some ({ cleared (presetConfig preset) snapshot with messages }, summary) ∧
    messages.rows = ((cleared (presetConfig preset) snapshot).messages.rows.map fun row =>
      if 0 < row.id then
        (scrubMessage engine toLowercase fromStr toString (presetConfig preset) row).1.apply row
        else row) ∧
    summary.tally =
      (((cleared (presetConfig preset) snapshot).messages.rows.filter (0 < ·.id)).map fun row =>
      (scrubMessage engine toLowercase fromStr toString (presetConfig preset) row).2).sum := by
  have hlen := Nat.lt_succ_of_le <|
    List.length_filter_le (0 < ·.id) (cleared (presetConfig preset) snapshot).messages.rows
  have ⟨messages, hs, hm⟩ :=
    scrubPages_eq engine toLowercase fromStr toString (presetConfig preset) 0 hlen
  exact ⟨messages, _, congrArg (Option.bind · _) hs, hm, zero_add _⟩

theorem cleared_of_ne (h : preset ≠ .archive) : cleared (presetConfig preset) snapshot =
    { snapshot with
    messages                :=
      snapshot.messages.update (fun _ => true) ({ · with ackRequired := 0 }) fun _ => rfl
    messageRecipients       :=
      snapshot.messageRecipients.update (fun _ => true) ({ · with readTs := none, ackTs := none })
        fun _ => rfl
    fileReservationReleases := snapshot.fileReservationReleases.map fun _ => []
    fileReservations        := []
    agentLinks              := snapshot.agentLinks.map fun _ => [] } := by
  cases preset
  case standard => rfl
  case strict   => rfl
  case archive  => exact absurd rfl h

theorem exists_of_mem_scrubSnapshot (hp : preset ≠ .archive)
    (h : scrubSnapshot engine toLowercase fromStr toString preset snapshot =
      some (snapshot', summary)) (hr : row ∈ snapshot'.messages.rows) :
    ∃ row₀ : MessageRow, row₀.ackRequired = 0 ∧ row = if 0 < row₀.id then
      (scrubMessage engine toLowercase fromStr toString (presetConfig preset) row₀).1.apply row₀
      else row₀ := by
  have ⟨messages, summary, hs, hm, _⟩ :=
    scrubSnapshot_eq engine toLowercase fromStr toString preset snapshot
  cases h.symm.trans hs
  rw [cleared_of_ne hp] at hm
  rw [hm, Table.update, List.map_map] at hr
  obtain ⟨row, _, rfl⟩ := List.mem_map.mp hr
  exact ⟨{ row with ackRequired := 0 }, rfl, rfl⟩

-- It is gone who has read, acknowledged, reserved and linked what.
structure Cleared (snapshot : Snapshot) : Prop where
  messages     : ∀ row ∈ snapshot.messages.rows, row.ackRequired = 0
  recipients   : ∀ row ∈ snapshot.messageRecipients.rows, row.readTs = none ∧ row.ackTs = none
  reservations : snapshot.fileReservations = []
  releases     : ∀ releases ∈ snapshot.fileReservationReleases, releases = []
  links        : ∀ links ∈ snapshot.agentLinks, links = []

theorem cleared_scrubSnapshot (hp : preset ≠ .archive)
    (h : scrubSnapshot engine toLowercase fromStr toString preset snapshot =
      some (snapshot', summary)) : Cleared snapshot' := by
  have hrows (row) (hr : row ∈ snapshot'.messages.rows) := exists_of_mem_scrubSnapshot hp h hr
  have ⟨messages, summary, hs, hm, _⟩ :=
    scrubSnapshot_eq engine toLowercase fromStr toString preset snapshot
  cases h.symm.trans hs
  rw [cleared_of_ne hp] at hrows ⊢
  refine ⟨fun row hr => ?_, fun row hr => ?_, rfl, fun releases hr => ?_, fun links hl => ?_⟩
  · obtain ⟨row₀, ha, rfl⟩ := hrows row hr
    split <;> exact ha
  · obtain ⟨row, _, rfl⟩ := List.mem_map.mp hr
    exact ⟨rfl, rfl⟩
  · obtain ⟨_, _, rfl⟩ := Option.map_eq_some_iff.mp hr
    rfl
  · obtain ⟨_, _, rfl⟩ := Option.map_eq_some_iff.mp hl
    rfl

theorem Cleared.cleared_eq (h : Cleared snapshot) (hp : preset ≠ .archive) :
    cleared (presetConfig preset) snapshot = snapshot := by
  have map_nil {l : Option (List Int)} (h : ∀ ids ∈ l, ids = []) : l.map (fun _ => []) = l := by
    cases l
    case none     => rfl
    case some ids => rw [h ids rfl]; rfl
  have hm : snapshot.messages.update (fun _ => true) ({ · with ackRequired := 0 }) (fun _ => rfl) =
      snapshot.messages := by
    refine Table.ext ((List.map_congr_left fun row hr => ?_).trans (List.map_id _))
    rw [if_pos rfl, ← h.messages row hr]
    rfl
  have hr : snapshot.messageRecipients.update (fun _ => true)
      ({ · with readTs := none, ackTs := none }) (fun _ => rfl) = snapshot.messageRecipients := by
    refine Table.ext ((List.map_congr_left fun row hr => ?_).trans (List.map_id _))
    have ⟨hread, hack⟩ := h.recipients row hr
    rw [if_pos rfl]
    cases row
    cases hread
    cases hack
    rfl
  rw [cleared_of_ne hp, hm, hr, map_nil h.releases, map_nil h.links, ← h.reservations]

variable (toLowercase) in
theorem Serde.scrubSnapshot_eq_self (hs : Serde limit fromStr toString)
    (he : engine.Lawful) (hc : cleared (presetConfig preset) snapshot = snapshot)
    (h : ∀ row ∈ snapshot.messages.rows, 0 < row.id →
      Settled toLowercase fromStr (presetConfig preset) row) :
    ∃ summary, scrubSnapshot engine toLowercase fromStr toString preset snapshot =
      some (snapshot, summary) ∧ summary.tally = 0 := by
  have ⟨messages, summary, heq, hm, ht⟩ :=
    scrubSnapshot_eq engine toLowercase fromStr toString preset snapshot
  rw [hc] at heq hm ht
  have hrows : messages = snapshot.messages := by
    refine Table.ext (hm.trans ((List.map_congr_left fun row hr => ?_).trans (List.map_id _)))
    split
    case isTrue hid => rw [(h row hr hid).scrubMessage_eq he hs]; rfl
    case isFalse    => rfl
  refine ⟨summary, heq.trans (by rw [hrows]), ht.trans (List.sum_eq_zero fun tally hm => ?_)⟩
  obtain ⟨row, hr, rfl⟩ := List.mem_map.mp hm
  have ⟨hr, hid⟩ := List.mem_filter.mp hr
  rw [(h row hr (of_decide_eq_true hid)).scrubMessage_eq he hs]

end Snapshot

-- The pages come to the same as one pass over all the rows with a positive id.
theorem scrubSnapshot_messages (engine : RegexEngine) (toLowercase : Char → List Char)
    (fromStr : Str → Option Json) (toString : List Json → Str) (preset : ScrubPreset)
    (snapshot : Snapshot) : ∃ snapshot' summary,
      scrubSnapshot engine toLowercase fromStr toString preset snapshot =
        some (snapshot', summary) ∧
      snapshot'.messages.rows = (snapshot.messages.rows.map fun row =>
        let row := if (presetConfig preset).clearAckState then { row with ackRequired := 0 }
          else row
        if 0 < row.id then
          (scrubMessage engine toLowercase fromStr toString (presetConfig preset) row).1.apply row
          else row) ∧
      summary.tally = ((snapshot.messages.rows.filter (0 < ·.id)).map fun row =>
        (scrubMessage engine toLowercase fromStr toString (presetConfig preset) row).2).sum := by
  have ⟨messages, summary, hs, hm, ht⟩ :=
    scrubSnapshot_eq engine toLowercase fromStr toString preset snapshot
  refine ⟨_, summary, hs, ?_, ?_⟩
  · rw [hm, cleared_messages, List.map_map]
    rfl
  · rw [ht, cleared_messages, List.filter_map, List.map_map]
    cases (presetConfig preset).clearAckState <;> rfl

def keyText : Str :=
  "AKIA0123456789ABCDEF".toList

def linkText : Str :=
  "[\x7b\"headers\":1,\"url\":\"AKIA0123456789ABCDEF\"\x7d]".toList

def link : Json :=
  .object [("headers".toList, .number (.posInt 1)), ("url".toList, .string keyText)]

def scrubbedLinkText : Str :=
  "[\x7b\"url\":\"[REDACTED]\"\x7d]".toList

def scrubbedLink : Json :=
  .object [("url".toList, .string redacted)]

def readLinks (s : Str) : Option Json :=
  if s = [] then
    none
  else if s = linkText then
    some (.array [link])
  else if s = scrubbedLinkText then
    some (.array [scrubbedLink])
  else
    some (.array (List.replicate (s.length - 2) (.number (.posInt 0))))

def printLinks (values : List Json) : Str :=
  if values = [scrubbedLink] then
    scrubbedLinkText
  else
    '[' :: List.replicate values.length '0' ++ [']']

theorem serde_links : Serde 127 readLinks printLinks where
  pos      := by decide
  limit_le := by decide
  nil      := rfl
  within s value h := by
    have hobject {fields : List (Str × Json)} (h : ∀ field ∈ fields, field.snd.Within 125) :
        (Json.array [.object fields]).Within 127 :=
      .array fun value hv => List.mem_singleton.mp hv ▸ .object h
    unfold readLinks at h
    split at h
    case isTrue => exact nomatch h
    split at h
    case isTrue =>
      cases h
      exact hobject (List.forall_mem_cons.mpr ⟨.number, List.forall_mem_singleton.mpr .string⟩)
    split at h
    case isTrue =>
      cases h
      exact hobject (List.forall_mem_singleton.mpr .string)
    case isFalse =>
      cases h
      exact .array fun value hv => List.eq_of_mem_replicate hv ▸ .number
  printed values _ := by
    by_cases hv : values = [scrubbedLink]
    case pos =>
      refine ⟨values, ?_, rfl, fun _ _ h => h⟩
      rw [printLinks, if_pos hv, hv]
      decide
    case neg =>
      have hb : '\x7b' ∉ printLinks values := by
        simp [printLinks, hv, List.mem_replicate]
      have hn {text : Str} (ht : '\x7b' ∈ text) : printLinks values ≠ text :=
        fun he => hb (he ▸ ht)
      have hl : (printLinks values).length - 2 = values.length := by
        simp [printLinks, hv]
      refine ⟨List.replicate values.length (.number (.posInt 0)), ?_, List.length_replicate, ?_⟩
      · have hne : printLinks values ≠ [] := by simp [printLinks, hv]
        rw [readLinks, if_neg hne, if_neg (hn (by decide)), if_neg (hn (by decide)), hl]
      · exact fun _ _ _ value hv => List.eq_of_mem_replicate hv ▸ .number

theorem not_hasCredentials (h : '@' ∉ text) : ¬HasCredentials text :=
  fun ⟨w, hw, hin⟩ => h (hin.subset (contains_urlCredentials w hw))

theorem scrubMessage_link : scrubMessage backtracking (fun c => [c.toLower]) readLinks printLinks
    (presetConfig .standard) ⟨1, keyText, "body".toList, 0, linkText⟩ =
      (⟨some scrubbedLinkText, some redacted, none⟩, ⟨2, 1, 0, 0⟩) := by
  decide +kernel

-- Keys are no texts, and a column that holds no list is read as an empty one.
def keyedText : Str :=
  "[\x7b\"AKIA0123456789ABCDEF\":1\x7d]".toList

def objectText : Str :=
  "\x7b\"url\":\"AKIA0123456789ABCDEF\"\x7d".toList

def readKeyed (s : Str) : Option Json :=
  if s = keyedText then
    some (.array [.object [(keyText, .number (.posInt 1))]])
  else if s = objectText then
    some (.object [("url".toList, .string keyText)])
  else
    none

theorem not_clean_keyText {text : Str} (h : keyText <:+: text) : ¬Clean text := by
  intro hc
  have hr : [] ∈ awsAccessKey.rests keyText := by decide +kernel
  have ⟨w, hw, he⟩ := mem_rests.mp hr
  have hm : awsAccessKey ∈ secretPatterns := by simp [secretPatterns]
  have hin : w <:+: keyText := ⟨[], [], by rw [List.nil_append]; exact he⟩
  have hat := contains_urlCredentials w (hc awsAccessKey hm w hw (hin.trans h)).left
  exact absurd (hin.subset hat) (by decide)

end Scrub
