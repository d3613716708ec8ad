import AgentMail.Guard.Basic
import AgentMail.Pattern.Theorems.Normalize

open Pattern (Str trim isWhitespace)

namespace Guard

variable {path : Str} {parts : List Str} {entry : NameStatus} {entries : List NameStatus}

theorem pushPath_of_ne_nil (h : path ≠ []) : pushPath path parts = path :: parts :=
  if_neg h

theorem trim_status (status : Str) {letter : Char} (h : ¬isWhitespace letter) :
    ∃ rest, trim (letter :: status) = letter :: rest := by
  have hs : Pattern.trimStart (letter :: status) = letter :: status := by
    refine Pattern.trimStart_eq_self.mpr fun c hc => ?_
    exact Option.some.inj hc ▸ h
  exact ⟨_, by rw [Pattern.trim_eq, hs, Pattern.trimEnd_cons h]⟩

theorem not_isWhitespace_of_isAlpha {c : Char} (h : c.isAlpha) : ¬isWhitespace c := by
  have hc : 65 ≤ c.toNat ∧ c.toNat ≤ 90 ∨ 97 ≤ c.toNat ∧ c.toNat ≤ 122 := by
    cases Bool.or_eq_true _ _ |>.mp h
    case inl h => exact .inl (of_decide_eq_true h)
    case inr h => exact .inr ((Bool.and_eq_true _ _ |>.mp h).imp of_decide_eq_true
      of_decide_eq_true)
  simp only [isWhitespace, Bool.or_eq_true, Bool.and_eq_true, decide_eq_true_eq]
  omega

namespace NameStatus

theorem nul_not_mem_fields : ∀ field ∈ entry.fields, nul ∉ field := by
  have hstatus {letter : Char} {score : Score} (hl : letter ≠ nul) : nul ∉ letter :: score.val := by
    refine List.not_mem_cons_of_ne_of_not_mem hl.symm fun hs => ?_
    exact Bool.false_ne_true (score.property nul hs)
  cases entry
  case changed letter score path =>
    have hl : letter.val ≠ nul := fun hn => by
      have := letter.property.left; rw [hn] at this; cases this
    simp only [fields, List.forall_mem_cons, List.not_mem_nil, false_imp_iff,
      implies_true, and_true]
    exact ⟨hstatus hl, path.property.right⟩
  case renamed letter score oldPath newPath =>
    have hl : letter.val ≠ nul := by cases letter.property <;> simp [*, nul]
    simp only [fields, List.forall_mem_cons, List.not_mem_nil, false_imp_iff,
      implies_true, and_true]
    exact ⟨hstatus hl, oldPath.property.right, newPath.property.right⟩

theorem parse_fields (entry : NameStatus) (parts : List Str) :
    parseNameStatusParts (entry.fields ++ parts) = entry.paths ++ parseNameStatusParts parts := by
  cases entry
  case changed letter score path =>
    have ⟨rest, ht⟩ := trim_status score.val (not_isWhitespace_of_isAlpha letter.property.left)
    have hr : ¬(letter.val = 'R' ∨ letter.val = 'C') := not_or.mpr letter.property.right
    simp only [fields, paths, List.cons_append, List.nil_append]
    conv_lhs => unfold parseNameStatusParts
    simp only [ht, if_neg hr, pushPath_of_ne_nil path.property.left]
  case renamed letter score oldPath newPath =>
    have hl : letter.val.isAlpha := by cases letter.property <;> simp [*]
    have ⟨rest, ht⟩ := trim_status score.val (not_isWhitespace_of_isAlpha hl)
    simp only [fields, paths, List.cons_append, List.nil_append]
    conv_lhs => unfold parseNameStatusParts
    simp only [ht, if_pos letter.property, pushPath_of_ne_nil oldPath.property.left,
      pushPath_of_ne_nil newPath.property.left]

-- One record after the other: each ends where the next one begins.
theorem parse_flatMap_fields (entries : List NameStatus) (parts : List Str) :
    parseNameStatusParts (entries.flatMap fields ++ parts) = entries.flatMap paths ++
      parseNameStatusParts parts := by
  induction entries
  case nil => rfl
  case cons entry entries hi =>
    rw [List.flatMap_cons, List.flatMap_cons, List.append_assoc, List.append_assoc,
      parse_fields, hi]

theorem parse_splitOn_joined (entries : List NameStatus) (parts : List Str) :
    parseNameStatusParts ((joined entries).splitOn nul ++ parts) =
      entries.flatMap paths ++ parseNameStatusParts parts := by
  cases entries
  case nil => rfl
  case cons entry entries =>
    have hn : (entry :: entries).flatMap fields ≠ [] := by cases entry <;> simp [fields]
    have hs : (joined (entry :: entries)).splitOn nul = (entry :: entries).flatMap fields := by
      refine List.splitOn_intercalate nul (fun field hf => ?_) hn
      have ⟨_, _, hf⟩ := List.mem_flatMap.mp hf
      exact nul_not_mem_fields field hf
    rw [hs, parse_flatMap_fields]

-- The records are separated, or terminated as `git` writes them.
theorem parseNameStatusZ_joined (entries : List NameStatus) :
    parseNameStatusZ (Utf8.encode (joined entries)) = entries.flatMap paths ∧
    parseNameStatusZ (Utf8.encode (joined entries ++ [nul])) = entries.flatMap paths := by
  rw [parseNameStatusZ, parseNameStatusZ, Utf8.fromUtf8Lossy_encode, Utf8.fromUtf8Lossy_encode]
  constructor
  case left =>
    have h := parse_splitOn_joined entries []
    rwa [List.append_nil, parseNameStatusParts, List.append_nil] at h
  case right =>
    rw [List.splitOn_append_cons_self, parse_splitOn_joined]
    exact List.append_nil _

end NameStatus

end Guard
