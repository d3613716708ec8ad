import AgentMail.Lib.Except
import AgentMail.Pattern.Theorems.Normalize
import AgentMail.Reservation.Admission

open Pattern

namespace Reservation

variable {host : Host} {root path rel : Str} {paths rels : List Str}

theorem foldlM_pushPiece {pieces parts parts' : List Str}
    (h : pieces.foldlM pushPiece parts = some parts') :
    pieces.foldl pushComponent parts = parts' := by
  induction pieces generalizing parts
  case nil => exact Option.some_inj.mp h
  case cons piece pieces hi =>
    rw [List.foldlM_cons] at h
    have ⟨parts₁, h₁, h⟩ := Option.bind_eq_some_iff.mp h
    have hp : pushComponent parts piece = parts₁ := by
      unfold pushPiece at h₁
      unfold pushComponent
      split at h₁
      case isTrue hd => exact (if_pos hd).trans (Option.some_inj.mp h₁)
      case isFalse hd =>
        rw [if_neg hd]
        split at h₁
        case isFalse hd' => exact (if_neg hd').trans (Option.some_inj.mp h₁)
        case isTrue hd'  =>
          rw [if_pos hd']
          split at h₁
          case isTrue  => cases h₁
          case isFalse => exact Option.some_inj.mp h₁
    rw [List.foldl_cons, hp, hi h]

theorem normalizeParts_eq {parts : List Str} (h : normalizeParts path = some parts) :
    resolved path = parts :=
  foldlM_pushPiece h

namespace Host

-- What is known of a path that is admitted, and of the path that is stored for it.
structure Admitted (host : Host) (root path rel : Str) : Prop where
  relative      : host.pathLooksAbsolute path = false
  relativized   : host.relativizePath root path = some rel
  not_root      : rel ≠ []
  not_traversal : ¬['.', '.'] <:+: rel

theorem pathLooksAbsolute_of_none (h : host.detectSuspiciousFileReservation path = none) :
    host.pathLooksAbsolute path = false := by
  unfold detectSuspiciousFileReservation at h
  split at h
  case isTrue  => cases h
  case isFalse =>
    split at h
    case isTrue     => cases h
    case isFalse ha => simpa using ha

theorem admitPath_ok (h : host.admitPath root path = .ok rel) :
    host.relativizePath root path = some rel ∧ rel ≠ [] ∧
      host.invalidFileReservationPattern rel = none := by
  unfold admitPath at h
  split at h
  case h_1        => cases h
  case h_2 rel hr =>
    split at h
    case isTrue     => cases h
    case isFalse hn =>
      split at h
      case h_1    => cases h
      case h_2 hi =>
        cases h
        exact ⟨hr, hn, hi⟩

theorem admitted_of_fileReservationPaths (h : host.fileReservationPaths root paths = .ok rels) :
    List.Forall₂ (host.Admitted root) paths rels := by
  unfold fileReservationPaths at h
  split at h
  case isTrue  => cases h
  case isFalse =>
    split at h
    case isTrue  => cases h
    case isFalse =>
      have ⟨_, hs, h⟩ := Except.bind_eq_ok_iff.mp h
      have hs := Except.forM_ok hs
      refine List.forall₂_iff_zip.mpr ⟨(Except.mapM_ok h).length_eq, fun {path rel} hm => ?_⟩
      have ⟨hr, hn, hi⟩ := admitPath_ok ((List.forall₂_iff_zip.mp (Except.mapM_ok h)).right hm)
      have hd : host.detectSuspiciousFileReservation path = none := by
        have hs := hs path (List.of_mem_zip hm).left
        split at hs
        case h_1    => cases hs
        case h_2 hd => exact hd
      refine ⟨pathLooksAbsolute_of_none hd, hr, hn, fun hc => ?_⟩
      simp [invalidFileReservationPattern, hc] at hi

-- Paths that start with a tilde look absolute.
theorem expandTilde_eq (h : host.pathLooksAbsolute path = false) :
    host.expandTilde path = path := by
  have hn : ¬['/', '/'].isPrefixOf path → path ≠ ['~'] ∧ ∀ rest, path ≠ '~' :: '/' :: rest := by
    intro hs
    unfold pathLooksAbsolute at h
    rw [if_neg hs] at h
    split at h
    case isTrue  => cases h
    case isFalse hp =>
      simp only [Bool.or_eq_true, decide_eq_true_eq, not_or] at hp
      refine ⟨hp.right, ?_⟩
      rintro rest rfl
      exact hp.left.right (by simp)
  have hn : path ≠ ['~'] ∧ ∀ rest, path ≠ '~' :: '/' :: rest := by
    by_cases hs : ['/', '/'].isPrefixOf path
    case neg => exact hn hs
    case pos => constructor <;> intros <;> rintro rfl <;> simp at hs
  unfold expandTilde
  rw [if_neg hn.left]
  split
  case h_1 rest _ _ => exact absurd rfl (hn.right rest)
  case h_2          => rfl

theorem Admitted.eq_intercalate (h : host.Admitted root path rel) :
    rel = ['/'].intercalate (resolved path) := by
  have hr := h.relativized
  unfold relativizePath at hr
  simp only [expandTilde_eq h.relative, h.relative, Bool.false_eq_true, if_false] at hr
  have ⟨parts, hp, hr⟩ := Option.bind_eq_some_iff.mp hr
  rw [normalizeParts_eq hp]
  exact (Option.some_inj.mp hr).symm

theorem Admitted.normalizePattern_eq_nil (h : host.Admitted root path rel) :
    normalizePattern rel = [] ↔ Vanishes (resolved path) := by
  have hr := h.eq_intercalate
  subst hr
  exact normalizePattern_eq_nil_iff resolved_kept (mt (fun hn => by rw [hn]; rfl) h.not_root)
    h.not_traversal

end Host

-- Normalizing is idempotent, and admitted paths are no root patterns, exactly as far as trimming
-- whitespace does not uncover a piece that is dropped.
theorem no_hidden_root_iff (s : Str) (host : Host) (root : Str) (paths rels : List Str) :
    (normalizePattern (normalizePattern s) = normalizePattern s ↔ Tight (resolved (trim s))) ∧
    (host.fileReservationPaths root paths = .ok rels →
      List.Forall₂ (fun path rel => (host.compile rel).norm ≠ [] ↔
        ¬Vanishes (resolved path)) paths rels) :=
  ⟨normalizePattern_idempotent_iff, fun h =>
    (Host.admitted_of_fileReservationPaths h).imp fun _ _ h => not_congr h.normalizePattern_eq_nil⟩

def linux : Host :=
  .unix ⟨.wildcard, false, fun _ => 0⟩ (some "/home/agent".toList)

theorem no_hidden_root_iff_rust_files :
    linux.fileReservationPaths "/work".toList ["src/*.rs".toList, "./docs".toList] =
      .ok ["src/*.rs".toList, "docs".toList] ∧
    List.Forall₂ (fun path rel => (linux.compile rel).norm ≠ [] ↔ ¬Vanishes (resolved path))
      ["src/*.rs".toList, "./docs".toList] ["src/*.rs".toList, "docs".toList] := by
  have h : linux.fileReservationPaths "/work".toList ["src/*.rs".toList, "./docs".toList] =
    .ok ["src/*.rs".toList, "docs".toList] := by decide +kernel
  exact ⟨h, (no_hidden_root_iff [] _ _ _ _).right h⟩

-- A blank between two dots is kept when the path is admitted, and trimmed when it is compiled.
theorem hidden_root_blank :
    normalizePattern (normalizePattern "./ /.".toList) ≠ normalizePattern "./ /.".toList ∧
    linux.fileReservationPaths "/work".toList ["./ /.".toList] = .ok [" ".toList] ∧
    (linux.compile " ".toList).norm = [] := by
  decide +kernel

end Reservation
