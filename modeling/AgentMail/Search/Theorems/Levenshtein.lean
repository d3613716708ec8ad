import AgentMail.Lib.Edits
import AgentMail.Search.Assistance

open Pattern (Str)

namespace Search

variable {p q bs : Str} {row : List Nat} {x : Char} {left : Nat}

-- A row of the table: the distances of `p` to `q` and to what comes of it as the characters of `bs`
-- are put in front.
def IsRow (p : Str) : Str → Str → List Nat → Prop
  | q, [], row      => ∃ d, row = [d] ∧ EditDistance p q d
  | q, b :: bs, row => ∃ d rest, row = d :: rest ∧ EditDistance p q d ∧ IsRow p (b :: q) bs rest

namespace IsRow

theorem head (h : IsRow p q bs row) : ∃ d rest, row = d :: rest ∧ EditDistance p q d := by
  cases bs
  case nil =>
    have ⟨d, hr, hd⟩ := h
    exact ⟨d, [], hr, hd⟩
  case cons b bs =>
    have ⟨d, rest, hr, hd, _⟩ := h
    exact ⟨d, rest, hr, hd⟩

theorem getLast? (h : IsRow p q bs row) : ∃ d, row.getLast? = some d ∧
    EditDistance p (bs.reverse ++ q) d := by
  induction bs generalizing q row
  case nil =>
    obtain ⟨d, rfl, hd⟩ := h
    exact ⟨d, rfl, hd⟩
  case cons b bs hi =>
    obtain ⟨d, rest, rfl, _, h⟩ := h
    obtain ⟨_, _, rfl, _⟩ := h.head
    have ⟨d, hl, hd⟩ := hi h
    rw [List.reverse_cons, List.append_assoc]
    exact ⟨d, hl, hd⟩

theorem range (q bs : Str) : IsRow [] q bs (List.range' q.length (bs.length + 1)) := by
  induction bs generalizing q
  case nil          => exact ⟨_, rfl, .nil_left q⟩
  case cons b bs hi => exact ⟨_, _, rfl, .nil_left q, hi (b :: q)⟩

-- The row below, from its first distance on.
theorem levenshteinRow (h : IsRow p q bs row) (hl : EditDistance (x :: p) q left) :
    IsRow (x :: p) q bs (left :: levenshteinRow x bs row left) := by
  induction bs generalizing q row left
  case nil =>
    obtain ⟨d, rfl, _⟩ := h
    exact ⟨left, rfl, hl⟩
  case cons b bs hi =>
    obtain ⟨above, rest, rfl, hd, h⟩ := h
    obtain ⟨above', rest, rfl, ha⟩ := h.head
    exact ⟨left, _, rfl, hl, hi h (.cons_cons ha hl hd)⟩

theorem foldl (h : IsRow p [] bs row) (a : Str) :
    IsRow (a.reverse ++ p) [] bs
      (a.foldl (fun (row, i) c => ((i + 1) :: Search.levenshteinRow c bs row (i + 1), i + 1))
        (row, p.length)).fst := by
  induction a generalizing p row
  case nil => exact h
  case cons x a hi =>
    rw [List.reverse_cons, List.append_assoc]
    exact hi (h.levenshteinRow (.nil_right (x :: p)))

end IsRow

theorem editDistance_levenshteinDistance (a b : Str) :
    EditDistance a b (levenshteinDistance a b) := by
  rw [levenshteinDistance]
  split
  case isTrue h => exact h ▸ .refl a
  case isFalse =>
    split
    case isTrue h => exact h ▸ .nil_left b
    case isFalse =>
      split
      case isTrue h => exact h ▸ .nil_right a
      case isFalse =>
        have hrow : IsRow [] [] b (List.range (b.length + 1)) :=
          List.range_eq_range' ▸ IsRow.range [] b
        have ⟨d, hl, hd⟩ := (hrow.foldl a).getLast?
        rw [List.append_nil, List.append_nil, EditDistance.reverse_iff] at hd
        exact (congrArg (EditDistance a b) (congrArg (Option.getD · 0) hl)).mpr hd

theorem levenshteinDistance_isLeast (a b : Str) :
    IsLeast {n | Edits n a b} (levenshteinDistance a b) ∧
    levenshteinDistance a b = levenshteinDistance b a ∧
    ∀ c, levenshteinDistance a c ≤ levenshteinDistance a b + levenshteinDistance b c :=
  have hd := editDistance_levenshteinDistance
  ⟨hd a b, (hd a b).unique (hd b a).symm, fun c => (hd a c).triangle (hd a b) (hd b c)⟩

end Search
