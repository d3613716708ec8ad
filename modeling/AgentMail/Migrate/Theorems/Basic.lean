import AgentMail.Migrate.Basic

open Pattern (Str trim)

namespace Migrate

variable {chrono : Chrono} {table : TableName} {column : Column} {columns : List Column} {s : Str}
variable {row : Row} {tbl : Timestamps} {db : Db}

theorem textToMicros_of_blank {rowId : Int} (h : trim s = []) :
    textToMicros chrono s table column rowId = .ok none := by
  simp [textToMicros, h]

theorem textToMicros_cases {rowId : Int} (h : trim s ≠ []) :
    (∃ n, textToMicros chrono s table column rowId = .ok (some n)) ∨
      ∃ e, textToMicros chrono s table column rowId = .error e := by
  simp only [textToMicros, if_neg h]
  split
  case h_1 n _ => exact .inl ⟨n, rfl⟩
  case h_2 =>
    split
    case h_1 n _ => exact .inl ⟨n, rfl⟩
    case h_2 =>
      split
      case h_1 n _ => exact .inl ⟨n, rfl⟩
      case h_2     => exact .inr ⟨_, rfl⟩

section

variable (chrono : Chrono) (table : TableName)

-- What a value is replaced by, if it is.
def newCell (column : Column) (rowId : Int) : Cell → Option Cell
  | .text s =>
    if s = [] then
      if nullable table column then some .null else none
    else
      match textToMicros chrono s table column rowId with
      | .ok (some n) => some (.integer n)
      | _            => none
  | _ => none

def settleCell (column : Column) (rowId : Int) (v : Cell) : Cell :=
  (newCell chrono table column rowId v).getD v

def settleRow (present : Column → Bool) (columns : List Column) (row : Row) : Row :=
  let cell column :=
    if column ∈ columns ∧ present column then
      settleCell chrono table column row.key.1 (row.cell column)
    else row.cell column
  { row with cell }

-- A table all of whose columns have been converted.
def settle (columns : List Column) (tbl : Timestamps) : Timestamps :=
  let rows :=
    tbl.rows.update (fun _ => true) (settleRow chrono table tbl.columns columns) (fun _ => rfl)
  { tbl with rows }

-- The text is replaced by the time.
def Converts (column : Column) (row : Row) : Prop :=
  ∃ s n, row.cell column = .text s ∧ textToMicros chrono s table column row.key.1 = .ok (some n)

def Fails (column : Column) (row : Row) : Prop :=
  ∃ s e, row.cell column = .text s ∧ textToMicros chrono s table column row.key.1 = .error e

end

theorem settleCell_of_not_text {rowId : Int} {v : Cell} (h : ∀ s, v ≠ .text s) :
    settleCell chrono table column rowId v = v := by
  cases v
  case text s => exact absurd rfl (h s)
  all_goals rfl

theorem settleCell_text {rowId : Int} {n : Int}
    (h : textToMicros chrono s table column rowId = .ok (some n)) :
    settleCell chrono table column rowId (.text s) = .integer n := by
  have hs : s ≠ [] := by
    rintro rfl
    rw [textToMicros_of_blank rfl] at h
    cases h
  simp [settleCell, newCell, hs, h]

theorem settleCell_error {rowId : Int} {e : MigrationError}
    (h : textToMicros chrono s table column rowId = .error e) :
    settleCell chrono table column rowId (.text s) = .text s := by
  have hs : s ≠ [] := by
    rintro rfl
    rw [textToMicros_of_blank rfl] at h
    cases h
  simp [settleCell, newCell, hs, h]

theorem settleCell_of_stuck {rowId : Int} (h : trim s = []) (hs : s ≠ [] ∨ ¬nullable table column) :
    settleCell chrono table column rowId (.text s) = .text s := by
  by_cases he : s = []
  case pos => simp [settleCell, newCell, he, hs.resolve_left (absurd he)]
  case neg => simp [settleCell, newCell, he, textToMicros_of_blank h]

theorem settleCell_eq_text {rowId : Int} {v : Cell}
    (h : settleCell chrono table column rowId v = .text s) :
    v = .text s ∧ (s = [] → ¬nullable table column) ∧
      ∀ n, textToMicros chrono s table column rowId ≠ .ok (some n) := by
  cases v
  case text s' =>
    simp only [settleCell, newCell] at h
    split at h
    case isTrue hs =>
      split at h <;> simp only [Option.getD_some, Option.getD_none, Cell.text.injEq,
        reduceCtorEq] at h
      case isFalse hn =>
        subst h
        exact ⟨rfl, fun _ => hn, fun n => by rw [hs, textToMicros_of_blank rfl]; nofun⟩
    case isFalse hs =>
      split at h <;> simp only [Option.getD_some, Option.getD_none, Cell.text.injEq,
        reduceCtorEq] at h
      case h_2 hn =>
        subst h
        exact ⟨rfl, fun hs' => absurd hs' hs, hn⟩
  all_goals cases h

theorem settleCell_settleCell {rowId : Int} (v : Cell) :
    settleCell chrono table column rowId (settleCell chrono table column rowId v) =
      settleCell chrono table column rowId v := by
  cases hv : settleCell chrono table column rowId v
  case text s =>
    have ⟨he, _, _⟩ := settleCell_eq_text hv
    rw [← he, hv, he]
  all_goals exact settleCell_of_not_text nofun

theorem settleCell_eq_blob {rowId : Int} {v : Cell} {bytes : List UInt8} :
    settleCell chrono table column rowId v = .blob bytes ↔ v = .blob bytes := by
  cases v
  case text s =>
    simp only [settleCell, newCell]
    split
    case isTrue  => split <;> simp
    case isFalse => split <;> simp
  all_goals exact .rfl

theorem rows_settle : (settle chrono table columns tbl).rows.rows =
    tbl.rows.rows.map (settleRow chrono table tbl.columns columns) := by
  simp [settle, Table.update]

theorem settleRow_settleRow {present : Column → Bool} {columns' : List Column} :
    settleRow chrono table present columns (settleRow chrono table present columns' row) =
      settleRow chrono table present (columns' ++ columns) row := by
  simp only [settleRow, Row.mk.injEq, true_and]
  funext column
  by_cases he : present column
  case neg => simp [he]
  case pos =>
    by_cases hc : column ∈ columns <;> by_cases hc' : column ∈ columns' <;>
      simp [he, hc, hc', settleCell_settleCell]

theorem settleRow_singleton {present : Column → Bool} (h : present column) :
    settleRow chrono table present [column] row =
      (newCell chrono table column row.key.1 (row.cell column)).elim row (row.set column) := by
  have hs : settleRow chrono table present [column] row =
      row.set column (settleCell chrono table column row.key.1 (row.cell column)) := by
    simp only [settleRow, Row.set, Row.mk.injEq, true_and]
    funext column'
    by_cases hc : column' = column
    case pos => simp [hc, h]
    case neg => simp [hc]
  rw [hs, settleCell]
  cases newCell chrono table column row.key.1 (row.cell column)
  case none   => simp [Row.set]
  case some v => rfl

theorem settle_settle {columns' : List Column} : settle chrono table columns
    (settle chrono table columns' tbl) = settle chrono table (columns' ++ columns) tbl := by
  have hr : (settle chrono table columns (settle chrono table columns' tbl)).rows =
      (settle chrono table (columns' ++ columns) tbl).rows := by
    refine Table.ext ?_
    rw [rows_settle, rows_settle, rows_settle, List.map_map]
    exact List.map_congr_left fun row _ => settleRow_settleRow
  exact congrArg (Timestamps.mk tbl.columns) hr

theorem settle_append_self : settle chrono table columns (settle chrono table columns tbl) =
    settle chrono table columns tbl := by
  rw [settle_settle]
  have hr : (settle chrono table (columns ++ columns) tbl).rows =
      (settle chrono table columns tbl).rows := by
    refine Table.ext ?_
    rw [rows_settle, rows_settle]
    exact List.map_congr_left fun row _ => by simp [settleRow]
  exact congrArg (Timestamps.mk tbl.columns) hr

-- Columns without texts stay as they are.
theorem settle_eq_self (h : ∀ column ∈ columns, tbl.columns column →
    ∀ row ∈ tbl.rows.rows, ∀ s, row.cell column ≠ .text s) : settle chrono table columns tbl =
      tbl := by
  have hr : (settle chrono table columns tbl).rows = tbl.rows := by
    refine Table.ext ?_
    rw [rows_settle]
    refine (List.map_congr_left fun row hr => ?_).trans (List.map_id _)
    cases row
    simp only [settleRow, id_eq, Row.mk.injEq, true_and]
    funext column
    split
    case isFalse   => rfl
    case isTrue hc => exact settleCell_of_not_text (h column hc.left hc.right _ hr)
  exact congrArg (Timestamps.mk tbl.columns) hr

section

variable {acc : Table Row.key × ColumnConversionResult}

-- What the conversion of a text does.
theorem convertRow_eq (h : row.cell column = .text s) :
    (convertRow chrono table column acc row).1 =
      ((newCell chrono table column row.key.1 (.text s)).elim acc.1 fun v =>
        acc.1.update (·.key = row.key) (fun a => a.set column v) (fun a => a.key_set column v)) ∧
    (0 < (convertRow chrono table column acc row).2.skipped ↔
      0 < acc.2.skipped ∨ Fails chrono table column row) ∧
    (¬Converts chrono table column row →
      (convertRow chrono table column acc row).2.converted = acc.2.converted) := by
  have hf : Fails chrono table column row ↔
      ∃ e, textToMicros chrono s table column row.key.1 = .error e := by
    simp only [Fails, h, Cell.text.injEq]
    exact ⟨fun ⟨_, e, hs, he⟩ => ⟨e, hs ▸ he⟩, fun ⟨e, he⟩ => ⟨s, e, rfl, he⟩⟩
  simp only [convertRow, h, newCell, hf]
  split
  case isTrue hs =>
    refine ⟨?_, ?_, fun _ => rfl⟩
    · split <;> rfl
    · simp [hs, textToMicros_of_blank (s := []) rfl]
  case isFalse =>
    split
    case h_1 n hn =>
      rw [hn]
      refine ⟨rfl, by simp, fun hc => absurd ?_ hc⟩
      exact ⟨s, n, h, hn⟩
    case h_2 hn => simp [hn]
    case h_3 hn => simp [hn]

theorem foldl_convertRow (rows : List Row) (hn : (rows.map Row.key).Nodup)
    (ht : ∀ row ∈ rows, (row.cell column).isText) :
    (rows.foldl (convertRow chrono table column) acc).1.rows = acc.1.rows.map (fun a =>
      match rows.find? (·.key = a.key) with
      | some row => (newCell chrono table column row.key.1 (row.cell column)).elim a (a.set column)
      | none     => a) ∧
    (0 < (rows.foldl (convertRow chrono table column) acc).2.skipped ↔
      0 < acc.2.skipped ∨ ∃ row ∈ rows, Fails chrono table column row) ∧
    ((∀ row ∈ rows, ¬Converts chrono table column row) →
      (rows.foldl (convertRow chrono table column) acc).2.converted = acc.2.converted) := by
  induction rows generalizing acc
  case nil => simp
  case cons row rows hi =>
    obtain ⟨hr, ht⟩ := List.forall_mem_cons.mp ht
    obtain ⟨hm, hn⟩ := List.nodup_cons.mp hn
    obtain ⟨s, hs⟩ : ∃ s, row.cell column = .text s := by
      cases hc : row.cell column
      case text s => exact ⟨s, rfl⟩
      all_goals simp [hc, Cell.isText] at hr
    obtain ⟨hrow, hskip, hconv⟩ := @convertRow_eq chrono table _ _ _ acc hs
    obtain ⟨hi, hi', hi''⟩ := @hi (convertRow chrono table column acc row) hn ht
    have hf (a : Row) (hk : row.key = a.key) : rows.find? (·.key = a.key) = none := by
      rw [List.find?_eq_none]
      rintro b hb hbk
      exact hm (List.mem_map.mpr ⟨b, hb, (of_decide_eq_true hbk).trans hk.symm⟩)
    rw [List.foldl_cons]
    refine ⟨?_, ?_, fun hc => ?_⟩
    · rw [hi, hrow]
      cases hv : newCell chrono table column row.key.1 (.text s)
      case none =>
        refine List.map_congr_left fun a _ => ?_
        rw [List.find?_cons]
        by_cases hk : row.key = a.key
        case neg => simp [hk]
        case pos =>
          rw [hk] at hv
          simp [hk, hf a hk, hs, hv]
      case some v =>
        simp only [Option.elim_some, Table.update, List.map_map]
        refine List.map_congr_left fun a _ => ?_
        simp only [Function.comp_apply, decide_eq_true_eq, List.find?_cons]
        by_cases hk : row.key = a.key
        case neg => simp [hk, Ne.symm hk]
        case pos =>
          rw [hk] at hv
          simp [hk, Row.key_set, hf a hk, hs, hv]
    · rw [hi', hskip, or_assoc]
      simp
    · obtain ⟨hc, hcs⟩ := List.forall_mem_cons.mp hc
      rw [hi'' hcs, hconv hc]

end

end Migrate
