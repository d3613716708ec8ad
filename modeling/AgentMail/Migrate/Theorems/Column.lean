import AgentMail.Migrate.Theorems.Basic

open Pattern (Str trim)

namespace Migrate

variable {chrono : Chrono} {table table' : TableName} {column column' : Column}
  {columns : List Column}
variable {db : Db} {tbl : Timestamps} {rowId : Int} {v : Cell}

theorem Db.hasCell_iff (h : db.tables table = some tbl) : db.HasCell table column rowId v ↔
    tbl.columns column ∧ ∃ row ∈ tbl.rows.rows, row.key.1 = rowId ∧ row.cell column = v := by
  simp [Db.HasCell, h]

section

variable (chrono : Chrono) (db : Db) (table : TableName)

def Db.settle (columns : List Column) : Db :=
  let tables :=
    Function.update db.tables table ((db.tables table).map (Migrate.settle chrono table columns))
  { db with tables }

def Db.Converts (column : Column) : Prop :=
  ∃ rowId s n, db.HasCell table column rowId (.text s) ∧
    textToMicros chrono s table column rowId = .ok (some n)

def Db.Fails (column : Column) : Prop :=
  ∃ rowId s e, db.HasCell table column rowId (.text s) ∧
    textToMicros chrono s table column rowId = .error e

end

theorem Db.hasCell_settle : (db.settle chrono table columns).HasCell table column rowId v ↔
    ∃ v', db.HasCell table column rowId v' ∧
      v = if column ∈ columns then settleCell chrono table column rowId v' else v' := by
  cases ht : db.tables table
  case none => simp [Db.HasCell, Db.settle, ht]
  case some tbl =>
    have hs : (db.settle chrono table columns).tables table =
        some (Migrate.settle chrono table columns tbl) := by
      simp [Db.settle, ht]
    rw [Db.hasCell_iff hs]
    simp only [Db.hasCell_iff ht, rows_settle, List.mem_map, exists_exists_and_eq_and]
    constructor
    case mp =>
      rintro ⟨hc, row, hr, hk, hv⟩
      refine ⟨row.cell column, ⟨hc, row, hr, hk, rfl⟩, ?_⟩
      simp only [settleRow, show tbl.columns column from hc, and_true] at hk hv
      rw [← hv, ← hk]
    case mpr =>
      rintro ⟨v', ⟨hc, row, hr, hk, hv'⟩, hv⟩
      refine ⟨hc, row, hr, hk, ?_⟩
      simp only [settleRow, hc, and_true]
      rw [hv, ← hk, ← hv']

theorem Db.settle_settle {columns' : List Column} :
    (db.settle chrono table columns').settle chrono table columns =
      db.settle chrono table (columns' ++ columns) := by
  cases ht : db.tables table <;> simp [Db.settle, ht, Migrate.settle_settle]

theorem Db.settle_eq_self
    (h : ∀ column ∈ columns, ∀ rowId s, ¬db.HasCell table column rowId (.text s)) :
    db.settle chrono table columns = db := by
  cases ht : db.tables table
  case none =>
    simp only [Db.settle, ht, Option.map_none]
    rw [← ht, Function.update_eq_self]
  case some tbl =>
    have hs : Migrate.settle chrono table columns tbl = tbl := by
      refine Migrate.settle_eq_self fun column hc hp row hr s he => h column hc row.key.1 s ?_
      exact (Db.hasCell_iff ht).mpr ⟨hp, row, hr, rfl, he⟩
    simp only [Db.settle, ht, Option.map_some, hs]
    rw [← ht, Function.update_eq_self]

theorem Db.hasCell_blob_settle {bytes : List UInt8} :
    (db.settle chrono table columns).HasCell table column rowId (.blob bytes) ↔
      db.HasCell table column rowId (.blob bytes) := by
  rw [Db.hasCell_settle]
  constructor
  case mp =>
    intro ⟨v', hv', he⟩
    split at he
    case isTrue  => exact settleCell_eq_blob.mp he.symm ▸ hv'
    case isFalse => exact he ▸ hv'
  case mpr =>
    intro h
    refine ⟨_, h, ?_⟩
    split <;> rfl

-- A text that is there afterwards has been there before.
theorem Db.HasCell.of_settle {s : Str}
    (h : (db.settle chrono table columns).HasCell table column rowId (.text s)) :
    db.HasCell table column rowId (.text s) := by
  have ⟨v', hv', he⟩ := Db.hasCell_settle.mp h
  split at he
  case isTrue  => exact (settleCell_eq_text he.symm).left ▸ hv'
  case isFalse => exact he ▸ hv'

theorem Db.HasCell.settle_of_error {s : Str} {e : MigrationError}
    (h : db.HasCell table column rowId (.text s))
    (he : textToMicros chrono s table column rowId = .error e) :
    (db.settle chrono table columns).HasCell table column rowId (.text s) := by
  refine Db.hasCell_settle.mpr ⟨_, h, ?_⟩
  split
  case isTrue  => rw [settleCell_error he]
  case isFalse => rfl

theorem Db.fails_settle : (db.settle chrono table columns).Fails chrono table column ↔
    db.Fails chrono table column :=
  ⟨fun ⟨rowId, s, e, h, he⟩ => ⟨rowId, s, e, h.of_settle, he⟩,
    fun ⟨rowId, s, e, h, he⟩ => ⟨rowId, s, e, h.settle_of_error he, he⟩⟩

theorem Db.Converts.of_settle (h : (db.settle chrono table columns).Converts chrono table column) :
    db.Converts chrono table column := by
  have ⟨rowId, s, n, h, hn⟩ := h
  exact ⟨rowId, s, n, h.of_settle, hn⟩

theorem Db.not_converts_settle (h : column ∈ columns) :
    ¬(db.settle chrono table columns).Converts chrono table column := by
  intro ⟨rowId, s, n, hc, hn⟩
  have ⟨v', _, he⟩ := Db.hasCell_settle.mp hc
  rw [if_pos h] at he
  exact (settleCell_eq_text he.symm).right.right n hn

theorem any_cell_iff (h : db.tables table = some tbl) (hp : tbl.columns column) {p : Cell → Bool} :
    (tbl.rows.rows.map (·.cell column)).any p = true ↔ ∃ rowId v, db.HasCell table column rowId v ∧
      p v := by
  simp [Db.hasCell_iff h, hp]

theorem isText_iff : v.isText ↔ ∃ s, v = .text s := by
  cases v <;> simp [Cell.isText]

theorem isBlob_iff : v.isBlob ↔ ∃ bytes, v = .blob bytes := by
  cases v <;> simp [Cell.isBlob]

theorem detectColumnFormat_of_blob {bytes : List UInt8}
    (h : db.HasCell table column rowId (.blob bytes)) :
    ∃ e, detectColumnFormat db table column = .error e := by
  have ⟨tbl, ht, hp, _⟩ := h
  have ho := (any_cell_iff ht hp).mpr ⟨rowId, _, h, isBlob_iff.mpr ⟨bytes, rfl⟩⟩
  simp only [detectColumnFormat, scanColumnTypes, ht, hp, ho, if_true]
  exact ⟨_, rfl⟩

-- Without such values, the format tells whether there are texts.
theorem detectColumnFormat_of_not_blob
    (h : ∀ rowId bytes, ¬db.HasCell table column rowId (.blob bytes)) :
    ∃ format, detectColumnFormat db table column = .ok format ∧
      (format = some .text ↔ ∃ rowId s, db.HasCell table column rowId (.text s)) := by
  cases ht : db.tables table
  case none =>
    exact ⟨none, by simp [detectColumnFormat, scanColumnTypes, ht], by simp [Db.HasCell, ht]⟩
  case some tbl =>
    by_cases hp : tbl.columns column
    case neg =>
      exact ⟨none, by simp [detectColumnFormat, scanColumnTypes, ht, hp],
        by simp [Db.HasCell, ht, hp]⟩
    case pos =>
      have ho : ¬(tbl.rows.rows.map (·.cell column)).any Cell.isBlob = true := by
        intro ho
        have ⟨rowId, v, hv, hb⟩ := (any_cell_iff ht hp).mp ho
        have ⟨bytes, he⟩ := isBlob_iff.mp hb
        exact h rowId bytes (he ▸ hv)
      have hx : (tbl.rows.rows.map (·.cell column)).any Cell.isText = true ↔
          ∃ rowId s, db.HasCell table column rowId (.text s) := by
        rw [any_cell_iff ht hp]
        constructor
        case mp =>
          intro ⟨rowId, v, hv, hs⟩
          have ⟨s, he⟩ := isText_iff.mp hs
          exact ⟨rowId, s, he ▸ hv⟩
        case mpr =>
          intro ⟨rowId, s, hs⟩
          exact ⟨rowId, _, hs, isText_iff.mpr ⟨s, rfl⟩⟩
      simp only [detectColumnFormat, scanColumnTypes, ht, hp, if_true, if_neg ho]
      rw [← hx]
      split
      case isTrue h  => exact ⟨_, rfl, by simp only [h]⟩
      case isFalse h => split <;> exact ⟨_, rfl, by simp [h]⟩

theorem rows_foldl_convertRow (hp : tbl.columns column) {result : ColumnConversionResult} :
    ((tbl.rows.rows.filter fun row => (row.cell column).isText).foldl
      (convertRow chrono table column)
      (tbl.rows, result)).1 = (Migrate.settle chrono table [column] tbl).rows := by
  let texts := tbl.rows.rows.filter fun row => (row.cell column).isText
  have hn : (texts.map Row.key).Nodup := (List.filter_sublist.map _).nodup tbl.rows.nodup
  have ht : ∀ row ∈ texts, (row.cell column).isText := fun _ hr => (List.mem_filter.mp hr).right
  refine Table.ext ?_
  rw [(foldl_convertRow texts hn ht).left, rows_settle]
  refine List.map_congr_left fun row hr => ?_
  rw [settleRow_singleton hp]
  cases hf : texts.find? (·.key = row.key)
  case some row' =>
    have hk : row'.key = row.key := by simpa using List.find?_some hf
    have hr' := (List.mem_filter.mp (List.mem_of_find?_eq_some hf)).left
    rw [List.inj_on_of_nodup_map tbl.rows.nodup hr' hr hk]
  case none =>
    have hx : ¬(row.cell column).isText := fun hx =>
      List.find?_eq_none.mp hf row (List.mem_filter.mpr ⟨hr, hx⟩) (by simp)
    cases hv : row.cell column
    case text s => exact absurd (isText_iff.mpr ⟨s, hv⟩) hx
    all_goals rfl

theorem convertColumn_spec (h : db.HasCell table column rowId v) :
    ∃ result, convertColumn chrono db table column = .ok (db.settle chrono table [column], result) ∧
      (0 < result.skipped ↔ db.Fails chrono table column) ∧
      (¬db.Converts chrono table column → result.converted = 0) := by
  have ⟨tbl, ht, hp, _⟩ := h
  let texts := tbl.rows.rows.filter fun row => (row.cell column).isText
  have hn : (texts.map Row.key).Nodup := (List.filter_sublist.map _).nodup tbl.rows.nodup
  have hx : ∀ row ∈ texts, (row.cell column).isText := fun _ hr => (List.mem_filter.mp hr).right
  have mem_texts {row : Row} {s : Str} (hr : row ∈ tbl.rows.rows) (hs : row.cell column = .text s) :
      row ∈ texts := List.mem_filter.mpr ⟨hr, isText_iff.mpr ⟨s, hs⟩⟩
  have hasCell {row : Row} {s : Str} (hr : row ∈ texts) (hs : row.cell column = .text s) :
      db.HasCell table column row.key.1 (.text s) :=
    ⟨tbl, ht, hp, row, (List.mem_filter.mp hr).left, rfl, hs⟩
  have ⟨_, hf, hc⟩ :=
    @foldl_convertRow chrono table _ ((tbl.rows, ⟨table, column, 0, 0, 0, []⟩)) texts hn hx
  refine ⟨_, ?_, hf.trans ?_, fun h => hc fun row hr ⟨s, n, hs, hn⟩ =>
    h ⟨_, s, n, hasCell hr hs, hn⟩⟩
  · simp only [convertColumn, ht, hp, if_true, Db.setRows, Db.settle, Option.map_some]
    rw [rows_foldl_convertRow hp]
    rfl
  · simp only [Nat.lt_irrefl, false_or]
    constructor
    case mp => exact fun ⟨row, hr, s, e, hs, he⟩ => ⟨_, s, e, hasCell hr hs, he⟩
    case mpr =>
      intro ⟨rowId, s, e, hs, he⟩
      have ⟨_, row, hr, hk, hv⟩ := (Db.hasCell_iff ht).mp hs
      exact ⟨row, mem_texts hr hv, s, e, hv, hk ▸ he⟩

end Migrate
