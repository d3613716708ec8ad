import AgentMail.Migrate.Theorems.Column

namespace Migrate

variable {chrono : Chrono} {table table' : TableName} {column : Column} {columns : List Column}
variable {tables : List TableName} {db : Db} {p : Progress}

def Db.HasBlob (db : Db) (table : TableName) (column : Column) : Prop :=
  ∃ rowId bytes, db.HasCell table column rowId (.blob bytes)

def Db.HasText (db : Db) (table : TableName) (column : Column) : Prop :=
  ∃ rowId s, db.HasCell table column rowId (.text s)

theorem Db.hasBlob_settle : (db.settle chrono table columns).HasBlob table column ↔
    db.HasBlob table column :=
  exists_congr fun _ => exists_congr fun _ => hasCell_blob_settle

theorem detectColumnFormat_spec :
    (∃ e, db.HasBlob table column ∧ detectColumnFormat db table column = .error e) ∨
      ∃ format, ¬db.HasBlob table column ∧ detectColumnFormat db table column = .ok format ∧
        (format = some .text ↔ db.HasText table column) := by
  by_cases h : db.HasBlob table column
  case pos =>
    have ⟨rowId, bytes, hb⟩ := h
    have ⟨e, he⟩ := detectColumnFormat_of_blob hb
    exact .inl ⟨e, h, he⟩
  case neg =>
    have ⟨format, hf, ht⟩ := detectColumnFormat_of_not_blob fun rowId bytes hb =>
      h ⟨rowId, bytes, hb⟩
    exact .inr ⟨format, h, hf, ht⟩

theorem tableHasTextTimestamps_spec :
    match tableHasTextTimestamps db table columns with
    | .error _   => ∃ column ∈ columns, db.HasBlob table column
    | .ok true   => ∃ column ∈ columns, db.HasText table column
    | .ok false  => ∀ column ∈ columns, ¬db.HasBlob table column ∧ ¬db.HasText table column := by
  induction columns
  case nil => exact nofun
  case cons column columns hi =>
    rcases @detectColumnFormat_spec table column db with
      ⟨e, hb, he⟩ | ⟨format, hb, hf, ht⟩
    case inl =>
      simp only [tableHasTextTimestamps, he]
      exact ⟨column, List.mem_cons_self, hb⟩
    case inr =>
      by_cases hx : format = some .text
      case pos =>
        simp only [tableHasTextTimestamps, hf, hx]
        exact ⟨column, List.mem_cons_self, ht.mp hx⟩
      case neg =>
        simp only [tableHasTextTimestamps, hf]
        split at hi
        case h_1 => exact hi.imp fun _ h => ⟨List.mem_cons_of_mem _ h.left, h.right⟩
        case h_2 => exact hi.imp fun _ h => ⟨List.mem_cons_of_mem _ h.left, h.right⟩
        case h_3 => exact List.forall_mem_cons.mpr ⟨⟨hb, fun h => hx (ht.mpr h)⟩, hi⟩

section

variable {results : List ColumnConversionResult} {failed : Bool}

theorem convertColumns_cons :
    (∃ e, db.HasBlob table column ∧
      convertColumns chrono table (column :: columns) db results failed = .error e) ∨
    ∃ results' failed', ¬db.HasBlob table column ∧
      convertColumns chrono table (column :: columns) db results failed =
        convertColumns chrono table columns (db.settle chrono table [column])
          (results ++ results') failed' ∧
      (failed' ↔ failed ∨ db.Fails chrono table column) ∧
      (¬db.Converts chrono table column → (results'.map (·.converted)).sum = 0) := by
  rcases @detectColumnFormat_spec table column db with
    ⟨e, hb, he⟩ | ⟨format, hb, hf, ht⟩
  case inl => exact .inl ⟨e, hb, by simp only [convertColumns, he]⟩
  case inr =>
    refine .inr ?_
    by_cases hx : format = some .text
    case pos =>
      have ⟨rowId, s, hs⟩ := ht.mp hx
      have ⟨result, hr, hskip, hconv⟩ := @convertColumn_spec chrono _ _ _ _ _ hs
      refine ⟨[result], failed || decide (0 < result.skipped), hb, ?_, ?_, fun hc => ?_⟩
      · simp only [convertColumns, hf, hx, hr]
      · simp [hskip]
      · simp [hconv hc]
    case neg =>
      have hn : ∀ rowId s, ¬db.HasCell table column rowId (.text s) := fun rowId s hs =>
        hx (ht.mpr ⟨rowId, s, hs⟩)
      have hself : db.settle chrono table [column] = db :=
        Db.settle_eq_self fun column' hc => List.mem_singleton.mp hc ▸ hn
      refine ⟨[], failed, hb, ?_, ?_, fun _ => rfl⟩
      · rw [hself, List.append_nil]
        simp only [convertColumns, hf]
      · exact ⟨.inl, fun h => h.resolve_right fun ⟨rowId, s, _, hs, _⟩ => hn rowId s hs⟩

theorem convertColumns_of_blob (h : ∃ column ∈ columns, db.HasBlob table column) :
    ∃ e, convertColumns chrono table columns db results failed = .error e := by
  induction columns generalizing db results failed
  case nil                  => simp at h
  case cons column columns hi =>
    rcases @convertColumns_cons chrono table column columns db results failed with
      ⟨e, _, he⟩ | ⟨results', failed', hb, he, _⟩
    case inl => exact ⟨e, he⟩
    case inr =>
      rw [he]
      have ⟨column', hc, hb'⟩ := h
      rcases List.mem_cons.mp hc with rfl | hc
      case inl => exact absurd hb' hb
      case inr => exact hi ⟨column', hc, Db.hasBlob_settle.mpr hb'⟩

theorem convertColumns_of_not_blob (h : ∀ column ∈ columns, ¬db.HasBlob table column) :
    ∃ results' failed', convertColumns chrono table columns db results failed =
        .ok (db.settle chrono table columns, results ++ results', failed') ∧
      (failed' ↔ failed ∨ ∃ column ∈ columns, db.Fails chrono table column) ∧
      ((∀ column ∈ columns, ¬db.Converts chrono table column) →
        (results'.map (·.converted)).sum = 0) := by
  induction columns generalizing db results failed
  case nil =>
    refine ⟨[], failed, ?_, by simp, fun _ => rfl⟩
    rw [Db.settle_eq_self (by simp), List.append_nil, convertColumns]
  case cons column columns hi =>
    have ⟨hc, hcs⟩ := List.forall_mem_cons.mp h
    rcases @convertColumns_cons chrono table column columns db results failed with
      ⟨e, hb, _⟩ | ⟨results₁, failed₁, _, he, hf, hv⟩
    case inl => exact absurd hb hc
    case inr =>
      have ⟨results₂, failed₂, he', hf', hv'⟩ := @hi (db.settle chrono table [column])
        (results ++ results₁) failed₁ fun column' hc' =>
          Db.hasBlob_settle.not.mpr (hcs column' hc')
      refine ⟨results₁ ++ results₂, failed₂, ?_, ?_, fun hn => ?_⟩
      · rw [he, he', Db.settle_settle, List.append_assoc, List.singleton_append]
      · simp only [hf', hf, Db.fails_settle, or_assoc, List.exists_mem_cons_iff]
      · have ⟨hn, hns⟩ := List.forall_mem_cons.mp hn
        rw [List.map_append, List.sum_append, hv hn,
          hv' fun column' hc' h => hns column' hc' h.of_settle]

end

section

variable {db' : Db}

theorem Db.hasCell_congr {rowId : Int} {v : Cell} (h : db'.tables table = db.tables table) :
    db'.HasCell table column rowId v ↔ db.HasCell table column rowId v := by
  simp [Db.HasCell, h]

theorem Db.unsupported_congr (h : db'.tables table = db.tables table) :
    db'.Unsupported table ↔ db.Unsupported table := by
  simp [Db.Unsupported, Db.hasCell_congr h]

theorem Db.unparsable_congr (h : db'.tables table = db.tables table) :
    db'.Unparsable chrono table ↔ db.Unparsable chrono table := by
  simp [Db.Unparsable, Db.hasCell_congr h]

theorem Db.holdsText_congr (h : db'.tables table = db.tables table) :
    db'.HoldsText table ↔ db.HoldsText table := by
  simp [Db.HoldsText, Db.hasCell_congr h]

theorem Db.converts_congr (h : db'.tables table = db.tables table) :
    db'.Converts chrono table column ↔ db.Converts chrono table column := by
  simp [Db.Converts, Db.hasCell_congr h]

end

section

variable (p : Progress) (table : TableName)

theorem Progress.tables_clear : (p.clear table).db.tables = p.db.tables := by
  unfold Progress.clear
  split <;> rfl

theorem Progress.recorded_clear : (p.clear table).recorded = p.recorded := by
  unfold Progress.clear
  split <;> rfl

theorem Progress.summary_clear : (p.clear table).summary = p.summary := by
  unfold Progress.clear
  split <;> rfl

theorem Progress.mem_clear_of_ne (h : table' ≠ table) :
    (table' ∈ (p.clear table).db.migrationState ↔ table' ∈ p.db.migrationState) ∧
      (table' ∈ (p.clear table).completedTables ↔ table' ∈ p.completedTables) := by
  unfold Progress.clear
  split
  case isTrue  => simp [clearTableCompleted, h]
  case isFalse => exact ⟨.rfl, .rfl⟩

theorem Progress.not_mem_clear (h : table ∈ p.db.migrationState → table ∈ p.completedTables) :
    table ∉ (p.clear table).db.migrationState := by
  unfold Progress.clear
  split
  case isTrue     => simp [clearTableCompleted]
  case isFalse hc => exact mt h hc

end

theorem mem_markTableCompleted : table' ∈ (markTableCompleted db table).migrationState ↔
    table' ∈ db.migrationState ∨ table' = table := by
  unfold markTableCompleted
  by_cases h : table ∈ db.migrationState
  case pos =>
    simp only [h, if_true]
    exact ⟨.inl, fun h' => h'.elim id fun he => he ▸ h⟩
  case neg => simp [h]

theorem convertTable_of_unsupported (h : p.db.Unsupported table) :
    ∃ p' e, convertTable chrono table (columnsOf table) p = (p', some e) ∧
      p'.db.tables = p.db.tables ∧ p'.recorded = p.recorded ∧ p'.summary = p.summary := by
  have ht := @tableHasTextTimestamps_spec table (columnsOf table) p.db
  unfold convertTable
  split
  case h_1 e he => exact ⟨p, e, rfl, rfl, rfl, rfl⟩
  case h_2 he =>
    rw [he] at ht
    have ⟨column, hc, hb⟩ := h
    exact absurd hb (ht column hc).left
  case h_3 =>
    have hu := (Db.unsupported_congr (congrFun (p.tables_clear table) table)).mpr h
    have ⟨e, he⟩ := @convertColumns_of_blob chrono _ _ _ [] false hu
    simp only [he]
    exact ⟨_, e, rfl, p.tables_clear table, p.recorded_clear table, p.summary_clear table⟩

-- What is done for a table that is supported.
structure Progress.Converted (chrono : Chrono) (table : TableName) (p p' : Progress) : Prop where
  unparsable     : p.db.Unparsable chrono table → p'.db.tables = p.db.tables
  parsed         : ¬p.db.Unparsable chrono table →
    p'.db.tables = (p.db.settle chrono table (columnsOf table)).tables
  recorded       : p'.recorded = p.recorded ∨
    ¬p.db.Unparsable chrono table ∧ p'.recorded = p.recorded ++ [table]
  records        : p.db.HoldsText table → ¬p.db.Unparsable chrono table → table ∈ p'.recorded
  completed      : (table ∈ p.db.migrationState → table ∈ p.completedTables) →
    table ∈ p'.db.migrationState → ¬p.db.Unparsable chrono table
  frame          : ∀ table' ≠ table, (table' ∈ p'.db.migrationState ↔
    table' ∈ p.db.migrationState) ∧ (table' ∈ p'.completedTables ↔ table' ∈ p.completedTables)
  success        : p'.summary.success ↔ p.summary.success ∧ ¬p.db.Unparsable chrono table
  totalConverted : (¬p.db.Unparsable chrono table → ∀ column ∈ columnsOf table,
    ¬p.db.Converts chrono table column) → p'.summary.totalConverted = p.summary.totalConverted

theorem convertTable_of_supported (h : ¬p.db.Unsupported table) :
    ∃ p', convertTable chrono table (columnsOf table) p = (p', none) ∧
      p.Converted chrono table p' := by
  have ht := @tableHasTextTimestamps_spec table (columnsOf table) p.db
  unfold convertTable
  split
  case h_1 e he =>
    rw [he] at ht
    exact absurd ht h
  case h_2 he =>
    rw [he] at ht
    have hx : ¬p.db.HoldsText table := fun ⟨column, hc, hx⟩ => (ht column hc).right hx
    have hu : ¬p.db.Unparsable chrono table := fun ⟨column, hc, rowId, s, _, hs, _⟩ =>
      (ht column hc).right ⟨rowId, s, hs⟩
    have hs : p.db.settle chrono table (columnsOf table) = p.db :=
      Db.settle_eq_self fun column hc rowId s hs => (ht column hc).right ⟨rowId, s, hs⟩
    split
    case isTrue =>
      refine ⟨p, rfl, ?_⟩
      exact {
        unparsable     := fun _ => rfl
        parsed         := fun _ => by rw [hs]
        recorded       := .inl rfl
        records        := fun h => absurd h hx
        completed      := fun _ _ => hu
        frame          := fun _ _ => ⟨.rfl, .rfl⟩
        success        := ⟨fun h => ⟨h, hu⟩, And.left⟩
        totalConverted := fun _ => rfl }
    case isFalse =>
      refine ⟨_, rfl, ?_⟩
      exact {
        unparsable     := fun _ => rfl
        parsed         := fun _ => by rw [hs]; rfl
        recorded       := .inr ⟨hu, rfl⟩
        records        := fun h => absurd h hx
        completed      := fun _ _ => hu
        frame          := fun _ hn => ⟨mem_markTableCompleted.trans (or_iff_left hn), by simp [hn]⟩
        success        := ⟨fun h => ⟨h, hu⟩, And.left⟩
        totalConverted := fun _ => rfl }
  case h_3 he =>
    have htables := congrFun (p.tables_clear table) table
    have ⟨results, failed, he, hf, hc⟩ := @convertColumns_of_not_blob chrono table (columnsOf table)
      (p.clear table).db [] false fun column hc hb =>
        h ⟨column, hc, by simpa [Db.HasBlob, Db.hasCell_congr htables] using hb⟩
    have hf : failed ↔ p.db.Unparsable chrono table := by
      rw [hf]
      simp [Db.Fails, Db.Unparsable, Db.hasCell_congr htables]
    simp only [he]
    cases failed
    case true =>
      have hu := hf.mp rfl
      refine ⟨_, rfl, ?_⟩
      exact {
        unparsable     := fun _ => p.tables_clear table
        parsed         := absurd hu
        recorded       := .inl (p.recorded_clear table)
        records        := fun _ => absurd hu
        completed      := fun h h' => absurd h' (p.not_mem_clear table h)
        frame          := fun _ hn => p.mem_clear_of_ne table hn
        success        := ⟨nofun, fun h => absurd hu h.right⟩
        totalConverted := fun _ => by simp [MigrationSummary.rollBack, p.summary_clear table] }
    case false =>
      have hu : ¬p.db.Unparsable chrono table := hf.not.mp (by simp)
      refine ⟨_, rfl, ?_⟩
      exact {
        unparsable     := fun h => absurd h hu
        parsed         := fun _ => by
          simp [Progress.record, markTableCompleted, Db.settle, p.tables_clear table]
        recorded       := .inr ⟨hu, by simp [Progress.record, p.recorded_clear table]⟩
        records        := fun _ _ => by simp [Progress.record]
        completed      := fun _ _ => hu
        frame          := fun _ hn => ⟨(mem_markTableCompleted.trans (or_iff_left hn)).trans
          (p.mem_clear_of_ne table hn).left, (p.mem_clear_of_ne table hn).right⟩
        success        := by simp [MigrationSummary.commit, p.summary_clear table, hu]
        totalConverted := fun h => by
          have hn : ∀ column ∈ columnsOf table, ¬(p.clear table).db.Converts chrono table column :=
            fun column hc => (Db.converts_congr htables).not.mpr (h hu column hc)
          simp [MigrationSummary.commit, p.summary_clear table, hc hn] }

end Migrate
