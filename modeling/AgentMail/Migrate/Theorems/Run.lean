import AgentMail.Migrate.Theorems.Table

open Pattern (Str trim)

namespace Migrate

variable {chrono : Chrono} {table table' : TableName} {tables : List TableName} {db db' : Db}
variable {p : Progress}

theorem Db.reached_cons :
    db.Reached (table :: tables) table' ↔ ¬db.Unsupported table ∧
      (table' = table ∨ db.Reached tables table') := by
  constructor
  case mp =>
    intro h
    cases h
    case head h   => exact ⟨h, .inl rfl⟩
    case tail h t => exact ⟨h, .inr t⟩
  case mpr =>
    intro ⟨h, h'⟩
    rcases h' with rfl | h'
    case inl => exact .head h
    case inr => exact .tail h h'

theorem Db.Reached.mem (h : db.Reached tables table) : table ∈ tables := by
  induction h
  case head       => exact List.mem_cons_self
  case tail _ _ h => exact List.mem_cons_of_mem _ h

theorem Db.reached_of_mem (h : ∀ table ∈ tables, ¬db.Unsupported table) (hm : table ∈ tables) :
    db.Reached tables table := by
  induction tables
  case nil             => cases hm
  case cons _ tables hi =>
    have ⟨h, hs⟩ := List.forall_mem_cons.mp h
    exact Db.reached_cons.mpr ⟨h, (List.mem_cons.mp hm).imp_right (hi hs)⟩

theorem Db.reached_congr (h : ∀ table ∈ tables, db'.Unsupported table ↔ db.Unsupported table) :
    db'.Reached tables table ↔ db.Reached tables table := by
  induction tables
  case nil              => exact ⟨nofun, nofun⟩
  case cons _ tables hi =>
    have ⟨h, hs⟩ := List.forall_mem_cons.mp h
    rw [Db.reached_cons, Db.reached_cons, h, hi hs]

-- What is done for all tables.
structure Progress.AllConverted (chrono : Chrono) (tables : List TableName) (p p' : Progress)
    (error : Option MigrationError) : Prop where
  parsed         : ∀ table, p.db.Reached tables table → ¬p.db.Unparsable chrono table →
    p'.db.tables table = (p.db.settle chrono table (columnsOf table)).tables table
  unchanged      : ∀ table, (p.db.Reached tables table → p.db.Unparsable chrono table) →
    p'.db.tables table = p.db.tables table
  recorded       : ∀ table ∈ p'.recorded, table ∈ p.recorded ∨
    p.db.Reached tables table ∧ ¬p.db.Unparsable chrono table
  records        : ∀ table, table ∈ p.recorded ∨ p.db.Reached tables table ∧ p.db.HoldsText table ∧
    ¬p.db.Unparsable chrono table → table ∈ p'.recorded
  complete       : error = none → ∀ table ∈ tables, ¬p.db.Unsupported table
  completed      : error = none → (∀ table ∈ tables, table ∈ p.db.migrationState →
    table ∈ p.completedTables) →
    ∀ table ∈ tables, table ∈ p'.db.migrationState → ¬p.db.Unparsable chrono table
  frame          : error = none → ∀ table ∉ tables,
    table ∈ p'.db.migrationState ↔ table ∈ p.db.migrationState
  success        : error = none → p'.summary.success →
    p.summary.success ∧ ∀ table ∈ tables, ¬p.db.Unparsable chrono table
  totalConverted : (∀ table, p.db.Reached tables table → ¬p.db.Unparsable chrono table →
    ∀ column ∈ columnsOf table, ¬p.db.Converts chrono table column) →
      p'.summary.totalConverted = p.summary.totalConverted

namespace Progress

theorem AllConverted.nil : p.AllConverted chrono [] p none where
  parsed         := nofun
  unchanged      := fun _ _ => rfl
  recorded       := fun _ => .inl
  records        := fun _ h => h.resolve_right fun h => nomatch h.left
  complete       := nofun
  completed      := nofun
  frame          := fun _ _ _ => .rfl
  success        := fun _ h => ⟨h, nofun⟩
  totalConverted := fun _ => rfl

-- The first table stops the conversion.
theorem AllConverted.of_unsupported {p' : Progress} {error : MigrationError}
    (hu : p.db.Unsupported table) (ht : p'.db.tables = p.db.tables) (hr : p'.recorded = p.recorded)
    (hs : p'.summary = p.summary) : p.AllConverted chrono (table :: tables) p' (some error) := by
  have hx {table'} : ¬p.db.Reached (table :: tables) table' := fun h =>
    (Db.reached_cons.mp h).left hu
  exact {
    parsed         := fun _ h => absurd h hx
    unchanged      := fun _ _ => by rw [ht]
    recorded       := fun _ h => .inl (hr ▸ h)
    records        := fun _ h => hr ▸ h.resolve_right fun h => hx h.left
    complete       := nofun
    completed      := nofun
    frame          := nofun
    success        := nofun
    totalConverted := fun _ => by rw [hs] }

-- The first table is converted, and then the others are.
section Converted

variable {p' p'' : Progress} {error : Option MigrationError}
variable (hp : p.Converted chrono table p') (hu : ¬p.db.Unsupported table) (hm : table ∉ tables)

include hp

theorem Converted.same (h : table' ≠ table) : p'.db.tables table' = p.db.tables table' := by
  by_cases hu : p.db.Unparsable chrono table
  case pos => rw [hp.unparsable hu]
  case neg => simp [hp.parsed hu, Db.settle, h]

include hm

theorem Converted.tables_of_mem (h : table' ∈ tables) : p'.db.tables table' = p.db.tables table' :=
  hp.same fun he => hm (he ▸ h)

theorem Converted.unparsable_iff (h : table' ∈ tables) :
    p'.db.Unparsable chrono table' ↔ p.db.Unparsable chrono table' :=
  Db.unparsable_congr (hp.tables_of_mem hm h)

include hu

theorem Converted.reached_iff :
    p.db.Reached (table :: tables) table' ↔ table' = table ∨ p'.db.Reached tables table' := by
  have hr : p'.db.Reached tables table' ↔ p.db.Reached tables table' :=
    Db.reached_congr fun _ h => Db.unsupported_congr (hp.tables_of_mem hm h)
  rw [Db.reached_cons, and_iff_right hu, hr]

variable (hi : p'.AllConverted chrono tables p'' error)

include hi

theorem AllConverted.cons_records (h : table' ∈ p.recorded ∨ p.db.Reached (table :: tables) table' ∧
    p.db.HoldsText table' ∧ ¬p.db.Unparsable chrono table') : table' ∈ p''.recorded := by
  refine hi.records table' ?_
  rcases h with h | ⟨h, hx, hu'⟩
  case inl =>
    rcases hp.recorded with he | ⟨_, he⟩ <;> rw [he]
    case inl => exact .inl h
    case inr => exact .inl (List.mem_append_left _ h)
  case inr =>
    rcases (hp.reached_iff hu hm).mp h with rfl | h
    case inl => exact .inl (hp.records hx hu')
    case inr =>
      have hx := (Db.holdsText_congr (hp.tables_of_mem hm h.mem)).mpr hx
      exact .inr ⟨h, hx, (hp.unparsable_iff hm h.mem).not.mpr hu'⟩

theorem AllConverted.cons_recorded (h : table' ∈ p''.recorded) : table' ∈ p.recorded ∨
    p.db.Reached (table :: tables) table' ∧ ¬p.db.Unparsable chrono table' := by
  rcases hi.recorded table' h with h | ⟨h, hu'⟩
  case inl =>
    rcases hp.recorded with he | ⟨hu', he⟩ <;> rw [he] at h
    case inl => exact .inl h
    case inr =>
      refine (List.mem_append.mp h).imp_right fun h => ?_
      cases List.mem_singleton.mp h
      exact ⟨(hp.reached_iff hu hm).mpr (.inl rfl), hu'⟩
  case inr =>
    exact .inr ⟨(hp.reached_iff hu hm).mpr (.inr h), (hp.unparsable_iff hm h.mem).not.mp hu'⟩

theorem AllConverted.cons_parsed (h : p.db.Reached (table :: tables) table')
    (hu' : ¬p.db.Unparsable chrono table') :
    p''.db.tables table' = (p.db.settle chrono table' (columnsOf table')).tables table' := by
  rcases (hp.reached_iff hu hm).mp h with rfl | h
  case inl => rw [hi.unchanged _ fun h => absurd h.mem hm, hp.parsed hu']
  case inr =>
    rw [hi.parsed table' h ((hp.unparsable_iff hm h.mem).not.mpr hu')]
    simp only [Db.settle, Function.update_self, hp.tables_of_mem hm h.mem]

theorem AllConverted.cons_unchanged
    (h : p.db.Reached (table :: tables) table' → p.db.Unparsable chrono table') :
    p''.db.tables table' = p.db.tables table' := by
  by_cases ht : table' = table
  case pos =>
    cases ht
    rw [hi.unchanged _ fun h => absurd h.mem hm,
      hp.unparsable (h ((hp.reached_iff hu hm).mpr (.inl rfl)))]
  case neg =>
    have h' (hr : p'.db.Reached tables table') : p'.db.Unparsable chrono table' :=
      (hp.unparsable_iff hm hr.mem).mpr (h ((hp.reached_iff hu hm).mpr (.inr hr)))
    rw [hi.unchanged _ h', hp.same ht]

theorem AllConverted.cons : p.AllConverted chrono (table :: tables) p'' error where
  parsed _ h hu'  := hi.cons_parsed hp hu hm h hu'
  unchanged _ h   := hi.cons_unchanged hp hu hm h
  recorded _ h    := hi.cons_recorded hp hu hm h
  records _ h     := hi.cons_records hp hu hm h
  complete hn     := List.forall_mem_cons.mpr ⟨hu, fun table' h =>
    (Db.unsupported_congr (hp.tables_of_mem hm h)).not.mp (hi.complete hn table' h)⟩
  completed hn h  := by
    obtain ⟨h, hs⟩ := List.forall_mem_cons.mp h
    refine List.forall_mem_cons.mpr ⟨fun h' => hp.completed h ((hi.frame hn table hm).mp h'), ?_⟩
    intro table' ht h'
    refine (hp.unparsable_iff hm ht).not.mp (hi.completed hn (fun table₁ h₁ h₂ => ?_) table' ht h')
    obtain ⟨hms, hct⟩ := hp.frame table₁ fun he => hm (he ▸ h₁)
    exact hct.mpr (hs table₁ h₁ (hms.mp h₂))
  frame hn table' h := by
    obtain ⟨ht, hts⟩ := not_or.mp (mt List.mem_cons.mpr h)
    exact (hi.frame hn table' hts).trans (hp.frame table' ht).left
  success hn hs   := by
    obtain ⟨h, hs⟩ := hi.success hn hs
    obtain ⟨h, hu'⟩ := hp.success.mp h
    exact ⟨h, List.forall_mem_cons.mpr ⟨hu',
      fun table' ht => (hp.unparsable_iff hm ht).not.mp (hs table' ht)⟩⟩
  totalConverted h := by
    have hr {table'} : p.db.Reached (table :: tables) table' ↔ _ := hp.reached_iff hu hm
    have hc : ¬p.db.Unparsable chrono table → ∀ column ∈ columnsOf table,
        ¬p.db.Converts chrono table column := h table (hr.mpr (.inl rfl))
    rw [hi.totalConverted fun table' h' hu' column hc => ?_, hp.totalConverted hc]
    have hc' := h table' (hr.mpr (.inr h')) ((hp.unparsable_iff hm h'.mem).not.mp hu') column hc
    exact (Db.converts_congr (hp.tables_of_mem hm h'.mem)).not.mpr hc'

end Converted

end Progress

theorem convertTables_spec (hn : tables.Nodup) {p : Progress} :
    p.AllConverted chrono tables
      (convertTables chrono (tables.map fun table => (table, columnsOf table)) p).1
      (convertTables chrono (tables.map fun table => (table, columnsOf table)) p).2 := by
  induction tables generalizing p
  case nil => exact .nil
  case cons table tables hi =>
    obtain ⟨hm, hn⟩ := List.nodup_cons.mp hn
    rw [List.map_cons]
    by_cases hu : p.db.Unsupported table
    case pos =>
      obtain ⟨p', e, he, ht, hr, hs⟩ := @convertTable_of_unsupported chrono _ _ hu
      simp only [convertTables, he]
      exact .of_unsupported hu ht hr hs
    case neg =>
      obtain ⟨p', he, hp⟩ := @convertTable_of_supported chrono _ _ hu
      simp only [convertTables, he]
      exact .cons hp hu hm (hi hn)

section

variable (chrono : Chrono) (db : Db)

theorem tableNames_complete : ∀ table, table ∈ tableNames := by
  intro table
  cases table <;> decide

theorem convertAllTimestamps_spec :
    Progress.AllConverted chrono tableNames ⟨db, db.migrationState, ⟨[], 0, 0, 0, true⟩, []⟩
      (convertAllTimestamps chrono db).1 (convertAllTimestamps chrono db).2 :=
  convertTables_spec (by decide)

end

-- The texts that stay.
theorem Db.holdsText_settle (hu : ¬db.Unparsable chrono table) :
    (db.settle chrono table (columnsOf table)).HoldsText table ↔ db.Stuck table := by
  constructor
  case mp =>
    intro ⟨column, hc, rowId, s, hs⟩
    have ⟨v', hv, he⟩ := Db.hasCell_settle.mp hs
    rw [if_pos hc] at he
    have ⟨hv', hn, ht⟩ := settleCell_eq_text he.symm
    subst hv'
    have hb : trim s = [] := by
      by_contra hb
      rcases @textToMicros_cases chrono table column _ rowId hb with
        ⟨n, h⟩ | ⟨e, h⟩
      case inl => exact ht n h
      case inr => exact hu ⟨column, hc, rowId, s, e, hv, h⟩
    refine ⟨column, hc, rowId, s, hv, hb, ?_⟩
    by_cases hs : s = []
    case pos => exact .inr (hn hs)
    case neg => exact .inl hs
  case mpr =>
    intro ⟨column, hc, rowId, s, hv, hb, hs⟩
    refine ⟨column, hc, rowId, s, Db.hasCell_settle.mpr ⟨_, hv, ?_⟩⟩
    rw [if_pos hc, settleCell_of_stuck hb hs]

theorem RowConverted.settleRow {tbl : Timestamps} {row : Row} (ht : db.tables table = some tbl)
    (hr : row ∈ tbl.rows.rows) (hu : ¬db.Unparsable chrono table) :
    RowConverted chrono table tbl.columns row
      (settleRow chrono table tbl.columns (columnsOf table) row) := by
  refine ⟨rfl, fun column hv => ?_, fun column hc hp s hs hb => ?_⟩
  · simp only [Migrate.settleRow]
    split
    case isTrue  => exact settleCell_of_not_text hv
    case isFalse => rfl
  · have hv : db.HasCell table column row.key.1 (.text s) := ⟨tbl, ht, hp, row, hr, rfl, hs⟩
    rcases @textToMicros_cases chrono table column _ row.key.1 hb with ⟨n, hn⟩ | ⟨e, he⟩
    case inl =>
      refine ⟨n, hn, ?_⟩
      simp only [Migrate.settleRow, hc, hp, and_self, if_true, hs]
      exact settleCell_text hn
    case inr => exact absurd ⟨column, hc, _, s, e, hv, he⟩ hu

theorem Db.unsupported_settle {columns : List Column} :
    (db.settle chrono table columns).Unsupported table ↔ db.Unsupported table := by
  simp only [Db.Unsupported, hasCell_blob_settle]

theorem Db.unparsable_settle {columns : List Column} :
    (db.settle chrono table columns).Unparsable chrono table ↔ db.Unparsable chrono table :=
  exists_congr fun _ => and_congr_right fun _ => fails_settle

section

variable (chrono : Chrono) (db : Db)

-- A table has been settled, or it is as before.
theorem convertAllTimestamps_tables (table : TableName) :
    db.Reached tableNames table ∧ ¬db.Unparsable chrono table ∧
      (convertAllTimestamps chrono db).1.db.tables table =
        (db.settle chrono table (columnsOf table)).tables table ∨
    (db.Reached tableNames table → db.Unparsable chrono table) ∧
      (convertAllTimestamps chrono db).1.db.tables table = db.tables table := by
  have h := convertAllTimestamps_spec chrono db
  by_cases hr : db.Reached tableNames table → db.Unparsable chrono table
  case pos => exact .inr ⟨hr, h.unchanged table hr⟩
  case neg =>
    have ⟨hr, hu⟩ := Classical.not_imp.mp hr
    exact .inl ⟨hr, hu, h.parsed table hr hu⟩

theorem convertAllTimestamps_reached :
    (convertAllTimestamps chrono db).1.db.Reached tableNames table ↔
      db.Reached tableNames table := by
  refine Db.reached_congr fun table _ => ?_
  rcases convertAllTimestamps_tables chrono db table with ⟨_, _, ht⟩ | ⟨_, ht⟩
  case inl => exact (Db.unsupported_congr ht).trans Db.unsupported_settle
  case inr => exact Db.unsupported_congr ht

theorem convertAllTimestamps_unparsable :
    (convertAllTimestamps chrono db).1.db.Unparsable chrono table ↔
      db.Unparsable chrono table := by
  rcases convertAllTimestamps_tables chrono db table with ⟨_, _, ht⟩ | ⟨_, ht⟩
  case inl => exact (Db.unparsable_congr ht).trans Db.unparsable_settle
  case inr => exact Db.unparsable_congr ht

-- Another run finds nothing to convert, also after a failed one.
theorem convertAllTimestamps_again :
    (convertAllTimestamps chrono (convertAllTimestamps chrono db).1.db).1.db.tables =
      (convertAllTimestamps chrono db).1.db.tables ∧
    (convertAllTimestamps chrono (convertAllTimestamps chrono db).1.db).1.summary.totalConverted =
      0 := by
  have settled {table} (hr : db.Reached tableNames table) (hu : ¬db.Unparsable chrono table) :=
    (convertAllTimestamps_spec chrono db).parsed table hr hu
  constructor
  case left =>
    funext table
    rcases convertAllTimestamps_tables chrono (convertAllTimestamps chrono db).1.db table with
      ⟨hr, hu, ht⟩ | ⟨_, ht⟩
    case inr => exact ht
    case inl =>
      rw [convertAllTimestamps_reached] at hr
      rw [convertAllTimestamps_unparsable] at hu
      rw [ht]
      simp only [Db.settle, Function.update_self, settled hr hu, Option.map_map]
      congr 1
      funext tbl
      rw [Function.comp_apply, settle_append_self]
  case right =>
    refine (convertAllTimestamps_spec chrono _).totalConverted fun table hr hu column hc => ?_
    rw [convertAllTimestamps_reached] at hr
    rw [convertAllTimestamps_unparsable] at hu
    exact (Db.converts_congr (settled hr hu)).not.mpr (Db.not_converts_settle hc)

theorem convertAllTimestamps_holdsText (h : NothingStuck chrono db)
    (hr : db.Reached tableNames table) (hu : ¬db.Unparsable chrono table) :
    ¬(convertAllTimestamps chrono db).1.db.HoldsText table := by
  rw [Db.holdsText_congr ((convertAllTimestamps_spec chrono db).parsed table hr hu),
    Db.holdsText_settle hu]
  exact h table hr hu

theorem convertAllTimestamps_reliable_iff :
    Reliable chrono db (convertAllTimestamps chrono db).1 (convertAllTimestamps chrono db).2 ↔
      NothingStuck chrono db := by
  have hs := convertAllTimestamps_spec chrono db
  constructor
  case mp =>
    intro h table hr hu hx
    -- The table has a text, so that it has been recorded.
    have ht : db.HoldsText table := by
      obtain ⟨column, hc, rowId, s, hv, _⟩ := hx
      exact ⟨column, hc, rowId, s, hv⟩
    have hm := hs.records table (.inr ⟨hr, ht, hu⟩)
    refine h.recorded table hm ?_
    exact (Db.holdsText_congr (hs.parsed table hr hu)).mpr ((Db.holdsText_settle hu).mpr hx)
  case mpr =>
    intro h
    have reached (he : (convertAllTimestamps chrono db).2 = none) (table : TableName) :
        db.Reached tableNames table :=
          Db.reached_of_mem (hs.complete he) (tableNames_complete table)
    exact {
      converted := fun he hx table => by
        have hu := (hs.success he hx).right table (tableNames_complete table)
        refine ⟨convertAllTimestamps_holdsText chrono db h (reached he table) hu, ?_⟩
        rw [hs.parsed table (reached he table) hu]
        cases ht : db.tables table
        case none     => simp only [Db.settle, Function.update_self, ht]; exact .none
        case some tbl =>
          simp only [Db.settle, Function.update_self, ht, Option.map_some]
          refine .some ⟨rfl, ?_⟩
          rw [rows_settle, List.forall₂_map_right_iff, List.forall₂_same]
          exact fun row hr => RowConverted.settleRow ht hr hu
      rolledBack := fun table hu => hs.unchanged table fun _ => hu
      recorded := fun table hm => by
        obtain ⟨hr, hu⟩ := (hs.recorded table hm).resolve_left List.not_mem_nil
        exact convertAllTimestamps_holdsText chrono db h hr hu
      completed := fun he table hm => by
        have hu := hs.completed he (fun _ _ => id) table (tableNames_complete table) hm
        exact convertAllTimestamps_holdsText chrono db h (reached he table) hu
      again := convertAllTimestamps_again chrono db }

end

-- A recipient whose `read_ts` is a space.
def blankRead : Db where
  tables
    | .messageRecipients =>
      some {
        columns := fun _ => true
        rows    := {
          rows  := [⟨(1, 1), Function.update (fun _ => .null) .readTs (.text [' '])⟩]
          nodup := List.nodup_singleton _ } }
    | _ => none
  migrationState := []

-- Nothing is parsed, as no text but a blank one is there.
def noTimes : Chrono :=
  ⟨fun _ => none, fun _ _ => none, fun _ _ => none⟩

-- The call succeeds, and the table is recorded as completed.
theorem not_reliable_blank :
    ((convertAllTimestamps noTimes blankRead).2 = none ∧
      (convertAllTimestamps noTimes blankRead).1.summary.success = true) ∧
    ¬Reliable noTimes blankRead (convertAllTimestamps noTimes blankRead).1
      (convertAllTimestamps noTimes blankRead).2 := by
  refine ⟨⟨rfl, rfl⟩, fun h => ?_⟩
  have hm : TableName.messageRecipients ∈ (convertAllTimestamps noTimes blankRead).1.recorded := by
    rw [show (convertAllTimestamps noTimes blankRead).1.recorded = tableNames from rfl]
    decide
  refine h.recorded _ hm ⟨.readTs, by decide, 1, [' '], _, rfl, rfl, _,
    List.mem_singleton_self _, rfl, rfl⟩

end Migrate
