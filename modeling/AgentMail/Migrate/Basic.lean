import Mathlib.Logic.Function.Basic
import AgentMail.Lib.Table
import AgentMail.Pattern.Basic

open Pattern (Str trim)

namespace Migrate

-- The tables in the order of their names.
inductive TableName
  | agentLinks
  | agents
  | fileReservations
  | messageRecipients
  | messages
  | productProjectLinks
  | products
  | projectSiblingSuggestions
  | projects
  deriving DecidableEq

inductive Column
  | createdAt
  | inceptionTs
  | lastActiveTs
  | createdTs
  | readTs
  | ackTs
  | expiresTs
  | releasedTs
  | updatedTs
  | evaluatedTs
  | confirmedTs
  | dismissedTs
  deriving DecidableEq

-- `TIMESTAMP_COLUMNS`: table, column, and whether it is nullable.
def timestampColumns : List (TableName × Column × Bool) :=
  [ (.projects, .createdAt, false),
    (.products, .createdAt, false),
    (.productProjectLinks, .createdAt, false),
    (.agents, .inceptionTs, false),
    (.agents, .lastActiveTs, false),
    (.messages, .createdTs, false),
    (.messageRecipients, .readTs, true),
    (.messageRecipients, .ackTs, true),
    (.fileReservations, .createdTs, false),
    (.fileReservations, .expiresTs, false),
    (.fileReservations, .releasedTs, true),
    (.agentLinks, .createdTs, false),
    (.agentLinks, .updatedTs, false),
    (.agentLinks, .expiresTs, true),
    (.projectSiblingSuggestions, .createdTs, false),
    (.projectSiblingSuggestions, .evaluatedTs, false),
    (.projectSiblingSuggestions, .confirmedTs, true),
    (.projectSiblingSuggestions, .dismissedTs, true) ]

def tableNames : List TableName :=
  [.agentLinks, .agents, .fileReservations, .messageRecipients, .messages, .productProjectLinks,
    .products, .projectSiblingSuggestions, .projects]

def columnsOf (table : TableName) : List Column :=
  (timestampColumns.filter (·.1 = table)).map (·.2.1)

def timestampColumnsByTable : List (TableName × List Column) :=
  tableNames.map fun table => (table, columnsOf table)

def nullable (table : TableName) (column : Column) : Bool :=
  (table, column, true) ∈ timestampColumns

-- A value with its storage class.
inductive Cell
  | null
  | integer (n : Int)
  | real (bits : UInt64)
  | text (s : Str)
  | blob (bytes : List UInt8)
  deriving DecidableEq

def Cell.isText : Cell → Bool
  | .text _ => true
  | _       => false

def Cell.isIntegerLike : Cell → Bool
  | .integer _ => true
  | .real _    => true
  | _          => false

def Cell.isBlob : Cell → Bool
  | .blob _ => true
  | _       => false

-- The primary key is the `id`, or (`message_id`, `agent_id`) in `message_recipients`.
structure Row where
  key  : Int × Int
  cell : Column → Cell

def Row.set (row : Row) (column : Column) (v : Cell) : Row :=
  { row with cell := Function.update row.cell column v }

theorem Row.key_set (row : Row) (column : Column) (v : Cell) : (row.set column v).key = row.key :=
  rfl

-- A table, of which some columns may be missing.
structure Timestamps where
  columns : Column → Bool
  rows    : Table Row.key

-- The tables that exist, and the entries of `migration_state`.
structure Db where
  tables         : TableName → Option Timestamps
  migrationState : List TableName

def Db.setRows (db : Db) (table : TableName) (tbl : Timestamps) (rows : Table Row.key) : Db :=
  { db with tables := Function.update db.tables table (some { tbl with rows }) }

inductive MigrationError
  | query (table : TableName) (column : Column)
  | timestampParse (table : TableName) (column : Column) (rowId : Int) (value : Str)
  | aborted (table : TableName) (column : Column)
  deriving DecidableEq

structure ColumnTypeScan where
  hasNonNull     : Bool
  hasText        : Bool
  hasIntegerLike : Bool
  hasOther       : Bool

-- `None` if the table or the column does not exist.
def scanColumnTypes (db : Db) (table : TableName) (column : Column) : Option ColumnTypeScan :=
  match db.tables table with
  | none     => none
  | some tbl =>
    if tbl.columns column then
      let cells := tbl.rows.rows.map (·.cell column)
      some {
        hasNonNull     := cells.any fun v => v ≠ .null
        hasText        := cells.any Cell.isText
        hasIntegerLike := cells.any Cell.isIntegerLike
        hasOther       := cells.any Cell.isBlob }
    else
      none

inductive ColumnFormat
  | text
  | integer
  deriving DecidableEq

def detectColumnFormat (db : Db) (table : TableName) (column : Column) :
    Except MigrationError (Option ColumnFormat) :=
  match scanColumnTypes db table column with
  | none      => .ok none
  | some scan =>
    if scan.hasOther then .error (.aborted table column)
    else if scan.hasText then .ok (some .text)
    else if scan.hasIntegerLike then .ok (some .integer)
    else .ok none

-- The crate `chrono`, as far as it is used, with the parsed times as microseconds.
structure Chrono where
  parseFromRfc3339   : Str → Option Int
  parseNaiveDateTime : Str → Str → Option Int
  parseNaiveDate     : Str → Str → Option Int

def isAsciiDigit (c : Char) : Bool :=
  '0' ≤ c && c ≤ '9'

-- A suffix `Z`, and then an offset such as `+00:00`, all of whose characters are single bytes.
def stripTimezoneSuffix (s : Str) : Str :=
  let s := if s.getLast? = some 'Z' then s.dropLast else s
  match s.reverse with
  | m₂ :: m₁ :: ':' :: h₂ :: h₁ :: sign :: rest =>
    if (sign = '+' ∨ sign = '-') ∧ isAsciiDigit h₁ ∧ isAsciiDigit h₂ ∧ isAsciiDigit m₁ ∧
      isAsciiDigit m₂ then
      rest.reverse
    else
      s
  | _ => s

def formats : List Str :=
  ["%Y-%m-%d %H:%M:%S%.f".toList, "%Y-%m-%dT%H:%M:%S%.f".toList, "%Y-%m-%d %H:%M:%S".toList,
    "%Y-%m-%dT%H:%M:%S".toList, "%Y-%m-%d".toList]

section

variable (chrono : Chrono)

def textToMicros (text : Str) (table : TableName) (column : Column) (rowId : Int) :
    Except MigrationError (Option Int) :=
  let trimmed := trim text
  if trimmed = [] then .ok none
  else
    match chrono.parseFromRfc3339 trimmed with
    | some micros => .ok (some micros)
    | none        =>
      let withoutTz := stripTimezoneSuffix trimmed
      match formats.findSome? (chrono.parseNaiveDateTime withoutTz) with
      | some micros => .ok (some micros)
      | none        =>
        match chrono.parseNaiveDate withoutTz "%Y-%m-%d".toList with
        | some micros => .ok (some micros)
        | none        => .error (.timestampParse table column rowId text)

inductive ConversionError
  | parse (error : MigrationError)
  | critical (error : MigrationError)
  | rolledBackByOther (table : TableName) (column : Column)
  | rolledBack (table : TableName) (column : Column)
  deriving DecidableEq

structure ColumnConversionResult where
  table     : TableName
  column    : Column
  converted : Nat
  skipped   : Nat
  nulls     : Nat
  errors    : List ConversionError
  deriving DecidableEq

-- A row is updated by its primary key. Setting a column to `NULL` fails if it is not nullable,
-- which is ignored; setting it to an integer does not fail.
def convertRow (table : TableName) (column : Column)
    (acc : Table Row.key × ColumnConversionResult) (row : Row) :
    Table Row.key × ColumnConversionResult :=
  let update (v : Cell) : Table Row.key :=
    acc.1.update (·.key = row.key) (·.set column v) (·.key_set column v)
  let text := match row.cell column with
    | .text s => s
    | _       => []
  if text = [] then
    (if nullable table column then update .null else acc.1, { acc.2 with nulls := acc.2.nulls + 1 })
  else
    match textToMicros chrono text table column row.key.1 with
    | .ok (some micros) =>
      (update (.integer micros), { acc.2 with converted := acc.2.converted + 1 })
    | .ok none => (acc.1, { acc.2 with nulls := acc.2.nulls + 1 })
    | .error e =>
      (acc.1, { acc.2 with skipped := acc.2.skipped + 1, errors := acc.2.errors ++ [.parse e] })

def convertColumn (db : Db) (table : TableName) (column : Column) :
    Except MigrationError (Db × ColumnConversionResult) :=
  match db.tables table with
  | none     => .error (.query table column)
  | some tbl =>
    if tbl.columns column then
      let (rows, result) := (tbl.rows.rows.filter fun row => (row.cell column).isText).foldl
        (convertRow chrono table column) (tbl.rows, ⟨table, column, 0, 0, 0, []⟩)
      .ok (db.setRows table tbl rows, result)
    else
      .error (.query table column)

structure MigrationSummary where
  columns        : List ColumnConversionResult
  totalConverted : Nat
  totalSkipped   : Nat
  totalNulls     : Nat
  success        : Bool

def tableHasTextTimestamps (db : Db) (table : TableName) : List Column → Except MigrationError Bool
  | []                => .ok false
  | column :: columns =>
    match detectColumnFormat db table column with
    | .error e         => .error e
    | .ok (some .text) => .ok true
    | .ok _            => tableHasTextTimestamps db table columns

-- The transaction for a table, with the results of its columns and whether some column has failed.
def convertColumns (table : TableName) :
    List Column → Db → List ColumnConversionResult → Bool →
      Except MigrationError (Db × List ColumnConversionResult × Bool)
  | [], db, results, failed                => .ok (db, results, failed)
  | column :: columns, db, results, failed =>
    match detectColumnFormat db table column with
    | .error e         => .error e
    | .ok (some .text) =>
      match convertColumn chrono db table column with
      | .ok (db, result) =>
        convertColumns table columns db (results ++ [result])
          (failed || decide (0 < result.skipped))
      | .error e =>
        convertColumns table columns db (results ++ [⟨table, column, 0, 0, 0, [.critical e]⟩]) true
    | .ok _ => convertColumns table columns db results failed

def markTableCompleted (db : Db) (table : TableName) : Db :=
  { db with migrationState := if table ∈ db.migrationState then db.migrationState
                              else db.migrationState ++ [table] }

def clearTableCompleted (db : Db) (table : TableName) : Db :=
  { db with migrationState := db.migrationState.filter (· ≠ table) }

def rollBackResult (result : ColumnConversionResult) : ColumnConversionResult :=
  { result with
    converted := 0
    nulls     := 0
    errors    := if result.errors = [] then [.rolledBackByOther result.table result.column]
                 else result.errors ++ [.rolledBack result.table result.column] }

def MigrationSummary.rollBack (summary : MigrationSummary) (results : List ColumnConversionResult) :
    MigrationSummary :=
  { summary with
    columns      := summary.columns ++ results.map rollBackResult
    totalSkipped := summary.totalSkipped + (results.map (·.skipped)).sum
    success      := false }

def MigrationSummary.commit (summary : MigrationSummary) (results : List ColumnConversionResult) :
    MigrationSummary :=
  { summary with
    columns        := summary.columns ++ results
    totalConverted := summary.totalConverted + (results.map (·.converted)).sum
    totalSkipped   := summary.totalSkipped + (results.map (·.skipped)).sum
    totalNulls     := summary.totalNulls + (results.map (·.nulls)).sum }

-- The state of `convert_all_timestamps`, and the tables that it has recorded as completed so far.
structure Progress where
  db              : Db
  completedTables : List TableName
  summary         : MigrationSummary
  recorded        : List TableName

def Progress.record (p : Progress) (table : TableName) : Progress :=
  { p with db := markTableCompleted p.db table, recorded := p.recorded ++ [table] }

def Progress.clear (p : Progress) (table : TableName) : Progress :=
  if table ∈ p.completedTables then
    { p with
      db              := clearTableCompleted p.db table
      completedTables := p.completedTables.filter (· ≠ table) }
  else
    p

-- What is done for a table, and whether the call ends with an error.
def convertTable (table : TableName) (columns : List Column) (p : Progress) :
    Progress × Option MigrationError :=
  match tableHasTextTimestamps p.db table columns with
  | .error e   => (p, some e)
  | .ok false  =>
    if table ∈ p.completedTables then (p, none)
    else ({ p.record table with completedTables := p.completedTables ++ [table] }, none)
  | .ok true   =>
    let p := p.clear table
    match convertColumns chrono table columns p.db [] false with
    | .error e                 => (p, some e)
    | .ok (_, results, true)   => ({ p with summary := p.summary.rollBack results }, none)
    | .ok (db, results, false) =>
      ({ { p with db }.record table with summary := p.summary.commit results }, none)

def convertTables : List (TableName × List Column) → Progress → Progress × Option MigrationError
  | [], p                        => (p, none)
  | (table, columns) :: rest, p =>
    match convertTable chrono table columns p with
    | (p, some e) => (p, some e)
    | (p, none)   => convertTables rest p

def convertAllTimestamps (db : Db) : Progress × Option MigrationError :=
  convertTables chrono timestampColumnsByTable
    { db, completedTables := db.migrationState, summary := ⟨[], 0, 0, 0, true⟩, recorded := [] }

end

section

variable (chrono : Chrono) (db : Db) (table : TableName)

-- A value in the row with the given id.
def Db.HasCell (column : Column) (rowId : Int) (v : Cell) : Prop :=
  ∃ tbl, db.tables table = some tbl ∧ tbl.columns column ∧
    ∃ row ∈ tbl.rows.rows, row.key.1 = rowId ∧ row.cell column = v

def Db.HoldsText : Prop :=
  ∃ column ∈ columnsOf table, ∃ rowId s, db.HasCell table column rowId (.text s)

def Db.Unsupported : Prop :=
  ∃ column ∈ columnsOf table, ∃ rowId bytes, db.HasCell table column rowId (.blob bytes)

def Db.Unparsable : Prop :=
  ∃ column ∈ columnsOf table, ∃ rowId s e, db.HasCell table column rowId (.text s) ∧
    textToMicros chrono s table column rowId = .error e

-- A blank text that is not replaced by `NULL`: one that is not empty, or in a column that is not
-- nullable.
def Db.Stuck : Prop :=
  ∃ column ∈ columnsOf table, ∃ rowId s, db.HasCell table column rowId (.text s) ∧
    trim s = [] ∧ (s ≠ [] ∨ ¬nullable table column)

end

-- The tables in front of the first one that is not supported.
inductive Db.Reached (db : Db) : List TableName → TableName → Prop
  | head {table tables} : ¬db.Unsupported table → Db.Reached db (table :: tables) table
  | tail {table table' tables} :
    ¬db.Unsupported table → Db.Reached db tables table' → Db.Reached db (table :: tables) table'

-- A row in front of and after the migration.
def RowConverted (chrono : Chrono) (table : TableName) (columns : Column → Bool) (row row' : Row) :
    Prop :=
  row'.key = row.key ∧
    (∀ column, (∀ s, row.cell column ≠ .text s) → row'.cell column = row.cell column) ∧
    ∀ column ∈ columnsOf table, columns column → ∀ s, row.cell column = .text s → trim s ≠ [] →
      ∃ n, textToMicros chrono s table column row.key.1 = .ok (some n) ∧
        row'.cell column = .integer n

-- What is expected of the migration that leads to the given state.
structure Reliable (chrono : Chrono) (db : Db) (after : Progress) (error : Option MigrationError) :
    Prop where
  converted : error = none → after.summary.success → ∀ table, ¬after.db.HoldsText table ∧
    Option.Rel (fun tbl tbl' => tbl'.columns = tbl.columns ∧
        List.Forall₂ (RowConverted chrono table tbl.columns) tbl.rows.rows tbl'.rows.rows)
      (db.tables table) (after.db.tables table)
  rolledBack : ∀ table, db.Unparsable chrono table → after.db.tables table = db.tables table
  recorded   : ∀ table ∈ after.recorded, ¬after.db.HoldsText table
  completed  : error = none → ∀ table ∈ after.db.migrationState, ¬after.db.HoldsText table
  again      : (convertAllTimestamps chrono after.db).1.db.tables = after.db.tables ∧
    (convertAllTimestamps chrono after.db).1.summary.totalConverted = 0

-- Every table that is reached, and all of whose texts are parsed, has no blank text that stays.
def NothingStuck (chrono : Chrono) (db : Db) : Prop :=
  ∀ table, db.Reached tableNames table → ¬db.Unparsable chrono table → ¬db.Stuck table

end Migrate
