import AgentMail.Reservation.Theorems.Exclusion
import AgentMail.Reservation.Transaction

open Pattern

namespace Reservation

variable {pf : Platform} {now : Int} {req : CreateRequest} {db db' : Db} {row : FileReservationRow}
  {rows : List FileReservationRow} {paths : List Str}

-- What is looked at.

theorem firstBusy_eq_none_iff {index : ReservationConflictIndex} :
    firstBusy pf index paths = some none ↔
      ∀ path ∈ paths, ReservationConflictIndex.firstConflict pf.caseInsensitive index
        (compiled pf path) = some none := by
  constructor
  case mp => exact of_firstBusy
  case mpr =>
    intro h
    induction paths
    case nil => rfl
    case cons path paths hi =>
      have ⟨hp, h⟩ := List.forall_mem_cons.mp h
      exact Option.bind_eq_some_iff.mpr ⟨none, hp, hi h⟩

theorem firstBusy_rivals_iff :
    firstBusy pf (.build pf.globset pf.caseInsensitive
      ((rivals pf now req db).map FileReservationRow.pathPattern))
        req.paths = some none ↔
      ∀ path ∈ req.paths, ∀ row ∈ rivals pf now req db,
        Probed (compiled pf path) (compiled pf row.pathPattern) →
        (compiled pf row.pathPattern).overlaps pf.caseInsensitive (compiled pf path) =
          some false := by
  rw [firstBusy_eq_none_iff]
  refine forall₂_congr fun path _ => ?_
  have hf : ∀ pre, (compiled pf path).firstLiteralSegment = some pre → pre ≠ [] :=
    fun pre h => (CompiledPattern.firstLiteralSegment_iff.mp h).right.left
  rw [ReservationConflictIndex.build,
    ReservationConflictIndex.firstConflict_eq_none_iff (PrefixIndex.holds_build _) hf, List.map_map,
    List.forall_mem_map]
  rfl

namespace Transaction

theorem mem_rivals_iff : row ∈ rivals pf now req db ↔ Opposes pf now req db row := by
  simp only [rivals, List.mem_filter, Bool.and_eq_true, Bool.or_eq_true,
    decide_eq_true_eq, and_assoc]
  constructor
  case mp  =>
    rintro ⟨hm, hp, ha, hactive, hu, he⟩
    exact ⟨hm, hp, ha, hactive, hu, he⟩
  case mpr =>
    rintro ⟨hm, hp, ha, hactive, hu, he⟩
    exact ⟨hm, hp, ha, hactive, hu, he⟩

theorem conflict_iff : Conflict pf now req db ↔
    ∃ path ∈ req.paths, ∃ row ∈ rivals pf now req db, overlap pf row.pathPattern path := by
  simp only [Conflict, mem_rivals_iff]

theorem detected_iff : Detected pf now req db ↔
    (firstBusy pf (.build pf.globset pf.caseInsensitive
      ((rivals pf now req db).map FileReservationRow.pathPattern))
      req.paths = some none ↔ ¬Conflict pf now req db) := by
  have hn : (∀ path ∈ req.paths, ∀ row ∈ rivals pf now req db,
      Probed (compiled pf path) (compiled pf row.pathPattern) →
        (compiled pf row.pathPattern).overlaps pf.caseInsensitive (compiled pf path) = some false) ↔
      ¬∃ path ∈ req.paths, ∃ row ∈ rivals pf now req db,
        Probed (compiled pf path) (compiled pf row.pathPattern) ∧
        (compiled pf row.pathPattern).overlaps pf.caseInsensitive (compiled pf path) ≠
          some false := by
    simp only [not_exists, not_and, ne_eq, not_not]
  rw [Detected, ← conflict_iff, firstBusy_rivals_iff, hn, not_iff_not]
  exact iff_comm

-- What is inserted.

theorem insertRows_added (now : Int) (req : CreateRequest) (paths : List Str) (db : Db) :
    Added now { req with paths } db (insertRows now req paths db).fst
      (insertRows now req paths db).snd := by
  induction paths generalizing db
  case nil => exact ⟨(List.append_nil _).symm, rfl, rfl, rfl, nofun⟩
  case cons path paths hi =>
    have ⟨hr, hl, hp, hi, hn⟩ := hi (db.insertRow (newRow now req db.nextId path))
    constructor
    case rows_eq  => exact hr.trans (List.append_assoc ..)
    case releases => exact hl
    case paths    => exact congrArg (path :: ·) hp
    case ids =>
      have hid : db.nextId = (db.lastId + 1 + (0 : Nat) : Int) := (Int.add_zero _).symm
      have hs : (List.range (paths.length + 1)).map (fun i : Nat => (db.lastId + 1 + i : Int)) =
          db.nextId :: (List.range paths.length).map fun i : Nat =>
            ((db.lastId + 1 : Nat) + 1 + i : Int) := by
        rw [List.range_succ_eq_map, List.map_cons, List.map_map, hid]
        refine congrArg (_ :: ·) (List.map_congr_left fun i _ => ?_)
        simp only [Function.comp_apply, Nat.succ_eq_add_one]
        push_cast
        omega
      exact (congrArg (db.nextId :: ·) hi).trans hs.symm
    case new =>
      intro row hr
      obtain rfl | hr := List.mem_cons.mp hr
      · rfl
      · exact hn row hr

section Run

variable {world : World} {c : Connection Db} {out : List FileReservationRow} {base : Db}
  {r : Except CreateError (List FileReservationRow)}

-- What comes of a transaction that began with `base`, if it does not panic: it is undone, or it is
-- granted.
def Settles (base : Db) (granted : Db → List FileReservationRow → Prop) : Created → Prop
  | none                => True
  | some (db, .error _) => db = base
  | some (db, .ok rows) => granted db rows

variable {granted : Db → List FileReservationRow → Prop}

theorem settles_tryInTx {effect : Connection Db → Connection Db} {next : Connection Db → Created}
    (hs : c.saved = some base)
    (hn : Settles base granted (next (effect { c with count := c.count + 1 }))) :
    Settles base granted (tryInTx (c.execute world.statement effect) next) := by
  rw [tryInTx, Connection.tryInTx_execute]
  cases world.statement c.count
  case none         => exact hn
  case some failure => exact congrArg (Option.getD · c.state) hs

theorem settles_giveUp {error : CreateError} (hs : c.saved = some base) :
    Settles base granted (giveUp error c) :=
  congrArg (Option.getD · c.state) hs

theorem insertEach_settles (hs : c.saved = some base)
    (hg : granted (insertRows now req paths c.state).fst
      (out ++ (insertRows now req paths c.state).snd)) :
    Settles base granted (insertEach world now req paths out c) := by
  induction paths generalizing c out
  case nil =>
    refine settles_tryInTx hs ?_
    rw [insertRows, List.append_nil] at hg
    exact hg
  case cons path paths hi =>
    refine settles_tryInTx hs (settles_tryInTx hs ?_)
    dsimp only [id]
    cases world.rowid (c.count + 1 + 1)
    case noRow       => exact settles_giveUp hs
    case undecodable => exact settles_giveUp hs
    case invalid h   =>
      simp only [RowidAnswer.rows, if_pos h]
      exact settles_giveUp hs
    case lastId      =>
      let inserted := c.state.insertRow (newRow now req 0 path)
      have hpos : ¬(inserted.lastId : Int) ≤ 0 := by
        have : 0 < inserted.lastId := Nat.succ_pos _
        omega
      simp only [RowidAnswer.rows]
      rw [if_neg hpos]
      refine hi hs ?_
      rw [List.append_assoc]
      exact hg

theorem createFileReservations_settles : Settles db (fun db' rows =>
      firstBusy pf (.build pf.globset pf.caseInsensitive
        ((rivals pf now req db).map FileReservationRow.pathPattern))
        req.paths = some none ∧
      db' = (insertRows now req req.paths db).fst ∧ rows = (insertRows now req req.paths db).snd)
    (createFileReservations pf world now req db) := by
  unfold createFileReservations
  cases world.acquire
  case some failure => exact rfl
  case none =>
    rw [Connection.begin, tryInTx, Connection.tryInTx_execute]
    cases world.statement 0
    case some failure => exact rfl
    case none =>
      refine settles_tryInTx rfl ?_
      dsimp only [id]
      split
      case h_1 => trivial
      case h_2 => exact settles_giveUp rfl
      case h_3 h => exact insertEach_settles rfl ⟨h, rfl, rfl⟩

theorem insertEach_calm : insertEach .calm now req paths out c =
    some ((insertRows now req paths c.state).fst,
      .ok (out ++ (insertRows now req paths c.state).snd)) := by
  induction paths generalizing c out
  case nil =>
    show some (c.state, Except.ok out) = _
    rw [insertRows, List.append_nil]
  case cons path paths hi =>
    let inserted := c.state.insertRow (newRow now req 0 path)
    have hpos : ¬(inserted.lastId : Int) ≤ 0 := by
      have : 0 < inserted.lastId := Nat.succ_pos _
      omega
    let looked : Connection Db := ⟨inserted, c.saved, c.count + 1 + 1⟩
    have hc : insertEach .calm now req (path :: paths) out c =
        if (inserted.lastId : Int) ≤ 0 then
          giveUp (.internal (rowidMessage req path
            ("invalid id=".toList ++ (toString (inserted.lastId : Int)).toList))) looked
        else
          insertEach .calm now req paths
            (out ++ [{ newRow now req 0 path with id := inserted.lastId }]) looked :=
      rfl
    rw [hc, if_neg hpos, hi, List.append_assoc]
    rfl

-- The transaction is what the rest of the model has it to be, if nothing fails.
theorem createFileReservations_calm :
    createFileReservations pf .calm now req db =
      (Reservation.createFileReservations pf now req db).map fun r =>
      (r.fst, r.snd.mapError .resourceBusy) := by
  unfold createFileReservations Reservation.createFileReservations tryInTx
  simp only [World.calm, Connection.begin, Connection.tryInTx_of_none, id_eq]
  split
  case h_1 hb =>
    rw [hb]
    rfl
  case h_2 hb =>
    rw [hb]
    rfl
  case h_3 hb =>
    rw [hb]
    exact insertEach_calm

end Run

section AllOrNothing

variable (pf now req db)

theorem granted_iff :
    (∃ db' rows, createFileReservations pf .calm now req db = some (db', .ok rows)) ↔
      firstBusy pf (.build pf.globset pf.caseInsensitive
        ((rivals pf now req db).map FileReservationRow.pathPattern))
        req.paths = some none := by
  constructor
  case mp =>
    intro ⟨db', rows, h⟩
    have hs := @createFileReservations_settles pf now req db .calm
    rw [h] at hs
    exact hs.left
  case mpr =>
    intro h
    refine ⟨(insertRows now req req.paths db).fst, (insertRows now req req.paths db).snd, ?_⟩
    rw [createFileReservations_calm, Reservation.createFileReservations, h]
    rfl

theorem detected_of_allOrNothing (h : AllOrNothing pf now req db) : Detected pf now req db :=
  detected_iff.mpr ((granted_iff pf now req db).symm.trans h.granted)

theorem allOrNothing_of_detected (h : Detected pf now req db) : AllOrNothing pf now req db where
  granted := (granted_iff pf now req db).trans (detected_iff.mp h)
  sound world db' rows hc := by
    have hs := @createFileReservations_settles pf now req db world
    rw [hc] at hs
    exact (detected_iff.mp h).mp hs.left
  added world db' rows hc := by
    have hs := @createFileReservations_settles pf now req db world
    rw [hc] at hs
    have ⟨_, hd, hr⟩ := hs
    exact hd ▸ hr ▸ insertRows_added now req req.paths db
  undone world db' error hc := by
    have hs := @createFileReservations_settles pf now req db world
    rw [hc] at hs
    exact hs

theorem allOrNothing_iff : AllOrNothing pf now req db ↔ Detected pf now req db :=
  ⟨detected_of_allOrNothing pf now req db, allOrNothing_of_detected pf now req db⟩

end AllOrNothing

-- Agent 2 holds the whole tree.
def wholeTree : Db :=
  Db.empty.insertRow ⟨0, 1, 2, ".".toList, 1, [], 0, 1000, .null⟩

theorem not_allOrNothing_wholeTree :
    ¬AllOrNothing ⟨.wildcard, false, fun _ => 0⟩ 5 ⟨1, 1, ["src/main.rs".toList], 60, true,
      []⟩ wholeTree :=
  fun h => absurd (detected_of_allOrNothing _ _ _ _ h) (by decide +kernel)

end Transaction

end Reservation
