import AgentMail.Lib.Except
import AgentMail.Share.Walk

open Pattern

namespace Share

variable {fs : FileSystem} {context : Str} {buf : PathBuf} {base dir path : List FileName}
  {item : Pending} {walk walk' : Walk} {entry : DirEntry} {kind : FileKind} {names : List FileName}

-- What an entry of a directory leads to, where its kind does not stop the walk.
structure Visits (fs : FileSystem) (base dir : List FileName) (item : Pending) (entry : DirEntry)
    (path : List FileName) (kind : FileKind) : Prop where
  resolves : fs.canonicalize (item.path.joins [entry.name]) = some path
  inside   : base <+: path
  kindAt   : fs.kindAt path = some kind
  real     : entry.kind.IsReal → path = dir ++ [entry.name]
  acyclic  : ¬entry.kind.IsReal → kind = .dir → path ∉ item.ancestry

def Pending.child (item : Pending) (entry : DirEntry) (path : List FileName) : Pending where
  path     := item.path.joins [entry.name]
  ancestry := item.ancestry ++ [path]

def Pending.relative (base : List FileName) (item : Pending) (entry : DirEntry) : Str :=
  relativePath base (item.path.joins [entry.name])

def Walk.after (base : List FileName) (item : Pending) (walk : Walk) (entry : DirEntry)
    (path : List FileName) : FileKind → Walk
  | .dir       => { walk with stack := item.child entry path :: walk.stack }
  | .file      => { walk with entries := walk.entries ++ [item.relative base entry] }
  | .symlink _ => walk
  | .other     => walk

theorem visits_real (hc : fs.canonicalize item.path = some dir) (hb : base <+: dir)
    (he : entry ∈ fs.children dir) (hr : entry.kind.IsReal) :
    Visits fs base dir item entry (dir ++ [entry.name]) entry.kind where
  resolves  := FileSystem.canonicalize_child hc (FileSystem.kindAt_child he) hr
  inside    := hb.trans (List.prefix_append ..)
  kindAt    := FileSystem.kindAt_child he
  real _    := rfl
  acyclic h := absurd hr h

theorem visitEntry_cases (hc : fs.canonicalize item.path = some dir) (hb : base <+: dir)
    (he : entry ∈ fs.children dir) (h : visitEntry fs context base item walk entry = .ok walk') :
    ∃ path kind, Visits fs base dir item entry path kind ∧
      walk' = walk.after base item entry path kind := by
  rw [visitEntry] at h
  cases hk : entry.kind
  case dir =>
    have hv := visits_real hc hb he (hk ▸ trivial)
    simp only [hk, hv.resolves] at h
    cases h
    exact ⟨_, _, hv, by rw [hk]; rfl⟩
  case file =>
    have hv := visits_real hc hb he (hk ▸ trivial)
    simp only [hk] at h
    cases h
    exact ⟨_, _, hv, by rw [hk]; rfl⟩
  case other =>
    have hv := visits_real hc hb he (hk ▸ trivial)
    simp only [hk] at h
    cases h
    exact ⟨_, _, hv, by rw [hk]; rfl⟩
  case symlink target =>
    simp only [hk] at h
    split at h
    case h_1         => cases h
    case h_2 path hp =>
      obtain ⟨kind, hkind, hreal⟩ := FileSystem.exists_canonicalize hp
      split at h
      case isTrue       => cases h
      case isFalse hin  =>
        have hlink : ¬entry.kind.IsReal := by
          rw [hk]
          exact id
        have hv (ha : kind = .dir → path ∉ item.ancestry) :
            Visits fs base dir item entry path kind :=
          ⟨hp, not_not.mp hin, hkind, fun hr => absurd hr hlink, fun _ => ha⟩
        rw [hkind] at h
        cases kind
        case symlink => exact hreal.elim
        case other   =>
          cases h
          exact ⟨path, .other, hv (fun h => by cases h), rfl⟩
        case file    =>
          cases h
          exact ⟨path, .file, hv (fun h => by cases h), rfl⟩
        case dir     =>
          dsimp only at h
          split at h
          case isTrue     => cases h
          case isFalse ha =>
            cases h
            exact ⟨path, .dir, hv fun _ => ha, rfl⟩

-- What the entries of a directory have added.
structure Grows (fs : FileSystem) (base dir : List FileName) (item : Pending)
    (found : List DirEntry) (walk walk' : Walk) : Prop where
  stack   : ∃ pushed, walk'.stack = pushed ++ walk.stack ∧ ∀ pending ∈ pushed,
    ∃ entry path, Visits fs base dir item entry path .dir ∧ pending = item.child entry path
  entries : ∃ listed, walk'.entries = walk.entries ++ listed ∧ ∀ text ∈ listed,
    ∃ entry path, Visits fs base dir item entry path .file ∧ text = item.relative base entry
  visited : ∀ entry ∈ found, ∃ path kind, Visits fs base dir item entry path kind ∧
    (kind = .dir → item.child entry path ∈ walk'.stack) ∧
    (kind = .file → item.relative base entry ∈ walk'.entries)

theorem grows_nil : Grows fs base dir item [] walk walk where
  stack   := ⟨[], rfl, fun _ h => absurd h List.not_mem_nil⟩
  entries := ⟨[], (List.append_nil _).symm, fun _ h => absurd h List.not_mem_nil⟩
  visited := fun _ h => absurd h List.not_mem_nil

theorem grows_after (hv : Visits fs base dir item entry path kind) :
    Grows fs base dir item [entry] walk (walk.after base item entry path kind) := by
  have hnil : Grows fs base dir item [] walk walk := grows_nil
  cases kind
  case dir =>
    refine { hnil with stack := ⟨[item.child entry path], rfl, ?_⟩, visited := ?_ }
    · exact List.forall_mem_singleton.mpr ⟨entry, path, hv, rfl⟩
    · exact List.forall_mem_singleton.mpr ⟨path, .dir, hv, fun _ => List.mem_cons_self,
        fun h => by cases h⟩
  case file =>
    refine { hnil with entries := ⟨[item.relative base entry], rfl, ?_⟩, visited := ?_ }
    · exact List.forall_mem_singleton.mpr ⟨entry, path, hv, rfl⟩
    · refine List.forall_mem_singleton.mpr ⟨path, .file, hv, (fun h => by cases h), fun _ => ?_⟩
      exact List.mem_append_right _ (List.mem_singleton_self _)
  case symlink | other =>
    refine { hnil with visited := List.forall_mem_singleton.mpr ⟨path, _, hv, ?_⟩ }
    exact ⟨fun h => (by cases h), fun h => by cases h⟩

theorem Grows.append {walk'' : Walk} {entries entries' : List DirEntry}
    (h : Grows fs base dir item entries walk walk')
    (h' : Grows fs base dir item entries' walk' walk'') :
    Grows fs base dir item (entries ++ entries') walk walk'' := by
  obtain ⟨pushed, hs, hp⟩ := h.stack
  obtain ⟨pushed', hs', hp'⟩ := h'.stack
  obtain ⟨listed, he, hl⟩ := h.entries
  obtain ⟨listed', he', hl'⟩ := h'.entries
  constructor
  case stack =>
    exact ⟨pushed' ++ pushed, by rw [hs', hs, List.append_assoc],
      List.forall_mem_append.mpr ⟨hp', hp⟩⟩
  case entries =>
    exact ⟨listed ++ listed', by rw [he', he, List.append_assoc],
      List.forall_mem_append.mpr ⟨hl, hl'⟩⟩
  case visited =>
    refine List.forall_mem_append.mpr ⟨fun entry hm => ?_, h'.visited⟩
    obtain ⟨path, kind, hv, hd, hf⟩ := h.visited entry hm
    refine ⟨path, kind, hv, fun hk => ?_, fun hk => ?_⟩
    · rw [hs']
      exact List.mem_append_right _ (hd hk)
    · rw [he']
      exact List.mem_append_left _ (hf hk)

theorem foldlM_grows {entries : List DirEntry} (hc : fs.canonicalize item.path = some dir)
    (hb : base <+: dir) (he : ∀ entry ∈ entries, entry ∈ fs.children dir)
    (h : entries.foldlM (visitEntry fs context base item) walk = .ok walk') :
    Grows fs base dir item entries walk walk' := by
  induction entries generalizing walk
  case nil =>
    cases h
    exact grows_nil
  case cons entry entries hi =>
    rw [List.forall_mem_cons] at he
    obtain ⟨walk₁, hv, h⟩ := Except.bind_eq_ok_iff.mp h
    obtain ⟨path, kind, hvisits, rfl⟩ := visitEntry_cases hc hb he.left hv
    exact (grows_after hvisits).append (hi he.right h)

theorem visit_grows (hc : fs.canonicalize item.path = some dir) (hb : base <+: dir)
    (h : visit fs context base item walk = .ok walk') :
    Grows fs base dir item (fs.children dir) walk walk' := by
  rw [visit] at h
  split at h
  case h_1            => cases h
  case h_2 entries hr =>
    obtain ⟨dir', hc', _, rfl⟩ := FileSystem.readDir_eq_some hr
    cases hc.symm.trans hc'
    exact foldlM_grows hc hb (fun _ => id) h

-- A pending directory that was reached along the given names.
structure Tracked (fs : FileSystem) (buf : PathBuf) (base : List FileName) (item : Pending)
    (names dir : List FileName) : Prop where
  path     : item.path = buf.joins names
  resolves : fs.canonicalize item.path = some dir
  isDir    : fs.kindAt dir = some .dir
  inside   : base <+: dir
  ancestry : ∀ path, path ∈ item.ancestry ↔
    ∃ k ≤ names.length, fs.canonicalize (buf.joins (names.take k)) = some path

theorem Tracked.joins (h : Tracked fs buf base item names dir) (name : FileName) :
    item.path.joins [name] = buf.joins (names ++ [name]) := by
  rw [h.path, PathBuf.joins_joins]

theorem Tracked.child (h : Tracked fs buf base item names dir)
    (hv : Visits fs base dir item entry path .dir) :
    Tracked fs buf base (item.child entry path) (names ++ [entry.name]) path := by
  have hres := hv.resolves
  rw [h.joins] at hres
  refine ⟨h.joins entry.name, hv.resolves, hv.kindAt, hv.inside, fun path' => ?_⟩
  rw [Pending.child, List.mem_append, List.mem_singleton, h.ancestry, List.length_append,
    List.length_singleton]
  constructor
  case mp =>
    rintro (⟨k, hk, hc⟩ | rfl)
    · exact ⟨k, Nat.le_succ_of_le hk, (List.take_append_of_le_length hk).symm ▸ hc⟩
    · exact ⟨names.length + 1, Nat.le_refl _, by rwa [List.take_of_length_le (by simp)]⟩
  case mpr =>
    rintro ⟨k, hk, hc⟩
    by_cases hle : k ≤ names.length
    case pos => exact .inl ⟨k, hle, List.take_append_of_le_length hle ▸ hc⟩
    case neg =>
      have hlen : (names ++ [entry.name]).length ≤ k := by
        rw [List.length_append, List.length_singleton]
        omega
      rw [List.take_of_length_le hlen, hres, Option.some_inj] at hc
      exact .inr hc.symm

-- The paths that are not on the way to a directory.
def unvisited (fs : FileSystem) (ancestry : List (List FileName)) : List (List FileName) :=
  fs.paths.filter fun path => ancestry.all (· ≠ path)

theorem unvisited_append (ancestry : List (List FileName)) (path : List FileName) :
    unvisited fs (ancestry ++ [path]) = (unvisited fs ancestry).filter (· ≠ path) := by
  rw [unvisited, unvisited, List.filter_filter]
  refine List.filter_congr fun path' _ => ?_
  simp [Bool.and_comm, eq_comm]

theorem length_unvisited_le (ancestry : List (List FileName)) (path : List FileName) :
    (unvisited fs (ancestry ++ [path])).length ≤ (unvisited fs ancestry).length := by
  rw [unvisited_append]
  exact List.length_filter_le ..

theorem length_unvisited_lt {ancestry : List (List FileName)} (hp : path ∈ fs.paths)
    (hn : path ∉ ancestry) :
    (unvisited fs (ancestry ++ [path])).length < (unvisited fs ancestry).length := by
  rw [unvisited_append, List.length_filter_lt_length_iff_exists]
  refine ⟨path, List.mem_filter.mpr ⟨hp, List.all_eq_true.mpr fun path' hm => decide_eq_true ?_⟩,
    by simp⟩
  rintro rfl
  exact hn hm

-- How far the path of a directory can still be extended.
def room (fs : FileSystem) (dir : List FileName) : Nat :=
  fs.paths.flatten.length - dir.length

theorem room_lt {name : FileName} (hp : dir ++ [name] ∈ fs.paths) :
    room fs (dir ++ [name]) < room fs dir := by
  have hle := (List.sublist_flatten_of_mem hp).length_le
  rw [List.length_append, List.length_singleton] at hle
  rw [room, room, List.length_append, List.length_singleton]
  omega

-- A link leads to a directory that is new on its way, and anything else leads deeper into the tree.
theorem Visits.smaller (h : Visits fs base dir item entry path .dir) :
    Prod.Lex (· < ·) (· < ·) ((unvisited fs (item.child entry path).ancestry).length, room fs path)
      ((unvisited fs item.ancestry).length, room fs dir) := by
  have hp := FileSystem.mem_paths h.kindAt
  by_cases hr : entry.kind.IsReal
  case neg => exact .left _ _ (length_unvisited_lt hp (h.acyclic hr rfl))
  case pos =>
    have he := h.real hr
    rw [he] at hp ⊢
    rcases Nat.lt_or_eq_of_le (length_unvisited_le item.ancestry (dir ++ [entry.name])) with
      hlt | heq
    · exact .left _ _ hlt
    · rw [Pending.child, heq]
      exact .right _ (room_lt hp)

-- The walk ends from the stack on, whatever it has listed.
def Ends (fs : FileSystem) (context : Str) (base : List FileName) (stack : List Pending) : Prop :=
  ∀ entries, ∃ fuel result, walkFrom fs context base fuel ⟨stack, entries⟩ = some result

theorem ends_nil : Ends fs context base [] :=
  fun entries => ⟨0, .ok entries, rfl⟩

theorem Tracked.ends {item : Pending} {names dir : List FileName} {stack : List Pending}
    (h : Tracked fs buf base item names dir) (hs : Ends fs context base stack) :
    Ends fs context base (item :: stack) := by
  intro entries
  cases hv : visit fs context base item ⟨stack, entries⟩
  case error e => exact ⟨1, .error e, by rw [walkFrom, hv]⟩
  case ok walk' =>
    obtain ⟨pushed, hstack, hpushed⟩ := (visit_grows h.resolves h.inside hv).stack
    have hends : Ends fs context base (pushed ++ stack) := by
      clear hstack
      induction pushed
      case nil => exact hs
      case cons pending pushed hi =>
        rw [List.forall_mem_cons] at hpushed
        obtain ⟨⟨entry, path, hvisits, rfl⟩, hpushed⟩ := hpushed
        exact (h.child hvisits).ends (hi hpushed)
    obtain ⟨fuel, result, hr⟩ := hends walk'.entries
    refine ⟨fuel + 1, result, ?_⟩
    rw [walkFrom, hv, ← hr, ← hstack]
termination_by ((unvisited fs item.ancestry).length, room fs dir)
decreasing_by exact hvisits.smaller

def AllTracked (fs : FileSystem) (buf : PathBuf) (base : List FileName) (stack : List Pending) :
    Prop :=
  ∀ item ∈ stack, ∃ names dir, Tracked fs buf base item names dir

theorem ends_of_allTracked {stack : List Pending} (context : Str)
    (h : AllTracked fs buf base stack) : Ends fs context base stack := by
  induction stack
  case nil => exact ends_nil
  case cons item stack hi =>
    rw [AllTracked, List.forall_mem_cons] at h
    obtain ⟨⟨names, dir, ht⟩, h⟩ := h
    exact ht.ends (hi h)

section Finished

variable {stack : List Pending} {entries out : List Str} {fuel : Nat}

theorem allTracked_of_visit (hi : Tracked fs buf base item names dir)
    (ht : AllTracked fs buf base stack)
    (hv : visit fs context base item ⟨stack, entries⟩ = .ok walk') :
    AllTracked fs buf base walk'.stack := by
  obtain ⟨pushed, hs, hp⟩ := (visit_grows hi.resolves hi.inside hv).stack
  rw [hs]
  refine List.forall_mem_append.mpr ⟨fun pending hm => ?_, ht⟩
  obtain ⟨entry, path, hv, rfl⟩ := hp pending hm
  exact ⟨_, _, hi.child hv⟩

theorem readable_of_visit (hc : fs.canonicalize item.path = some dir)
    (hv : visit fs context base item walk = .ok walk') : fs.readable dir := by
  rw [visit, FileSystem.readDir, hc, Option.bind_some] at hv
  by_contra hn
  rw [if_neg fun h => hn h.right] at hv
  cases hv

-- The directory on top of the stack is read, and what it holds is tracked again.
theorem walkFrom_cons (ht : AllTracked fs buf base (item :: stack))
    (h : walkFrom fs context base fuel ⟨item :: stack, entries⟩ = some (.ok out)) :
    ∃ fuel' names dir walk', fuel = fuel' + 1 ∧ Tracked fs buf base item names dir ∧
      fs.readable dir ∧
      Grows fs base dir item (fs.children dir) ⟨stack, entries⟩ walk' ∧
      AllTracked fs buf base walk'.stack ∧
      walkFrom fs context base fuel' walk' = some (.ok out) := by
  rw [AllTracked, List.forall_mem_cons] at ht
  obtain ⟨⟨names, dir, hi⟩, ht⟩ := ht
  cases fuel
  case zero       => cases h
  case succ fuel' =>
    rw [walkFrom] at h
    split at h
    case h_1          => cases h
    case h_2 walk' hv =>
      exact ⟨fuel', names, dir, walk', rfl, hi, readable_of_visit hi.resolves hv,
        visit_grows hi.resolves hi.inside hv, allTracked_of_visit hi ht hv, h⟩

theorem entries_kept (ht : AllTracked fs buf base stack)
    (h : walkFrom fs context base fuel ⟨stack, entries⟩ = some (.ok out)) : entries <+: out := by
  induction fuel generalizing stack entries
  case zero =>
    cases stack <;> cases h
    exact List.prefix_rfl
  case succ fuel hi =>
    cases stack
    case nil =>
      cases h
      exact List.prefix_rfl
    case cons item stack =>
      obtain ⟨fuel', _, _, walk', hf, _, _, hg, ht, h⟩ := walkFrom_cons ht h
      cases hf
      obtain ⟨listed, he, _⟩ := hg.entries
      have hp := hi ht h
      rw [he] at hp
      exact (List.prefix_append ..).trans hp

-- A text that is listed for a file in the base.
def IsListed (fs : FileSystem) (buf : PathBuf) (base : List FileName) (text : Str) : Prop :=
  ∃ names path, names ≠ [] ∧ fs.canonicalize (buf.joins names) = some path ∧
    fs.kindAt path = some .file ∧ base <+: path ∧ text = relativePath base (buf.joins names)

theorem Tracked.isListed (h : Tracked fs buf base item names dir)
    (hv : Visits fs base dir item entry path .file) :
    IsListed fs buf base (item.relative base entry) :=
  ⟨names ++ [entry.name], path, List.append_ne_nil_of_right_ne_nil _ (List.cons_ne_nil _ _),
    h.joins entry.name ▸ hv.resolves, hv.kindAt, hv.inside,
    congrArg (relativePath base) (h.joins entry.name)⟩

theorem isListed_of_mem (ht : AllTracked fs buf base stack)
    (hl : ∀ text ∈ entries, IsListed fs buf base text)
    (h : walkFrom fs context base fuel ⟨stack, entries⟩ = some (.ok out)) :
    ∀ text ∈ out, IsListed fs buf base text := by
  induction fuel generalizing stack entries
  case zero =>
    cases stack <;> cases h
    exact hl
  case succ fuel hi =>
    cases stack
    case nil =>
      cases h
      exact hl
    case cons item stack =>
      obtain ⟨fuel', names, dir, walk', hf, hitem, _, hg, ht, h⟩ := walkFrom_cons ht h
      cases hf
      obtain ⟨listed, he, hlisted⟩ := hg.entries
      refine hi ht ?_ h
      rw [he]
      refine List.forall_mem_append.mpr ⟨hl, fun text hm => ?_⟩
      obtain ⟨entry, path, hv, rfl⟩ := hlisted text hm
      exact hitem.isListed hv

-- A directory that the walk reads on its way to the result.
def Reads (fs : FileSystem) (context : Str) (buf : PathBuf) (base : List FileName) (out : List Str)
    (item : Pending) : Prop :=
  ∃ fuel stack entries, walkFrom fs context base fuel ⟨stack, entries⟩ = some (.ok out) ∧
    AllTracked fs buf base stack ∧ item ∈ stack

-- Such a directory may be read, and every entry of it is visited.
theorem Reads.visits (h : Reads fs context buf base out item)
    (ht : Tracked fs buf base item names dir) :
    fs.readable dir ∧ ∀ entry ∈ fs.children dir, ∃ path kind,
      Visits fs base dir item entry path kind ∧
      (kind = .dir → Reads fs context buf base out (item.child entry path)) ∧
      (kind = .file → item.relative base entry ∈ out) := by
  obtain ⟨fuel, stack, entries, h, hall, hm⟩ := h
  induction fuel generalizing stack entries
  case zero =>
    cases stack
    case nil  => exact absurd hm List.not_mem_nil
    case cons => cases h
  case succ fuel hi =>
    cases stack
    case nil            => exact absurd hm List.not_mem_nil
    case cons top stack =>
      obtain ⟨fuel', names', dir', walk', hf, htop, hread, hg, hall', h'⟩ := walkFrom_cons hall h
      cases hf
      rcases List.mem_cons.mp hm with rfl | hm
      case inr =>
        obtain ⟨pushed, hs, _⟩ := hg.stack
        refine hi walk'.stack walk'.entries h' hall' ?_
        rw [hs]
        exact List.mem_append_right _ hm
      case inl =>
        obtain rfl : dir' = dir := Option.some_inj.mp (htop.resolves.symm.trans ht.resolves)
        refine ⟨hread, fun entry he => ?_⟩
        obtain ⟨path, kind, hv, hd, hl⟩ := hg.visited entry he
        refine ⟨path, kind, hv, fun hk => ⟨fuel, walk'.stack, walk'.entries, h', hall', hd hk⟩,
          fun hk => ?_⟩
        exact (entries_kept hall' h').subset (hl hk)

-- Every directory that a path below the base leads to is read.
theorem reads_of_canonicalize {start : Pending} (hr : Reads fs context buf base out start)
    (ht : Tracked fs buf base start [] base) (hc : fs.canonicalize (buf.joins names) = some dir)
    (hd : fs.kindAt dir = some .dir) :
    ∃ item, Reads fs context buf base out item ∧ Tracked fs buf base item names dir := by
  induction names using List.reverseRecOn generalizing dir
  case nil =>
    have hp := ht.resolves
    rw [ht.path, hc, Option.some_inj] at hp
    exact ⟨start, hr, hp ▸ ht⟩
  case append_singleton names name hi =>
    obtain ⟨parent, hp⟩ := FileSystem.canonicalize_front hc
    rw [← PathBuf.joins_joins] at hc
    obtain ⟨entry, he, rfl⟩ := FileSystem.exists_child hp hc
    obtain ⟨item, hreads, htracked⟩ := hi hp (FileSystem.kindAt_parent (FileSystem.kindAt_child he))
    obtain ⟨path, kind, hv, hchild, _⟩ := (hreads.visits htracked).right entry he
    obtain rfl : path = dir := by
      have hres := hv.resolves
      rw [htracked.path, hc, Option.some_inj] at hres
      exact hres.symm
    obtain rfl : kind = .dir := Option.some_inj.mp (hv.kindAt.symm.trans hd)
    exact ⟨item.child entry path, hchild rfl, htracked.child hv⟩

end Finished

theorem canonicalize_real (hc : fs.canonicalize buf = some dir)
    (hk : fs.kindAt (dir ++ names) = some kind) (hr : kind.IsReal) :
    fs.canonicalize (buf.joins names) = some (dir ++ names) := by
  induction names using List.reverseRecOn generalizing kind
  case nil => rw [PathBuf.joins_nil, hc, List.append_nil]
  case append_singleton names name hi =>
    rw [← List.append_assoc] at hk ⊢
    rw [← PathBuf.joins_joins]
    exact FileSystem.canonicalize_child (hi (FileSystem.kindAt_parent hk) trivial) hk hr

-- The names along which something is reached are those of entries.
theorem exists_entry_of_resolve {components : List Component} {m : Nat}
    (h : fs.resolve m dir components = some path) :
    ∀ name, .normal name ∈ components → ∃ entry ∈ fs.entries.rows, entry.name = name := by
  intro name hm
  obtain ⟨front, rest, rfl⟩ := List.append_of_mem hm
  obtain ⟨parent, hp⟩ := FileSystem.resolve_front h
  obtain ⟨m', _, he⟩ := FileSystem.resolve_append hp
  rw [he] at h
  have of_kindAt {kind : FileKind} (hk : fs.kindAt (parent ++ [name]) = some kind) :
      ∃ entry ∈ fs.entries.rows, entry.name = name := by
    obtain ⟨entry, he, hn, _⟩ := FileSystem.exists_entry hk
    exact ⟨entry, List.mem_of_mem_filter he, hn⟩
  rcases FileSystem.resolve_cons_cases h with ⟨hc, _⟩ | ⟨_, _, hc, hk, _⟩ | ⟨_, _, _, _, hc, hk⟩
  · cases hc
  · cases hc
    exact of_kindAt hk
  · cases hc
    exact of_kindAt hk

theorem isName_of_canonicalize (hc : fs.canonicalize buf = some path) :
    ∀ name, .normal name ∈ buf.components → PathBuf.IsName name := by
  intro name hm
  obtain ⟨entry, he, rfl⟩ := exists_entry_of_resolve hc name hm
  exact fs.names entry he

section Spelled

open PathBuf (IsWord ofName)

-- Components that are written down as they are.
theorem exists_words {components : List Component}
    (hn : ∀ name, .normal name ∈ components → PathBuf.IsName name)
    (ht : ∀ name, .normal name ∈ components → IsText name) :
    ∃ texts : List Str, components = texts.map ofName ∧ ∀ text ∈ texts, IsWord text ∧
      '\\' ∉ text := by
  induction components
  case nil => exact ⟨[], rfl, fun _ hm => absurd hm List.not_mem_nil⟩
  case cons component components hi =>
    obtain ⟨texts, rfl, hw⟩ := hi (fun name hm => hn name (List.mem_cons_of_mem _ hm))
      fun name hm => ht name (List.mem_cons_of_mem _ hm)
    cases component
    case parent =>
      exact ⟨['.', '.'] :: texts, rfl,
        List.forall_mem_cons.mpr ⟨⟨⟨by decide, by decide, by decide⟩, by decide⟩, hw⟩⟩
    case normal name =>
      obtain ⟨text, rfl, hb⟩ := ht name List.mem_cons_self
      have hname := hn _ List.mem_cons_self
      exact ⟨text :: texts, by rw [List.map_cons, hname.ofName_eq],
        List.forall_mem_cons.mpr ⟨⟨hname.isWord, hb⟩, hw⟩⟩

theorem mem_of_mem_intercalate {texts : List Str} {c : Char} (h : c ∈ ['/'].intercalate texts) :
    c = '/' ∨ ∃ text ∈ texts, c ∈ text := by
  induction texts
  case nil => cases h
  case cons text texts hi =>
    cases texts
    case nil =>
      rw [List.intercalate_singleton] at h
      exact .inr ⟨text, List.mem_cons_self, h⟩
    case cons =>
      rw [List.intercalate_cons_cons, List.mem_append, List.mem_append, List.mem_singleton] at h
      rcases h with (h | h) | h
      · exact .inr ⟨text, List.mem_cons_self, h⟩
      · exact .inl h
      · exact (hi h).imp_right fun ⟨text', hm, hc⟩ => ⟨text', List.mem_cons_of_mem _ hm, hc⟩

theorem replace_eq_self {texts : List Str} {lead : Str} (hl : '\\' ∉ lead)
    (h : ∀ text ∈ texts, '\\' ∉ text) :
    (lead ++ ['/'].intercalate texts).map (fun c => if c = '\\' then '/' else c) = lead ++
      ['/'].intercalate texts := by
  refine (List.map_congr_left fun c hm => if_neg ?_).trans (List.map_id _)
  rintro rfl
  rcases List.mem_append.mp hm with hm | hm
  case inl => exact hl hm
  case inr =>
    rcases mem_of_mem_intercalate hm with hs | ⟨text, ht, hm⟩
    · cases hs
    · exact h text ht hm

variable {texts : List Str}

theorem relativePath_of_stripPrefix {whole rest : PathBuf}
    (hs : (whole.stripPrefix (.ofNames dir)).getD whole = rest)
    (hr : rest.components = texts.map ofName) (hw : ∀ text ∈ texts, '\\' ∉ text) :
    relativePath dir whole = (if rest.absolute then ['/'] else []) ++ ['/'].intercalate texts := by
  obtain ⟨absolute, components⟩ := rest
  obtain rfl : components = texts.map ofName := hr
  rw [relativePath, hs, PathBuf.toStringLossy_ofName]
  exact replace_eq_self (by cases absolute <;> decide) hw

-- What is written down for a path that is spelled as it is leads to where the path leads.
theorem Spelled.join (h : Spelled buf dir names) (hne : names ≠ [])
    (hc : fs.canonicalize (buf.joins names) = some path) :
    buf.join (.ofText (relativePath dir (buf.joins names))) = buf.joins names := by
  have hname := isName_of_canonicalize hc
  have htext (name) (hm : Component.normal name ∈ names.map Component.normal) : IsText name := by
    obtain ⟨_, hm, hn⟩ := List.mem_map.mp hm
    cases hn
    exact h.names name hm
  obtain ⟨texts, ht, hw⟩ :=
    exists_words (fun name hm => hname name (List.mem_append_right _ hm)) htext
  have hwords (text) (hm : text ∈ texts) := (hw text hm).left
  have hslash (text) (hm : text ∈ texts) := (hw text hm).right
  have htexts : texts ≠ [] := by
    rintro rfl
    exact hne (List.map_eq_nil_iff.mp ht)
  rcases h.base with hb | hb | ⟨ha, hs, hb⟩
  case inl =>
    have hs : (((PathBuf.ofNames dir).joins names).stripPrefix (.ofNames dir)).getD
        ((PathBuf.ofNames dir).joins names) = ⟨false, names.map .normal⟩ := by
      rw [PathBuf.stripPrefix_joins, Option.getD_some]
    rw [hb, relativePath_of_stripPrefix hs ht hslash, if_neg Bool.false_ne_true, List.nil_append,
      PathBuf.ofText_intercalate htexts hwords, ← ht]
    rfl
  case inr.inl =>
    have hs : ((buf.joins names).stripPrefix (.ofNames dir)).getD (buf.joins names) =
        ⟨false, names.map .normal⟩ := by
      rw [hb]
      rfl
    rw [relativePath_of_stripPrefix hs ht hslash, if_neg Bool.false_ne_true, List.nil_append,
      PathBuf.ofText_intercalate htexts hwords, ← ht, hb]
    rfl
  case inr.inr =>
    obtain ⟨texts', ht', hw'⟩ := exists_words hname fun name hm =>
      (List.mem_append.mp hm).elim (hb name) (htext name)
    have htexts' : texts' ≠ [] := by
      rintro rfl
      exact hne (List.map_eq_nil_iff.mp (List.append_eq_nil_iff.mp ht').right)
    have hs : ((buf.joins names).stripPrefix (.ofNames dir)).getD (buf.joins names) =
        buf.joins names := by
      rw [hs, Option.getD_none]
    have hr := relativePath_of_stripPrefix hs ht' fun text hm => (hw' text hm).right
    have habs : (buf.joins names).absolute = true := ha
    rw [hr, if_pos habs, List.singleton_append,
      PathBuf.ofText_slash_intercalate htexts' fun text hm => (hw' text hm).left, ← ht']
    exact (if_pos rfl).trans (PathBuf.mk.injEq .. ▸ ⟨habs.symm, rfl⟩)

theorem Spelled.writtenFor (h : Spelled buf dir names) (hne : names ≠ [])
    (hc : fs.canonicalize (buf.joins names) = some path) : WrittenFor fs buf dir names path := by
  rw [WrittenFor, h.join hne hc, hc]

end Spelled

section Stops

variable {stack : List Pending} {entries out : List Str} {fuel : Nat} {e : WalkError}
  {start : Pending}

-- Only a link can stop the walk among the entries of a directory.
theorem refused_of_visitEntry (ht : Tracked fs buf base item names dir)
    (he : entry ∈ fs.children dir) (h : visitEntry fs context base item walk entry = .error e) :
    Refused fs buf base names entry := by
  rw [visitEntry] at h
  cases hk : entry.kind
  case dir =>
    have hv := visits_real ht.resolves ht.inside he (hk ▸ trivial)
    simp only [hk, hv.resolves] at h
    cases h
  case file | other =>
    simp only [hk] at h
    cases h
  case symlink target =>
    refine ⟨hk ▸ id, fun path hp => ?_⟩
    rw [← ht.joins] at hp
    simp only [hk, hp] at h
    split at h
    case isTrue hn  => exact .inl hn
    case isFalse    =>
      split at h
      case h_1 hd =>
        split at h
        case isTrue hm => exact .inr ⟨hd, (ht.ancestry path).mp hm⟩
        case isFalse   => cases h
      case h_2 => cases h
      case h_3 => cases h

theorem exists_of_foldlM_error {found : List DirEntry}
    (h : found.foldlM (visitEntry fs context base item) walk = .error e) :
    ∃ entry ∈ found, ∃ walk, visitEntry fs context base item walk entry = .error e := by
  induction found generalizing walk
  case nil => cases h
  case cons entry found hi =>
    rw [List.foldlM_cons] at h
    cases hv : visitEntry fs context base item walk entry
    case error e' =>
      rw [hv] at h
      cases h
      exact ⟨entry, List.mem_cons_self, walk, hv⟩
    case ok walk' =>
      rw [hv] at h
      obtain ⟨entry', hm, hw⟩ := hi h
      exact ⟨entry', List.mem_cons_of_mem _ hm, hw⟩

theorem stops_of_visit (ht : Tracked fs buf base item names dir)
    (h : visit fs context base item walk = .error e) : Stops fs buf base := by
  refine ⟨names, dir, ht.path ▸ ht.resolves, ht.isDir, ?_⟩
  by_cases hr : fs.readable dir
  case neg => exact .inl hr
  case pos =>
    rw [visit, FileSystem.readDir, ht.resolves, Option.bind_some, if_pos ⟨ht.isDir, hr⟩] at h
    obtain ⟨entry, he, _, hv⟩ := exists_of_foldlM_error h
    exact .inr ⟨entry, he, refused_of_visitEntry ht he hv⟩

theorem stops_of_walkFrom (ht : AllTracked fs buf base stack)
    (h : walkFrom fs context base fuel ⟨stack, entries⟩ = some (.error e)) : Stops fs buf base := by
  induction fuel generalizing stack entries
  case zero => cases stack <;> cases h
  case succ fuel hi =>
    cases stack
    case nil             => cases h
    case cons item stack =>
      rw [AllTracked, List.forall_mem_cons] at ht
      obtain ⟨⟨names, dir, hitem⟩, ht⟩ := ht
      rw [walkFrom] at h
      split at h
      case h_1 hv => exact stops_of_visit hitem hv
      case h_2 hv => exact hi (allTracked_of_visit hitem ht hv) h

-- A walk that comes to its end has met nothing of the kind.
theorem not_stops_of_reads (hr : Reads fs context buf base out start)
    (ht : Tracked fs buf base start [] base) : ¬Stops fs buf base := by
  rintro ⟨names, parent, hc, hd, hs⟩
  obtain ⟨item, hreads, htracked⟩ := reads_of_canonicalize hr ht hc hd
  obtain ⟨hreadable, hvisits⟩ := hreads.visits htracked
  rcases hs with hn | ⟨entry, he, hreal, hrefused⟩
  case inl => exact hn hreadable
  case inr =>
    obtain ⟨path, kind, hv, _⟩ := hvisits entry he
    rcases hrefused path (htracked.joins entry.name ▸ hv.resolves) with hn | ⟨hk, hway⟩
    · exact hn hv.inside
    · exact hv.acyclic hreal (Option.some_inj.mp (hv.kindAt.symm.trans hk))
        ((htracked.ancestry path).mpr hway)

end Stops

section Listing

variable {out : List Str} {start : Pending}

-- Every file below the base is listed with what is written down for it.
theorem mem_of_fileAt (hr : Reads fs context buf base out start)
    (ht : Tracked fs buf base start [] base) (h : FileAt fs buf names) :
    relativePath base (buf.joins names) ∈ out := by
  obtain ⟨hne, path, hc, hk⟩ := h
  obtain ⟨front, name, rfl⟩ := List.eq_nil_or_concat' names |>.resolve_left hne
  obtain ⟨parent, hp⟩ := FileSystem.canonicalize_front hc
  have hc' := hc
  rw [← PathBuf.joins_joins] at hc'
  obtain ⟨entry, he, rfl⟩ := FileSystem.exists_child hp hc'
  obtain ⟨item, hreads, htracked⟩ :=
    reads_of_canonicalize hr ht hp (FileSystem.kindAt_parent (FileSystem.kindAt_child he))
  obtain ⟨path', kind, hv, _, hlisted⟩ := (hreads.visits htracked).right entry he
  have hres := hv.resolves
  rw [htracked.joins, hc, Option.some_inj] at hres
  subst hres
  have hm := hlisted (Option.some_inj.mp (hv.kindAt.symm.trans hk))
  rwa [Pending.relative, htracked.joins] at hm

theorem fileAt_of_kindAt (hb : fs.canonicalize buf = some base) (hd : fs.kindAt base = some .dir)
    (hk : fs.kindAt (base ++ names) = some .file) : FileAt fs buf names := by
  refine ⟨?_, _, canonicalize_real hb hk trivial, hk⟩
  rintro rfl
  rw [List.append_nil, hd] at hk
  cases hk

theorem listing_of_reads (hn : Named fs buf base) (hb : fs.canonicalize buf = some base)
    (hr : Reads fs context buf base out start) (ht : Tracked fs buf base start [] base)
    (hl : ∀ text ∈ out, IsListed fs buf base text) : Listing fs buf base out := by
  have visits {names parent} (hc : fs.canonicalize (buf.joins names) = some parent) {entry}
      (he : entry ∈ fs.children parent) :
      ∃ item path kind, Tracked fs buf base item names parent ∧
        Visits fs base parent item entry path kind ∧
        fs.canonicalize (buf.joins (names ++ [entry.name])) = some path := by
    obtain ⟨item, hreads, htracked⟩ :=
      reads_of_canonicalize hr ht hc (FileSystem.kindAt_parent (FileSystem.kindAt_child he))
    obtain ⟨path, kind, hv, _⟩ := (hreads.visits htracked).right entry he
    exact ⟨item, path, kind, htracked, hv, htracked.joins entry.name ▸ hv.resolves⟩
  constructor
  case resolves =>
    intro text hm
    obtain ⟨names, path, hne, hc, hk, hin, rfl⟩ := hl text hm
    rcases hn.resolves names ⟨hne, path, hc, hk⟩ with hs | ⟨path', hw, hk', hin'⟩
    · exact ⟨path, hs.writtenFor hne hc, hk, hin⟩
    · exact ⟨path', hw, hk', hin'⟩
  case lists =>
    intro names hk
    have hf := fileAt_of_kindAt hb ht.isDir hk
    rcases hn.lists names hk with hs | ⟨names', hf', hw⟩
    · exact ⟨_, mem_of_fileAt hr ht hf, hs.writtenFor hf.left (canonicalize_real hb hk trivial)⟩
    · exact ⟨_, mem_of_fileAt hr ht hf', hw⟩
  case contained =>
    intro names parent hc entry he target hk
    obtain ⟨_, path, _, _, hv, hres⟩ := visits hc he
    exact ⟨path, hres, hv.inside⟩
  case acyclic =>
    intro names parent hc entry he target hk path hpath hd k hle hcycle
    obtain ⟨item, path', kind, htracked, hv, hres⟩ := visits hc he
    rw [hpath, Option.some_inj] at hres
    subst hres
    have hreal : ¬entry.kind.IsReal := by
      rw [hk]
      exact id
    exact hv.acyclic hreal (Option.some_inj.mp (hv.kindAt.symm.trans hd))
      ((htracked.ancestry path).mpr ⟨k, hle, hcycle⟩)

theorem named_of_listing (hr : Reads fs context buf base out start)
    (ht : Tracked fs buf base start [] base) (hl : ∀ text ∈ out, IsListed fs buf base text)
    (h : Listing fs buf base out) : Named fs buf base where
  resolves names hf := .inr (h.resolves _ (mem_of_fileAt hr ht hf))
  lists names hk := by
    obtain ⟨text, hm, hw⟩ := h.lists names hk
    obtain ⟨names', path, hne, hc, hk', _, rfl⟩ := hl text hm
    exact .inr ⟨names', ⟨hne, path, hc, hk'⟩, hw⟩

end Listing

section Walks

variable {fuel : Nat} {result : Except WalkError (List Str)}

-- The directory of the base is the first one on the stack.
theorem tracked_start (hc : fs.canonicalize buf = some dir) (hd : fs.kindAt dir = some .dir) :
    Tracked fs buf dir ⟨buf, [dir]⟩ [] dir := by
  refine ⟨PathBuf.joins_nil.symm, hc, hd, List.prefix_rfl, fun path => ?_⟩
  simp only [List.mem_singleton, List.take_nil, PathBuf.joins_nil, hc, Option.some_inj, eq_comm]
  exact ⟨fun h => ⟨0, Nat.zero_le _, h⟩, fun ⟨_, _, h⟩ => h⟩

theorem allTracked_start (hc : fs.canonicalize buf = some dir) (hd : fs.kindAt dir = some .dir) :
    AllTracked fs buf dir [⟨buf, [dir]⟩] :=
  List.forall_mem_singleton.mpr ⟨[], dir, tracked_start hc hd⟩

theorem collectEntriesCtx_dir (hc : fs.canonicalize buf = some dir)
    (hd : fs.kindAt dir = some .dir) :
    collectEntriesCtx fs context buf buf fuel =
      walkFrom fs context dir fuel ⟨[⟨buf, [dir]⟩], []⟩ := by
  rw [collectEntriesCtx, hc]
  exact if_neg (not_not.mpr hd)

theorem exists_collectEntriesCtx (fs : FileSystem) (context : Str) (buf : PathBuf) :
    ∃ fuel result, collectEntriesCtx fs context buf buf fuel = some result := by
  cases hc : fs.canonicalize buf
  case none => exact ⟨0, .ok [], by rw [collectEntriesCtx, hc]⟩
  case some dir =>
    by_cases hd : fs.kindAt dir = some .dir
    case neg => exact ⟨0, .ok [], by rw [collectEntriesCtx, hc]; exact if_pos hd⟩
    case pos =>
      obtain ⟨fuel, result, hr⟩ := ends_of_allTracked context (allTracked_start hc hd) []
      exact ⟨fuel, result, (collectEntriesCtx_dir hc hd).trans hr⟩

-- A walk with a list of entries has read what it lists.
theorem reads_start {entries : List Str} (hc : fs.canonicalize buf = some dir)
    (hd : fs.kindAt dir = some .dir)
    (h : collectEntriesCtx fs context buf buf fuel = some (.ok entries)) :
    Reads fs context buf dir entries ⟨buf, [dir]⟩ ∧ ∀ text ∈ entries, IsListed fs buf dir text := by
  rw [collectEntriesCtx_dir hc hd] at h
  have hall := allTracked_start hc hd
  exact ⟨⟨fuel, _, [], h, hall, List.mem_singleton_self _⟩,
    isListed_of_mem hall (fun _ hm => absurd hm List.not_mem_nil) h⟩

end Walks

-- The condition holds where the base is canonical or the working directory, and no name that exists
-- has a backslash or is no text.
theorem plain_of_entries
    (hb : ∀ dir, fs.canonicalize buf = some dir → buf = .ofNames dir ∨ buf = ⟨false, []⟩)
    (h : ∀ entry ∈ fs.entries.rows, entry.name = Utf8.encode (Utf8.fromUtf8Lossy entry.name) ∧
      '\\' ∉ Utf8.fromUtf8Lossy entry.name) : Plain fs buf := by
  intro dir hc hd
  have spelled {names path} (hp : fs.canonicalize (buf.joins names) = some path) :
      Spelled buf dir names := by
    refine ⟨(hb dir hc).imp_right .inl, fun name hm => ?_⟩
    obtain ⟨entry, he, rfl⟩ :=
      exists_entry_of_resolve hp name (List.mem_append_right _ (List.mem_map_of_mem hm))
    exact ⟨_, h entry he⟩
  exact .inr ⟨fun names ⟨_, _, hp, _⟩ => .inl (spelled hp),
    fun names hk => .inl (spelled (canonicalize_real hc hk trivial))⟩

-- The viewer below an output directory, where `vendor` links to `lib`.
def sampleFileSystem : FileSystem where
  entries  := {
    rows := [
      ⟨[], Utf8.encode "out".toList, .dir⟩,
      ⟨[Utf8.encode "out".toList], Utf8.encode "viewer".toList, .dir⟩,
      ⟨[Utf8.encode "out".toList, Utf8.encode "viewer".toList], Utf8.encode "app.js".toList, .file⟩,
      ⟨[Utf8.encode "out".toList, Utf8.encode "viewer".toList], Utf8.encode "vendor".toList,
        .symlink ⟨false, [.normal (Utf8.encode "lib".toList)]⟩⟩,
      ⟨[Utf8.encode "out".toList, Utf8.encode "viewer".toList], Utf8.encode "lib".toList, .dir⟩,
      ⟨[Utf8.encode "out".toList, Utf8.encode "viewer".toList, Utf8.encode "lib".toList],
        Utf8.encode "a.js".toList, .file⟩]
    nodup := by decide +kernel }
  parents  := by decide +kernel
  names    := by decide +kernel
  cwd      := [Utf8.encode "out".toList]
  isDir    := by decide +kernel
  readable := fun _ => true
  maxLinks := 40

def sampleViewer : PathBuf :=
  .ofNames [Utf8.encode "out".toList, Utf8.encode "viewer".toList]

end Share
