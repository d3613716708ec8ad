import AgentMail.Lib.MultiMap
import AgentMail.Pattern.Basic
import Mathlib.Data.Char
import Mathlib.Data.List.Lex

open Pattern (Str)

namespace CommitTree

-- The file modes are left out: `build_tree_with_updates` writes the same two for all files and
-- directories.
inductive Entry (β : Type)
  | blob (oid : β)
  | tree (entries : List (Str × Entry β))

-- A tree object, as the map from names to entries that a `TreeBuilder` holds.
abbrev Tree (β : Type) : Type :=
  List (Str × Entry β)

abbrev Update (β : Type) : Type :=
  Str × Option β

variable {β : Type}

namespace Tree

def insert (t : Tree β) (name : Str) (e : Entry β) : Tree β :=
  (name, e) :: t.filter (·.1 ≠ name)

def remove (t : Tree β) (name : Str) : Tree β :=
  t.filter (·.1 ≠ name)

-- `get_name(name)`, which is only of interest if it is a tree
def subTree? (t : Tree β) (name : Str) : Option (Tree β) :=
  match t.lookup name with
  | some (.tree entries) => some entries
  | _                    => none

end Tree

-- The part before and the part after the first `/`.
def splitSlash : Str → Option (Str × Str)
  | []      => none
  | c :: cs =>
    if c = '/' then
      some ([], cs)
    else
      (splitSlash cs).map fun p => (c :: p.1, p.2)

theorem splitSlash_length {path name rest : Str} (h : splitSlash path = some (name, rest)) :
    rest.length < path.length := by
  induction path generalizing name rest
  case nil => simp [splitSlash] at h
  case cons c cs hi =>
    rw [splitSlash] at h
    split at h
    case isTrue =>
      injection h with h
      injection h with _ h
      simp [h]
    case isFalse =>
      have ⟨p, hp, he⟩ := Option.map_eq_some_iff.mp h
      injection he with _ he
      exact he ▸ Nat.lt_succ_of_lt (hi hp)

def directEntries (updates : List (Update β)) : List (Update β) :=
  updates.filter fun u => (splitSlash u.1).isNone

def byPrefix (updates : List (Update β)) : MultiMap Str (Update β) :=
  updates.foldl (fun m u =>
    match splitSlash u.1 with
    | some (name, rest) => m.push name (rest, u.2)
    | none              => m) .empty

def applyDirect (t : Tree β) (u : Update β) : Tree β :=
  match u.2 with
  | some oid => t.insert u.1 (.blob oid)
  | none     => t.remove u.1

-- The order in which a hash map is iterated over.
structure HashOrder (α : Type) where
  iter : List α → List α
  perm : ∀ l, (iter l).Perm l

-- The updates below a name, with the rest of their paths.
def below (name : Str) (u : Update β) : Option (Update β) :=
  match splitSlash u.1 with
  | some (n, rest) => if n = name then some (rest, u.2) else none
  | none           => none

def totalLength (updates : List (Update β)) : Nat :=
  (updates.map (·.1.length)).sum

theorem byPrefix_entries {updates : List (Update β)} {name : Str} {sub : List (Update β)} :
    (name, sub) ∈ (byPrefix updates).entries ↔ sub = updates.filterMap (below name) ∧ sub ≠ [] := by
  have h (m : MultiMap Str (Update β)) (hm : m.NoEmpty) :
      let m' := updates.foldl (fun m u =>
        match splitSlash u.1 with
        | some (name, rest) => m.push name (rest, u.2)
        | none              => m) m
      m'.NoEmpty ∧ m'.get name = m.get name ++ updates.filterMap (below name) := by
    induction updates generalizing m
    case nil => simpa using hm
    case cons u us hi =>
      rw [List.foldl_cons, List.filterMap_cons, below]
      match splitSlash u.1 with
      | none           => exact hi m hm
      | some (n, rest) =>
        have ⟨he, hg⟩ := hi (m.push n (rest, u.2)) (hm.push n (rest, u.2))
        refine ⟨he, hg.trans ?_⟩
        rw [MultiMap.get_push]
        by_cases hn : n = name
        case pos => simp [hn]
        case neg => simp [hn, Ne.symm hn]
  have ⟨he, hg⟩ := h .empty fun _ h => nomatch h
  rw [byPrefix, he.mem_entries_iff, hg]
  simp [MultiMap.empty, MultiMap.get]

theorem totalLength_below {updates : List (Update β)} {name : Str}
    (h : updates.filterMap (below name) ≠ []) :
    totalLength (updates.filterMap <| below name) < totalLength updates := by
  have hs {u u' : Update β} (h : below name u = some u') : u'.1.length < u.1.length := by
    rw [below] at h
    split at h
    case h_1 n rest hp =>
      split at h
      case isTrue  => exact (Option.some.inj h) ▸ splitSlash_length hp
      case isFalse => contradiction
    case h_2 => contradiction
  have hle (us : List (Update β)) : totalLength (us.filterMap <| below name) ≤ totalLength us := by
    induction us
    case nil => rfl
    case cons u us hi =>
      rw [List.filterMap_cons]
      split
      case h_1 => exact hi.trans (Nat.le_add_left ..)
      case h_2 u' hu => exact Nat.add_le_add (hs hu).le hi
  induction updates
  case nil => contradiction
  case cons u us hi =>
    rw [List.filterMap_cons] at h ⊢
    split at h
    case h_1 hu => exact (hi h).trans_le (Nat.le_add_left ..)
    case h_2 u' hu => exact Nat.add_lt_add_of_lt_of_le (hs hu) (hle us)

-- The order is the one in which the hash map of the groups is iterated over.
def buildTreeWithUpdates (order : HashOrder (Str × List (Update β))) (base : Option (Tree β))
    (updates : List (Update β)) : Tree β :=
  let t := (directEntries updates).foldl applyDirect (base.getD [])
  (order.iter (byPrefix updates).entries).attach.foldl (fun t group =>
    let sub := buildTreeWithUpdates order (base.bind (·.subTree? group.val.1)) group.val.2
    t.insert group.val.1 (.tree sub)) t
termination_by totalLength updates
decreasing_by
  have ⟨h, hn⟩ := byPrefix_entries.mp ((order.perm _).mem_iff.mp group.property)
  rw [h] at hn ⊢
  exact totalLength_below hn

inductive Kind (β : Type)
  | file (oid : β)
  | dir
  deriving DecidableEq

namespace Entry

def kind : Entry β → Kind β
  | blob oid => .file oid
  | tree _   => .dir

def find (e : Entry β) : List Str → Option (Entry β)
  | []            => some e
  | name :: names =>
    match e with
    | blob _       => none
    | tree entries => (entries.lookup name).bind (·.find names)

def kindAt (e : Entry β) (path : List Str) : Option (Kind β) :=
  (e.find path).map kind

end Entry

def root (base : Option (Tree β)) : Entry β :=
  .tree (base.getD [])

def components (path : Str) : List Str :=
  path.splitOn '/'

-- The blobs of the index by their paths.
abbrev Index (β : Type) : Type :=
  List Str → Option β

namespace Index

def ofTree (e : Entry β) : Index β :=
  fun path =>
    match e.find path with
    | some (.blob oid) => some oid
    | _                => none

-- Adding a path removes the directory in its place as well as the files in the places of its
-- directories.
def addPath (index : Index β) (path : List Str) (oid : β) : Index β :=
  fun p => if p = path then some oid else if p <+: path ∨ path <+: p then none else index p

def removePath (index : Index β) (path : List Str) : Index β :=
  fun p => if p = path then none else index p

def apply (index : Index β) (u : Update β) : Index β :=
  match u.2 with
  | some oid => index.addPath (components u.1) oid
  | none     => index.removePath (components u.1)

-- What `write_tree` writes: the files of the index and the directories above them.
def WritesTree (index : Index β) (t : Tree β) : Prop :=
  ∀ path, path ≠ [] →
    (∀ oid, (Entry.tree t).kindAt path = some (.file oid) ↔ index path = some oid) ∧
    ((Entry.tree t).kindAt path = some .dir ↔ ∃ p, path <+: p ∧ p ≠ path ∧ index p ≠ none)

end Index

-- The index that `commit_paths` writes the tree of.
def commitPaths (base : Option (Tree β)) (updates : List (Update β)) : Index β :=
  updates.foldl .apply (.ofTree <| root base)

def parsed (updates : List (Update β)) : List (List Str × Option β) :=
  updates.map fun u => (components u.1, u.2)

section Updates

variable (ups : List (List Str × Option β))

-- No update path is a directory above another one.
def NoPrefix : Prop :=
  ∀ u ∈ ups, ∀ u' ∈ ups, u.1 <+: u'.1 → u.1 = u'.1

def lastUpdate : List (List Str × Option β) → List Str → Option (Option β)
  | [], _              => none
  | (p, o) :: us, path => (lastUpdate us path).or (if p = path then some o else none)

def AtOrBelowUpdate (path : List Str) : Prop :=
  ∃ u ∈ ups, u.1 <+: path

def AboveUpdate (path : List Str) : Prop :=
  ∃ u ∈ ups, path <+: u.1 ∧ path ≠ u.1

-- Above a path with a blob.
def AboveSome (path : List Str) : Prop :=
  ∃ p oid, lastUpdate ups p = some (some oid) ∧ path <+: p ∧ path ≠ p

end Updates

def Entry.EmptyDir (e : Entry β) (path : List Str) : Prop :=
  e.kindAt path = some .dir ∧ ∀ p, path <+: p → p ≠ path → e.kindAt p = none

-- The files of `result` are those of `base` with the updates applied, and no directory was emptied.
structure Applied (ups : List (List Str × Option β)) (base result : Entry β) : Prop where
  some_holds   : ∀ path oid, lastUpdate ups path = some (some oid) →
    result.kindAt path = some (.file oid)
  none_absent  : ∀ path, lastUpdate ups path = some none → result.kindAt path = none
  unchanged    : ∀ path oid, base.kindAt path = some (.file oid) → ¬AtOrBelowUpdate ups path →
    ¬AboveSome ups path → result.kindAt path = some (.file oid)
  no_others    : ∀ path oid, result.kindAt path = some (.file oid) →
    lastUpdate ups path = some (some oid) ∨
    base.kindAt path = some (.file oid) ∧ ¬AtOrBelowUpdate ups path ∧ ¬AboveSome ups path
  none_emptied : ∀ path, path ≠ [] → result.EmptyDir path → base.EmptyDir path

-- The updates delete entries of the directory, and leave it none.
def Emptied (ups : List (List Str × Option β)) (base : Entry β) (path : List Str) : Prop :=
  AboveUpdate ups path ∧
  (∀ u ∈ ups, path <+: u.1 → u.1.length = path.length + 1 ∧ lastUpdate ups u.1 = some none) ∧
  ∀ p, path <+: p → p ≠ path → base.kindAt p ≠ none → AtOrBelowUpdate ups p

def EmptiesNothing (ups : List (List Str × Option β)) (base : Entry β) : Prop :=
  ∀ path, path ≠ [] → Emptied ups base path → base.EmptyDir path

-- A file of the base tree that the index keeps: no update path, and not in the way of an added
-- path.
def KeptFile (ups : List (List Str × Option β)) (base : Entry β) (path : List Str) : Prop :=
  (∃ oid, base.kindAt path = some (.file oid)) ∧ (∀ u ∈ ups, u.1 ≠ path) ∧
  ∀ u ∈ ups, u.2.isSome → ¬u.1 <+: path ∧ ¬path <+: u.1

structure LikeIndex (ups : List (List Str × Option β)) (base : Entry β) : Prop where
  -- The directories above an update path are left with a file.
  above     : ∀ path, path ≠ [] → AboveUpdate ups path → AboveSome ups path ∨
    ∃ p, path <+: p ∧ p ≠ path ∧ KeptFile ups base p
  -- A path that is only deleted is no directory with files.
  deleted   : ∀ u ∈ ups, (∀ u' ∈ ups, u'.1 = u.1 → u'.2 = none) → ∀ p oid, u.1 <+: p → p ≠ u.1 →
    base.kindAt p ≠ some (.file oid)
  -- The other directories of the base tree have files.
  unrelated : ∀ path, path ≠ [] → base.kindAt path = some .dir → ¬AtOrBelowUpdate ups path →
    ¬AboveUpdate ups path → ∃ p oid, path <+: p ∧ base.kindAt p = some (.file oid)

end CommitTree
