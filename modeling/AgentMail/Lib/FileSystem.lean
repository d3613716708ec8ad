import AgentMail.Lib.Table
import AgentMail.Lib.Utf8
import Mathlib.Data.List.Induction

-- File systems with symbolic links, and what paths lead to.

abbrev FileName := List UInt8

inductive Component
  | parent
  | normal (name : FileName)
  deriving DecidableEq

structure PathBuf where
  absolute   : Bool
  components : List Component
  deriving DecidableEq

namespace PathBuf

-- The path of what lies at the end of the given names.
def ofNames (names : List FileName) : PathBuf where
  absolute   := true
  components := names.map .normal

def joins (path : PathBuf) (names : List FileName) : PathBuf :=
  { path with components := path.components ++ names.map .normal }

def join (path other : PathBuf) : PathBuf :=
  if other.absolute then other else { path with components := path.components ++ other.components }

def stripPrefix (path base : PathBuf) : Option PathBuf :=
  if path.absolute = base.absolute ∧ base.components <+: path.components then
    some { absolute := false, components := path.components.drop base.components.length }
  else
    none

def slash : UInt8 :=
  0x2F

def bytesOf : Component → List UInt8
  | .parent      => [0x2E, 0x2E]
  | .normal name => name

def bytes (path : PathBuf) : List UInt8 :=
  (if path.absolute then [slash] else []) ++ [slash].intercalate (path.components.map bytesOf)

-- `to_string_lossy`
def toStringLossy (path : PathBuf) : List Char :=
  Utf8.fromUtf8Lossy path.bytes

def ofName (s : List Char) : Component :=
  if s = ['.', '.'] then .parent else .normal (Utf8.encode s)

-- `Path::new`, which skips empty names and those of the directory itself.
def ofText (text : List Char) : PathBuf where
  absolute   := text.head? = some '/'
  components := ((text.splitOn '/').filter fun s => s ≠ [] ∧ s ≠ ['.']).map ofName

theorem joins_joins {path : PathBuf} {names names' : List FileName} :
    (path.joins names).joins names' = path.joins (names ++ names') := by
  simp only [joins, List.map_append, List.append_assoc]

theorem joins_nil {path : PathBuf} : path.joins [] = path := by
  simp only [joins, List.map_nil, List.append_nil]

theorem stripPrefix_joins {dir names : List FileName} :
    ((ofNames dir).joins names).stripPrefix (ofNames dir) = some ⟨false, names.map .normal⟩ := by
  rw [stripPrefix, if_pos ⟨rfl, List.prefix_append ..⟩]
  simp only [joins, ofNames, List.drop_left]

-- A name that a directory may hold.
structure IsName (name : FileName) : Prop where
  ne_nil     : name ≠ []
  ne_self    : name ≠ [0x2E]
  ne_parent  : name ≠ [0x2E, 0x2E]
  slash_free : slash ∉ name

instance (name : FileName) : Decidable (IsName name) :=
  decidable_of_iff (name ≠ [] ∧ name ≠ [0x2E] ∧ name ≠ [0x2E, 0x2E] ∧ slash ∉ name)
    ⟨fun ⟨hn, hs, hp, hf⟩ => ⟨hn, hs, hp, hf⟩,
      fun h => ⟨h.ne_nil, h.ne_self, h.ne_parent, h.slash_free⟩⟩

section Text

variable {texts : List (List Char)} {text : List Char}

theorem encode_intercalate (texts : List (List Char)) :
    Utf8.encode (['/'].intercalate texts) = [slash].intercalate (texts.map Utf8.encode) := by
  induction texts
  case nil => rfl
  case cons text texts hi =>
    cases texts
    case nil => simp
    case cons =>
      rw [List.intercalate_cons_cons, List.map_cons, List.map_cons, List.intercalate_cons_cons,
        ← List.map_cons, ← hi]
      simp only [Utf8.encode, List.flatMap_append]
      rfl

theorem bytesOf_ofName : bytesOf (ofName text) = Utf8.encode text := by
  rw [ofName]
  split
  case isTrue h  => exact h ▸ by decide
  case isFalse   => rfl

-- Names that are texts are read as they are.
theorem toStringLossy_ofName {absolute : Bool} :
    (PathBuf.mk absolute (texts.map ofName)).toStringLossy =
      (if absolute then ['/'] else []) ++ ['/'].intercalate texts := by
  have hc : bytesOf ∘ ofName = Utf8.encode := funext fun _ => bytesOf_ofName
  have hb : (PathBuf.mk absolute (texts.map ofName)).bytes =
      Utf8.encode ((if absolute then ['/'] else []) ++ ['/'].intercalate texts) := by
    rw [Utf8.encode, List.flatMap_append, ← Utf8.encode, ← Utf8.encode, encode_intercalate]
    simp only [bytes, List.map_map, hc]
    cases absolute <;> rfl
  rw [toStringLossy, hb, Utf8.fromUtf8Lossy_encode]

-- A text that stands for a component of a path.
structure IsWord (text : List Char) : Prop where
  ne_nil     : text ≠ []
  ne_self    : text ≠ ['.']
  slash_free : '/' ∉ text

theorem IsName.of_encode (h : IsName (Utf8.encode text)) : text ≠ [] ∧ text ≠ ['.'] ∧
    text ≠ ['.', '.'] ∧ '/' ∉ text := by
  refine ⟨?_, ?_, ?_, fun hm => h.slash_free ?_⟩
  · rintro rfl
    exact h.ne_nil rfl
  · rintro rfl
    exact h.ne_self (by decide)
  · rintro rfl
    exact h.ne_parent (by decide)
  · exact List.mem_flatMap.mpr ⟨'/', hm, by decide⟩

theorem IsName.isWord (h : IsName (Utf8.encode text)) : IsWord text :=
  ⟨h.of_encode.left, h.of_encode.right.left, h.of_encode.right.right.right⟩

theorem IsName.ofName_eq (h : IsName (Utf8.encode text)) :
    ofName text = .normal (Utf8.encode text) :=
  if_neg h.of_encode.right.right.left

theorem components_ofText (hn : texts ≠ []) (h : ∀ text ∈ texts, IsWord text) :
    (ofText (['/'].intercalate texts)).components = texts.map ofName ∧
      (ofText ('/' :: ['/'].intercalate texts)).components = texts.map ofName := by
  have hsplit : (['/'].intercalate texts).splitOn '/' = texts :=
    List.splitOn_intercalate '/' (fun text hm => (h text hm).slash_free) hn
  have hfilter : (texts.filter fun s => decide (s ≠ [] ∧ s ≠ ['.'])) = texts :=
    List.filter_eq_self.mpr fun text hm => decide_eq_true ⟨(h text hm).ne_nil, (h text hm).ne_self⟩
  constructor
  · rw [ofText, hsplit, hfilter]
  · rw [ofText, List.splitOn_cons_eq_if_modifyHead, if_pos (beq_self_eq_true '/'), hsplit,
      List.filter_cons_of_neg (by simp), hfilter]

theorem head?_intercalate (h : ∀ text ∈ texts, IsWord text) :
    (['/'].intercalate texts).head? ≠ some '/' := by
  cases texts
  case nil => simp
  case cons text texts =>
    have hw := h text List.mem_cons_self
    cases text
    case nil => exact absurd rfl hw.ne_nil
    case cons c text =>
      have hc : c ≠ '/' := fun he => hw.slash_free (he ▸ List.mem_cons_self)
      cases texts <;> simp [List.intercalate_cons_cons, hc]

theorem ofText_intercalate (hn : texts ≠ []) (h : ∀ text ∈ texts, IsWord text) :
    ofText (['/'].intercalate texts) = ⟨false, texts.map ofName⟩ :=
  PathBuf.mk.injEq .. ▸ ⟨decide_eq_false (head?_intercalate h), (components_ofText hn h).left⟩

theorem ofText_slash_intercalate (hn : texts ≠ []) (h : ∀ text ∈ texts, IsWord text) :
    ofText ('/' :: ['/'].intercalate texts) = ⟨true, texts.map ofName⟩ :=
  PathBuf.mk.injEq .. ▸ ⟨decide_eq_true rfl, (components_ofText hn h).right⟩

end Text

end PathBuf

inductive FileKind
  | dir
  | file
  | symlink (target : PathBuf)
  | other
  deriving DecidableEq

def FileKind.IsReal : FileKind → Prop
  | symlink _            => False
  | dir | file | other   => True

structure DirEntry where
  parent : List FileName
  name   : FileName
  kind   : FileKind
  deriving DecidableEq

def DirEntry.path (entry : DirEntry) : List FileName :=
  entry.parent ++ [entry.name]

def IsDir (entries : Table DirEntry.path) (path : List FileName) : Prop :=
  path = [] ∨ (entries.get? path).map DirEntry.kind = some .dir

instance (entries : Table DirEntry.path) (path : List FileName) : Decidable (IsDir entries path) :=
  inferInstanceAs (Decidable (_ ∨ _))

-- All that lies below the root, and how a process sees it: its working directory, the directories
-- that it may read, and how many links a path may lead through.
structure FileSystem where
  entries  : Table DirEntry.path
  parents  : ∀ entry ∈ entries.rows, IsDir entries entry.parent
  names    : ∀ entry ∈ entries.rows, PathBuf.IsName entry.name
  cwd      : List FileName
  isDir    : IsDir entries cwd
  readable : List FileName → Bool
  maxLinks : Nat

namespace FileSystem

variable (fs : FileSystem)

def kindAt (path : List FileName) : Option FileKind :=
  if path = [] then some .dir else (fs.entries.get? path).map DirEntry.kind

def children (dir : List FileName) : List DirEntry :=
  fs.entries.rows.filter (·.parent = dir)

-- Goes along the components, and on along the target of a link.
def along (follow : List FileName → List Component → Option (List FileName)) :
    List FileName → List Component → Option (List FileName)
  | dir, []                       => some dir
  | dir, .parent :: components    =>
    if fs.kindAt dir = some .dir then along follow dir.dropLast components else none
  | dir, .normal name :: components =>
    match fs.kindAt (dir ++ [name]) with
    | none                   => none
    | some (.symlink target) =>
      follow (if target.absolute then [] else dir) (target.components ++ components)
    | some _                 => along follow (dir ++ [name]) components

def resolve : Nat → List FileName → List Component → Option (List FileName)
  | 0     => fs.along fun _ _ => none
  | n + 1 => fs.along (resolve n)

-- What a path leads to from the working directory.
def canonicalize (path : PathBuf) : Option (List FileName) :=
  fs.resolve fs.maxLinks (if path.absolute then [] else fs.cwd) path.components

def readDir (path : PathBuf) : Option (List DirEntry) :=
  (fs.canonicalize path).bind fun dir =>
    if fs.kindAt dir = some .dir ∧ fs.readable dir then some (fs.children dir) else none

variable {fs} {dir path path' : List FileName} {name : FileName} {entry : DirEntry}
  {kind : FileKind} {components rest : List Component} {n : Nat}

theorem kindAt_nil : fs.kindAt [] = some .dir :=
  if_pos rfl

theorem kindAt_of_isDir (h : IsDir fs.entries path) : fs.kindAt path = some .dir := by
  rw [kindAt]
  split
  case isTrue     => rfl
  case isFalse hn =>
    rcases h with h | h
    · exact absurd h hn
    · exact h

theorem kindAt_path (h : entry ∈ fs.entries.rows) : fs.kindAt entry.path = some entry.kind := by
  have hn : entry.path ≠ [] := List.append_ne_nil_of_right_ne_nil _ (List.cons_ne_nil _ _)
  rw [kindAt, if_neg hn, Table.get?_key h]
  rfl

theorem exists_entry (h : fs.kindAt (dir ++ [name]) = some kind) :
    ∃ entry ∈ fs.children dir, entry.name = name ∧ entry.kind = kind := by
  rw [kindAt, if_neg (List.append_ne_nil_of_right_ne_nil _ (List.cons_ne_nil _ _))] at h
  obtain ⟨entry, he, rfl⟩ := Option.map_eq_some_iff.mp h
  obtain ⟨hm, hp⟩ := Table.get?_eq_some_iff.mp he
  obtain ⟨hd, hn⟩ := List.append_inj' hp rfl
  exact ⟨entry, List.mem_filter.mpr ⟨hm, decide_eq_true hd⟩, List.singleton_inj.mp hn, rfl⟩

theorem kindAt_child (h : entry ∈ fs.children dir) :
    fs.kindAt (dir ++ [entry.name]) = some entry.kind := by
  obtain ⟨hm, hd⟩ := List.mem_filter.mp h
  rw [← of_decide_eq_true hd]
  exact kindAt_path hm

theorem kindAt_parent (h : fs.kindAt (dir ++ [name]) = some kind) : fs.kindAt dir = some .dir := by
  obtain ⟨entry, he, _⟩ := exists_entry h
  obtain ⟨hm, hd⟩ := List.mem_filter.mp he
  obtain rfl := of_decide_eq_true hd
  exact kindAt_of_isDir (fs.parents entry hm)

theorem kindAt_dropLast (h : fs.kindAt dir = some .dir) : fs.kindAt dir.dropLast = some .dir := by
  induction dir using List.reverseRecOn
  case nil => exact h
  case append_singleton dir name _ =>
    rw [List.dropLast_concat]
    exact kindAt_parent h

-- The paths of everything that exists, of which there are finitely many.
def paths (fs : FileSystem) : List (List FileName) :=
  [] :: fs.entries.rows.map DirEntry.path

theorem mem_paths (h : fs.kindAt path = some kind) : path ∈ fs.paths := by
  rw [kindAt] at h
  split at h
  case isTrue hn => exact hn ▸ List.mem_cons_self
  case isFalse   =>
    obtain ⟨entry, he, _⟩ := Option.map_eq_some_iff.mp h
    obtain ⟨hm, hp⟩ := Table.get?_eq_some_iff.mp he
    exact hp ▸ List.mem_cons_of_mem _ (List.mem_map_of_mem hm)

section Along

variable {follow : List FileName → List Component → Option (List FileName)}

theorem along_parent (h : fs.kindAt dir = some .dir) :
    fs.along follow dir (.parent :: rest) = fs.along follow dir.dropLast rest := by
  rw [along, if_pos h]

theorem along_normal (h : fs.kindAt (dir ++ [name]) = some kind) (hk : kind.IsReal) :
    fs.along follow dir (.normal name :: rest) = fs.along follow (dir ++ [name]) rest := by
  rw [along, h]
  cases kind
  case symlink => exact hk.elim
  case dir | file | other => rfl

theorem along_symlink {target : PathBuf} (h : fs.kindAt (dir ++ [name]) = some (.symlink target)) :
    fs.along follow dir (.normal name :: rest) =
      follow (if target.absolute then [] else dir) (target.components ++ rest) := by
  rw [along, h]

-- What can be gone along goes up, on to something real, or along a link.
theorem along_cases {component : Component}
    (h : fs.along follow dir (component :: rest) = some path) :
    component = .parent ∧ fs.kindAt dir = some .dir ∨
    (∃ name kind, component = .normal name ∧ fs.kindAt (dir ++ [name]) = some kind ∧ kind.IsReal) ∨
    ∃ name target, component = .normal name ∧
      fs.kindAt (dir ++ [name]) = some (.symlink target) := by
  cases component
  case parent =>
    rw [along] at h
    split at h
    case isTrue hd  => exact .inl ⟨rfl, hd⟩
    case isFalse    => cases h
  case normal name =>
    rw [along] at h
    split at h
    case h_1            => cases h
    case h_2 target hk  => exact .inr (.inr ⟨name, target, rfl, hk⟩)
    case h_3 kind hn hk =>
      refine .inr (.inl ⟨name, kind, rfl, hk, ?_⟩)
      cases kind
      case symlink target     => exact (hn target rfl).elim
      case dir | file | other => trivial

end Along

theorem resolve_nil : fs.resolve n dir [] = some dir := by
  cases n <;> rfl

theorem resolve_parent (h : fs.kindAt dir = some .dir) :
    fs.resolve n dir (.parent :: rest) = fs.resolve n dir.dropLast rest := by
  cases n
  case zero   => exact along_parent h
  case succ n => exact along_parent h

theorem resolve_normal (h : fs.kindAt (dir ++ [name]) = some kind) (hk : kind.IsReal) :
    fs.resolve n dir (.normal name :: rest) = fs.resolve n (dir ++ [name]) rest := by
  cases n
  case zero   => exact along_normal h hk
  case succ n => exact along_normal h hk

theorem resolve_symlink {target : PathBuf}
    (h : fs.kindAt (dir ++ [name]) = some (.symlink target)) :
    fs.resolve (n + 1) dir (.normal name :: rest) =
      fs.resolve n (if target.absolute then [] else dir) (target.components ++ rest) :=
  along_symlink h

theorem resolve_cons_cases {component : Component}
    (h : fs.resolve n dir (component :: rest) = some path) :
    component = .parent ∧ fs.kindAt dir = some .dir ∨
    (∃ name kind, component = .normal name ∧ fs.kindAt (dir ++ [name]) = some kind ∧ kind.IsReal) ∨
    ∃ name target m, n = m + 1 ∧ component = .normal name ∧
      fs.kindAt (dir ++ [name]) = some (.symlink target) := by
  cases n
  case zero =>
    rcases along_cases h with hc | hc | ⟨name, target, rfl, hk⟩
    · exact .inl hc
    · exact .inr (.inl hc)
    · cases (along_symlink hk).symm.trans h
  case succ n =>
    rcases along_cases h with hc | hc | ⟨name, target, hc⟩
    · exact .inl hc
    · exact .inr (.inl hc)
    · exact .inr (.inr ⟨name, target, n, rfl, hc⟩)

-- The rest of a path is resolved from where its first part leads to, with fewer links left.
theorem resolve_append (h : fs.resolve n dir components = some path) :
    ∃ m ≤ n, ∀ rest, fs.resolve n dir (components ++ rest) = fs.resolve m path rest := by
  induction n using Nat.strongRecOn generalizing dir components
  case ind n hi =>
    induction components generalizing dir
    case nil =>
      rw [resolve_nil] at h
      cases h
      exact ⟨n, Nat.le_refl n, fun _ => rfl⟩
    case cons component components hc =>
      rcases resolve_cons_cases h with
        ⟨rfl, hd⟩ | ⟨name, kind, rfl, hk, hr⟩ | ⟨name, target, m, rfl, rfl, hk⟩
      · rw [resolve_parent hd] at h
        obtain ⟨m, hm, he⟩ := hc h
        exact ⟨m, hm, fun rest => (resolve_parent hd).trans (he rest)⟩
      · rw [resolve_normal hk hr] at h
        obtain ⟨m, hm, he⟩ := hc h
        exact ⟨m, hm, fun rest => (resolve_normal hk hr).trans (he rest)⟩
      · rw [resolve_symlink hk] at h
        obtain ⟨m', hm, he⟩ := hi m (Nat.lt_succ_self m) h
        refine ⟨m', Nat.le_trans hm (Nat.le_succ m), fun rest => (resolve_symlink hk).trans ?_⟩
        exact (congrArg _ (List.append_assoc ..).symm).trans (he rest)

theorem resolve_front (h : fs.resolve n dir (components ++ rest) = some path) :
    ∃ path', fs.resolve n dir components = some path' := by
  induction n using Nat.strongRecOn generalizing dir components rest
  case ind n hi =>
    induction components generalizing dir
    case nil => exact ⟨dir, resolve_nil⟩
    case cons component components hc =>
      rw [List.cons_append] at h
      rcases resolve_cons_cases h with
        ⟨rfl, hd⟩ | ⟨name, kind, rfl, hk, hr⟩ | ⟨name, target, m, rfl, rfl, hk⟩
      · rw [resolve_parent hd] at h ⊢
        exact hc h
      · rw [resolve_normal hk hr] at h ⊢
        exact hc h
      · rw [resolve_symlink hk] at h ⊢
        rw [← List.append_assoc] at h
        exact hi m (Nat.lt_succ_self m) h

def Exists (fs : FileSystem) (path : List FileName) : Prop :=
  ∃ kind, fs.kindAt path = some kind ∧ kind.IsReal

theorem exists_of_dir (h : fs.kindAt dir = some .dir) : fs.Exists dir :=
  ⟨.dir, h, trivial⟩

-- A resolved path is that of something that exists and is no link.
theorem exists_resolve (hd : fs.Exists dir) (h : fs.resolve n dir components = some path) :
    fs.Exists path := by
  induction n using Nat.strongRecOn generalizing dir components
  case ind n hi =>
    induction components generalizing dir
    case nil =>
      rw [resolve_nil] at h
      cases h
      exact hd
    case cons component components hc =>
      rcases resolve_cons_cases h with
        ⟨rfl, hdir⟩ | ⟨name, kind, rfl, hk, hr⟩ | ⟨name, target, m, rfl, rfl, hk⟩
      · rw [resolve_parent hdir] at h
        exact hc (exists_of_dir (kindAt_dropLast hdir)) h
      · rw [resolve_normal hk hr] at h
        exact hc ⟨kind, hk, hr⟩ h
      · rw [resolve_symlink hk] at h
        refine hi m (Nat.lt_succ_self m) (exists_of_dir ?_) h
        split
        case isTrue  => exact kindAt_nil
        case isFalse => exact kindAt_parent hk

section Canonicalize

variable {buf : PathBuf} {names : List FileName}

theorem exists_canonicalize (h : fs.canonicalize buf = some path) : fs.Exists path := by
  refine exists_resolve (exists_of_dir ?_) h
  split
  case isTrue  => exact kindAt_nil
  case isFalse => exact kindAt_of_isDir fs.isDir

theorem canonicalize_joins (h : fs.canonicalize buf = some dir) :
    ∃ m, ∀ names, fs.canonicalize (buf.joins names) = fs.resolve m dir (names.map .normal) := by
  obtain ⟨m, _, he⟩ := resolve_append h
  exact ⟨m, fun names => he (names.map .normal)⟩

theorem canonicalize_front {names' : List FileName}
    (h : fs.canonicalize (buf.joins (names ++ names')) = some path) :
    ∃ dir, fs.canonicalize (buf.joins names) = some dir := by
  rw [← PathBuf.joins_joins] at h
  exact resolve_front h

-- Without a link, the name of what a directory holds leads to it.
theorem canonicalize_child (h : fs.canonicalize buf = some dir)
    (hk : fs.kindAt (dir ++ [name]) = some kind) (hr : kind.IsReal) :
    fs.canonicalize (buf.joins [name]) = some (dir ++ [name]) := by
  obtain ⟨m, he⟩ := canonicalize_joins h
  rw [he, List.map_singleton, resolve_normal hk hr, resolve_nil]

-- What a path leads through is in the directory before it.
theorem exists_child (h : fs.canonicalize buf = some dir)
    (hc : fs.canonicalize (buf.joins [name]) = some path) :
    ∃ entry ∈ fs.children dir, entry.name = name := by
  obtain ⟨m, he⟩ := canonicalize_joins h
  rw [he, List.map_singleton] at hc
  rcases resolve_cons_cases hc with
    ⟨hp, _⟩ | ⟨name', kind, hn, hk, _⟩ | ⟨name', target, m', _, hn, hk⟩
  · cases hp
  · cases hn
    obtain ⟨entry, hm, hn, _⟩ := exists_entry hk
    exact ⟨entry, hm, hn⟩
  · cases hn
    obtain ⟨entry, hm, hn, _⟩ := exists_entry hk
    exact ⟨entry, hm, hn⟩

theorem readDir_eq_some {entries : List DirEntry} (h : fs.readDir buf = some entries) :
    ∃ dir, fs.canonicalize buf = some dir ∧ fs.kindAt dir = some .dir ∧
      entries = fs.children dir := by
  obtain ⟨dir, hc, h⟩ := Option.bind_eq_some_iff.mp h
  split at h <;> cases h
  case isTrue hd => exact ⟨dir, hc, hd.left, rfl⟩

end Canonicalize

end FileSystem
