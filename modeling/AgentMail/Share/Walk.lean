import AgentMail.Lib.FileSystem
import AgentMail.Pattern.Basic

open Pattern

namespace Share

inductive WalkError
  | io
  | other (message : Str)
  deriving DecidableEq

-- A directory that is still to be read, and the directories on the way to it.
structure Pending where
  path     : PathBuf
  ancestry : List (List FileName)

structure Walk where
  stack   : List Pending
  entries : List Str

-- The path of an entry, from the base on if it begins with the base.
def relativePath (base : List FileName) (path : PathBuf) : Str :=
  ((path.stripPrefix (.ofNames base)).getD path).toStringLossy.map fun c =>
    if c = '\\' then '/' else c

def refusingOutside (context relative : Str) : WalkError :=
  .other ("Refusing to include path outside ".toList ++ context ++ " source: ".toList ++ relative)

def refusingCycle (context relative : Str) : WalkError :=
  .other ("Refusing to follow cyclic symlink in ".toList ++ context ++
    " source: ".toList ++ relative)

section

variable (fs : FileSystem) (context : Str) (base : List FileName)

def visitEntry (item : Pending) (walk : Walk) (entry : DirEntry) : Except WalkError Walk :=
  let path := item.path.joins [entry.name]
  let relative := relativePath base path
  let push (canonical : List FileName) : Walk :=
    { walk with stack := ⟨path, item.ancestry ++ [canonical]⟩ :: walk.stack }
  match entry.kind with
  | .dir =>
    match fs.canonicalize path with
    | none           => .error .io
    | some canonical => .ok (push canonical)
  | .symlink _ =>
    match fs.canonicalize path with
    | none           => .error .io
    | some canonical =>
      if ¬base <+: canonical then
        .error (refusingOutside context relative)
      else
        match fs.kindAt canonical with
        | some .dir  =>
          if canonical ∈ item.ancestry then .error (refusingCycle context relative)
            else .ok (push canonical)
        | some .file => .ok { walk with entries := walk.entries ++ [relative] }
        | _          => .ok walk
  | .file  => .ok { walk with entries := walk.entries ++ [relative] }
  | .other => .ok walk

def visit (item : Pending) (walk : Walk) : Except WalkError Walk :=
  match fs.readDir item.path with
  | none         => .error .io
  | some entries => entries.foldlM (visitEntry fs context base item) walk

-- The directory that was pushed last is read next.
def walkFrom : Nat → Walk → Option (Except WalkError (List Str))
  | _, ⟨[], entries⟩               => some (.ok entries)
  | 0, ⟨_ :: _, _⟩                 => none
  | fuel + 1, ⟨item :: stack, entries⟩ =>
    match visit fs context base item ⟨stack, entries⟩ with
    | .error e => some (.error e)
    | .ok walk => walkFrom fuel walk

end

def collectEntriesCtx (fs : FileSystem) (context : Str) (base current : PathBuf) (fuel : Nat) :
    Option (Except WalkError (List Str)) :=
  match fs.canonicalize current with
  | none      => some (.ok [])
  | some root =>
    if fs.kindAt root ≠ some .dir then
      some (.ok [])
    else
      match fs.canonicalize base with
      | none      => some (.error .io)
      | some base => walkFrom fs context base fuel ⟨[⟨current, [root]⟩], []⟩

-- What is listed lies in the base, and every file that the directories of the base hold is listed.
-- No link leads out of the base, or back to a directory on the way to it.
structure Listing (fs : FileSystem) (base : PathBuf) (dir : List FileName) (entries : List Str) :
    Prop where
  resolves  : ∀ entry ∈ entries, ∃ path,
    fs.canonicalize (base.join (.ofText entry)) = some path ∧ fs.kindAt path = some .file ∧
      dir <+: path
  lists     : ∀ names, fs.kindAt (dir ++ names) = some .file →
    ∃ entry ∈ entries, fs.canonicalize (base.join (.ofText entry)) = some (dir ++ names)
  contained : ∀ names parent, fs.canonicalize (base.joins names) = some parent →
    ∀ entry ∈ fs.children parent, ∀ target, entry.kind = .symlink target →
      ∃ path, fs.canonicalize (base.joins (names ++ [entry.name])) = some path ∧ dir <+: path
  acyclic   : ∀ names parent, fs.canonicalize (base.joins names) = some parent →
    ∀ entry ∈ fs.children parent, ∀ target, entry.kind = .symlink target →
      ∀ path, fs.canonicalize (base.joins (names ++ [entry.name])) = some path →
        fs.kindAt path = some .dir →
        ∀ k ≤ names.length, fs.canonicalize (base.joins (names.take k)) ≠ some path

-- The walk ends, and what it lists is such a listing if the base is a directory.
structure Walks (fs : FileSystem) (context : Str) (base : PathBuf) : Prop where
  terminates : ∃ fuel result, collectEntriesCtx fs context base base fuel = some result
  listing    : ∀ fuel entries, collectEntriesCtx fs context base base fuel = some (.ok entries) →
    ∀ dir, fs.canonicalize base = some dir → fs.kindAt dir = some .dir → Listing fs base dir entries

section

variable (fs : FileSystem) (base : PathBuf) (dir : List FileName)

-- A link that dangles, leads out of the base, or leads back to a directory on the way to it.
def Refused (names : List FileName) (entry : DirEntry) : Prop :=
  ¬entry.kind.IsReal ∧ ∀ path, fs.canonicalize (base.joins (names ++ [entry.name])) = some path →
    ¬dir <+: path ∨
    fs.kindAt path = some .dir ∧ ∃ k ≤ names.length,
      fs.canonicalize (base.joins (names.take k)) = some path

-- Below the base, a directory may not be read or holds a link that is refused.
def Stops : Prop :=
  ∃ names parent, fs.canonicalize (base.joins names) = some parent ∧ fs.kindAt parent = some .dir ∧
    (¬fs.readable parent ∨ ∃ entry ∈ fs.children parent, Refused fs base dir names entry)

-- A name that is written down as it is.
def IsText (name : FileName) : Prop :=
  ∃ text : Str, name = Utf8.encode text ∧ '\\' ∉ text

-- The base is given by the path that it leads to, or it is the working directory itself, or it is
-- absolute and no path below it begins with the path that it leads to. The names are texts without
-- a backslash.
structure Spelled (names : List FileName) : Prop where
  base  : base = .ofNames dir ∨ base = ⟨false, []⟩ ∨
    base.absolute ∧ (base.joins names).stripPrefix (.ofNames dir) = none ∧
      ∀ name, .normal name ∈ base.components → IsText name
  names : ∀ name ∈ names, IsText name

-- What is written down for a path below the base leads to the other path.
def WrittenFor (names path : List FileName) : Prop :=
  fs.canonicalize (base.join (.ofText (relativePath dir (base.joins names)))) = some path

-- The names below the base that lead to a file.
def FileAt (names : List FileName) : Prop :=
  names ≠ [] ∧ ∃ path, fs.canonicalize (base.joins names) = some path ∧ fs.kindAt path = some .file

-- Whatever leads to a file is spelled as it is, or what is written down for it happens to lead to a
-- file of the base, and each file of the base is spelled as it is or happens to be what is written
-- down for another one.
structure Named : Prop where
  resolves : ∀ names, FileAt fs base names → Spelled base dir names ∨
    ∃ path, WrittenFor fs base dir names path ∧ fs.kindAt path = some .file ∧ dir <+: path
  lists    : ∀ names, fs.kindAt (dir ++ names) = some .file → Spelled base dir names ∨
    ∃ names', FileAt fs base names' ∧ WrittenFor fs base dir names' (dir ++ names)

end

-- The walk is stopped, or the files below the base are written down so that they are found again.
def Plain (fs : FileSystem) (base : PathBuf) : Prop :=
  ∀ dir, fs.canonicalize base = some dir → fs.kindAt dir = some .dir → Stops fs base dir ∨
    Named fs base dir

end Share
