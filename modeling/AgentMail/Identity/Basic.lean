import AgentMail.Lib.Search
import AgentMail.Pattern.Basic

open Pattern (Str trim isWhitespace pushComponent)

namespace Identity

-- `str::to_lowercase`, of which only the ASCII texts matter.
structure Lowercase where
  toLowercase : Str → Str
  ascii       : ∀ s, (∀ c ∈ s, c.toNat < 128) → toLowercase s = s.map Char.toLower

instance : Nonempty Lowercase :=
  ⟨⟨(·.map Char.toLower), fun _ _ => rfl⟩⟩

def beforeFirst (c : Char) (s : Str) : Str :=
  s.takeWhile (· ≠ c)

def afterFirst (c : Char) (s : Str) : Str :=
  (s.dropWhile (· ≠ c)).drop 1

def afterLast (c : Char) (s : Str) : Str :=
  (s.splitOn c).getLastD s

def eqIgnoreAsciiCase (s t : Str) : Bool :=
  s.map Char.toLower = t.map Char.toLower

def looksLikeWindowsDrivePath : Str → Bool
  | drive :: ':' :: separator :: _ => drive.isAlpha && (separator = '/' || separator = '\\')
  | _                              => false

def parseLocalRemotePath (value : Str) : Option (Str × Str) :=
  let trimmed := trim value
  let isExplicitLocalPath :=
    ["/", "./", "../", "~/", "\\\\", ".\\", "..\\", "~\\"].any (·.toList.isPrefixOf trimmed) ||
      looksLikeWindowsDrivePath trimmed
  if trimmed ≠ [] ∧ isExplicitLocalPath then some ("file".toList, trimmed) else none

def splitHost (lc : Lowercase) (s : Str) : Str × Str :=
  (lc.toLowercase (beforeFirst ':' s), afterFirst ':' s)

def parseRemoteUrl (lc : Lowercase) (url : Str) : Option (Str × Str) :=
  let u := trim url
  if u = [] then
    none
  else
    match Search.find "://".toList u with
    | some pos =>
      let scheme   := u.take pos
      let after    := u.drop (pos + 3)
      let hostPart := afterLast '@' (beforeFirst '/' after)
      let host     := lc.toLowercase (beforeFirst ':' hostPart)
      if host = [] then
        let path := after.dropWhile (· = '/')
        if eqIgnoreAsciiCase scheme "file".toList ∧ path ≠ [] then some ("file".toList, path)
          else none
      else
        some (host, afterFirst '/' after)
    | none =>
      if '@' ∈ u ∧ ':' ∈ u then
        (u.splitOn '@')[1]?.map (splitHost lc)
      else
        match parseLocalRemotePath u with
        | some parsed => some parsed
        | none        => if ':' ∈ u then some (splitHost lc u) else none

-- One pass of `replace("//", "/")`.
def halveSlashes : Str → Str
  | '/' :: '/' :: s => '/' :: halveSlashes s
  | c :: s          => c :: halveSlashes s
  | []              => []

theorem length_halveSlashes_le (s : Str) : (halveSlashes s).length ≤ s.length := by
  fun_induction halveSlashes s <;> simp <;> omega

theorem length_halveSlashes_lt {s : Str} (h : ['/', '/'] <:+: s) :
    (halveSlashes s).length < s.length := by
  fun_induction halveSlashes s
  case case1 s _ => simpa using Nat.lt_succ_of_le (length_halveSlashes_le s)
  case case2 c s hn hi =>
    cases List.infix_cons_iff.mp h
    case inl h =>
      obtain ⟨t, ht⟩ := h
      cases ht
      exact (hn t rfl rfl).elim
    case inr h => simpa using hi h
  case case3 => cases List.eq_nil_of_infix_nil h

def collapseSlashes (s : Str) : Str :=
  if _ : ['/', '/'] <:+: s then collapseSlashes (halveSlashes s) else s
termination_by s.length
decreasing_by exact length_halveSlashes_lt ‹_›

-- `Path::extension` of a single component.
def extension (file : Str) : Option Str :=
  match file.reverse.dropWhile (· ≠ '.') with
  | _ :: _ :: _ =>
    if file = ['.', '.'] then none else some (file.reverse.takeWhile (· ≠ '.')).reverse
  | _           => none

def stripGit (last : Str) : Str :=
  if (extension last).any (eqIgnoreAsciiCase · "git".toList) then last.take (last.length - 4)
    else last

def normalizedRemotePathSegments (path : Str) : List Str :=
  let slashed    := path.map fun c => if c = '\\' then '/' else c
  let relative   := slashed.dropWhile (· = '/')
  let relative   := if ['~', '/'] <+: relative then relative.drop 2 else relative
  let segments   := ((collapseSlashes relative).splitOn '/').foldl pushComponent []
  match segments.getLast? with
  | some last => segments.dropLast ++ [stripGit last]
  | none      => segments

def joinThree (host owner repo : Str) : Str :=
  ['/'].intercalate [host, owner, repo]

def normalizeRemoteLastTwo (lc : Lowercase) (url : Str) : Option Str := do
  let (host, path) ← parseRemoteUrl lc url
  match (normalizedRemotePathSegments path).reverse with
  | repo :: owner :: _ => some (joinThree host owner repo)
  | _                  => none

-- A name that stands for one part of a remote.
structure IsPart (s : Str) : Prop where
  nonempty : s ≠ []
  ascii    : ∀ c ∈ s, c.toNat < 128
  plain    : ∀ c ∈ s, c ≠ '/' ∧ c ≠ '\\' ∧ c ≠ ':' ∧ c ≠ '@' ∧ ¬isWhitespace c
  no_dots  : s ≠ ['.'] ∧ s ≠ ['.', '.']

instance : DecidablePred IsPart := fun s =>
  decidable_of_iff (s ≠ [] ∧ s.all (·.toNat < 128) ∧
      s.all (fun c => c ≠ '/' ∧ c ≠ '\\' ∧ c ≠ ':' ∧ c ≠ '@' ∧ ¬isWhitespace c) ∧
        s ≠ ['.'] ∧ s ≠ ['.', '.']) <| by
    simp only [List.all_eq_true, decide_eq_true_eq]
    exact ⟨fun ⟨hn, ha, hp, hd⟩ => ⟨hn, ha, hp, hd⟩,
      fun h => ⟨h.nonempty, h.ascii, h.plain, h.no_dots⟩⟩

abbrev Part : Type :=
  { s : Str // IsPart s }

structure Remote where
  host      : Part
  owner     : Part
  repo      : Part
  not_home  : owner.val ≠ ['~']
  no_suffix : ¬".git".toList <:+ repo.val.map Char.toLower

instance : Inhabited Remote where
  default := {
    host      := ⟨"github.com".toList, by decide⟩
    owner     := ⟨"user".toList, by decide⟩
    repo      := ⟨"repo".toList, by decide⟩
    not_home  := by decide
    no_suffix := by decide }

-- The ways to write a remote, where the user and the port do not matter.
inductive RemoteForm
  | https
  | httpsGit
  | httpsUser (user : Part)
  | ssh (user : Part)
  | sshPort (user port : Part)
  | scp (user : Part)

def webUrl (scheme : String) (authority path : Str) : Str :=
  scheme.toList ++ "://".toList ++ (authority ++ '/' :: path)

namespace Remote

variable (r : Remote)

def path (suffix : String) : Str :=
  r.owner ++ '/' :: (r.repo ++ suffix.toList)

def url : RemoteForm → Str
  | .https             => webUrl "https" r.host (r.path "")
  | .httpsGit          => webUrl "https" r.host (r.path ".git")
  | .httpsUser user    => webUrl "https" (user ++ '@' :: r.host) (r.path ".git/")
  | .ssh user          => webUrl "ssh" (user ++ '@' :: r.host) (r.path ".git")
  | .sshPort user port => webUrl "ssh" (user ++ '@' :: (r.host ++ ':' :: port)) (r.path "")
  | .scp user          => user ++ '@' :: (r.host ++ ':' :: r.path ".git")

def identity : Str :=
  joinThree (r.host.val.map Char.toLower) r.owner r.repo

example : (default : Remote).url .httpsGit = "https://github.com/user/repo.git".toList ∧
    (default : Remote).identity = "github.com/user/repo".toList := by decide

end Remote

end Identity
