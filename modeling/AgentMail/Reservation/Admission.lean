import AgentMail.Reservation.Store
import Mathlib.Data.List.Infix

open Pattern

namespace Reservation

-- Besides of the platform, what depends on the target (`Path::is_absolute`, `Path::join` and the
-- comparison of path components), and the variable `HOME` or else `USERPROFILE`.
structure Host extends Platform where
  isAbsolute    : Str → Bool
  joinPath      : Str → Str → Str
  sameComponent : Str → Str → Bool
  home          : Option Str

def Host.unix (platform : Platform) (home : Option Str) : Host where
  toPlatform         := platform
  isAbsolute path    := path.head? = some '/'
  joinPath base path :=
    if path.head? = some '/' then path
    else if base = [] ∨ base.getLast? = some '/' then base ++ path
    else base ++ '/' :: path
  sameComponent l r  := l = r
  home               := home

inductive AdmissionError
  | emptyPaths
  | tooManyPaths (count : Nat)
  | suspiciousPattern (warning : Str)
  | targetsProjectRoot
  | invalidPattern (message : Str)
  | pathOutsideProject
  deriving DecidableEq

namespace AdmissionError

def code : AdmissionError → String
  | emptyPaths          => "EMPTY_PATHS"
  | tooManyPaths _      => "TOO_MANY_PATHS"
  | suspiciousPattern _ => "SUSPICIOUS_PATTERN"
  | targetsProjectRoot  => "INVALID_PATH"
  | invalidPattern _    => "INVALID_PATH"
  | pathOutsideProject  => "INVALID_PATH"

def message : AdmissionError → Str
  | emptyPaths =>
    ("paths list cannot be empty. Provide at least one file path or glob pattern " ++
      "to reserve (e.g., ['src/api/*.py', 'config/settings.yaml']).").toList
  | tooManyPaths count =>
    "Maximum 200 paths per reservation call, got ".toList ++ (toString count).toList
  | suspiciousPattern warning => warning
  | targetsProjectRoot =>
    "Cannot reserve the project root directory itself. Please use more specific patterns.".toList
  | invalidPattern message => message
  | pathOutsideProject =>
    ("Path is outside the project root. " ++
      "File reservations must be within the project directory.").toList

end AdmissionError

def maxPathsPerCall : Nat :=
  200

-- Pieces are resolved as in a normalized pattern, except that a `..` without a parent fails.
def pushPiece (parts : List Str) (piece : Str) : Option (List Str) :=
  if piece = [] ∨ piece = ['.'] then
    some parts
  else if piece = ['.', '.'] then
    if parts = [] then none else some parts.dropLast
  else
    some (parts ++ [piece])

def normalizeParts (input : Str) : Option (List Str) :=
  (input.splitOnP fun c => c = '/' || c = '\\').foldlM pushPiece []

namespace Host

variable (host : Host)

def compile (pattern : Str) : CompiledPattern :=
  .new host.globset host.caseInsensitive pattern

def pathLooksAbsolute (input : Str) : Bool :=
  if ['/', '/'].isPrefixOf input then
    false
  else if host.isAbsolute input || ['~', '/'].isPrefixOf input || input = ['~'] then
    true
  else
    match input with
    | drive :: ':' :: sep :: _ => drive.isAlpha && (sep = '/' || sep = '\\')
    | _                        => false

def expandTilde (input : Str) : Str :=
  if input = ['~'] then
    host.home.getD input
  else
    match host.home, input with
    | some home, '~' :: '/' :: rest => host.joinPath home rest
    | _, _                          => input

def relativizePath (projectRoot path : Str) : Option Str := do
  let expandedPath := host.expandTilde path
  let pathParts    ← normalizeParts expandedPath
  if host.pathLooksAbsolute expandedPath then
    let rootParts ← normalizeParts (host.expandTilde projectRoot)
    if pathParts.length < rootParts.length then
      none
    else if (pathParts.zip rootParts).all fun parts => host.sameComponent parts.fst parts.snd then
      some (['/'].intercalate (pathParts.drop rootParts.length))
    else
      none
  else
    some (['/'].intercalate pathParts)

def detectSuspiciousFileReservation (pattern : Str) : Option Str :=
  let norm := (host.compile pattern).norm
  if trim pattern = [] then
    some "Pattern is completely empty.".toList
  else if host.pathLooksAbsolute pattern then
    some ("Pattern appears to be an absolute path: '".toList ++ pattern ++
      "'. Use project-relative paths instead.".toList)
  else if norm ∈ ["*".toList, "**".toList, "**/*".toList, "**/**".toList, []] then
    some ("Pattern '".toList ++ pattern ++ "' is too broad (normalizes to '".toList ++ norm ++
      "'). It will block all other agents from editing any files.".toList)
  else if byteLen pattern ≤ 2 ∧ '*' ∈ pattern then
    some ("Pattern '".toList ++ pattern ++ "' is very short and likely too broad.".toList)
  else
    none

def invalidFileReservationPattern (pattern : Str) : Option Str :=
  let compiled := host.compile pattern
  if ['.', '.'] <:+: pattern then
    some ("Pattern contains parent directory traversal ('..'). " ++
      "Use simple project-relative paths.").toList
  else if compiled.isGlob ∧ ¬compiled.isMatchable then
    some ("Pattern '".toList ++ pattern ++ ("' is not a valid glob pattern. " ++
      "Check for unescaped special characters or mismatched brackets.").toList)
  else
    none

def admitPath (projectRoot path : Str) : Except AdmissionError Str :=
  match host.relativizePath projectRoot path with
  | none     => .error .pathOutsideProject
  | some rel =>
    if rel = [] then
      .error .targetsProjectRoot
    else
      match host.invalidFileReservationPattern rel with
      | some message => .error (.invalidPattern message)
      | none         => .ok rel

-- The paths of a request, or the error that it is rejected with before the database is asked.
def fileReservationPaths (projectRoot : Str) (paths : List Str) :
    Except AdmissionError (List Str) :=
  if paths = [] then
    .error .emptyPaths
  else if paths.length > maxPathsPerCall then
    .error (.tooManyPaths paths.length)
  else do
    paths.forM fun pattern =>
      match host.detectSuspiciousFileReservation pattern with
      | some warning => .error (.suspiciousPattern warning)
      | none         => .ok ()
    paths.mapM (host.admitPath projectRoot)

end Host
end Reservation
