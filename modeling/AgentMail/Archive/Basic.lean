import AgentMail.Lib.Search

open Search (find)

namespace Archive

abbrev Text := List Char

def isNewline (c : Char) : Bool :=
  c = '\n' || c = '\r'

-- What JSON allows between two tokens.
def isWhitespace (c : Char) : Bool :=
  c = ' ' || c = '\n' || c = '\r' || c = '\t'

-- The crate `serde_json`, as far as it is used.
structure Serde (ν : Type) where
  null           : ν
  isObject       : ν → Bool
  toStringPretty : ν → Text
  fromStr        : Text → Option ν

-- After a line break, there is the indentation or a closing bracket.
def Formatted : Text → Prop
  | []     => True
  | c :: s => (c = '\n' → ∃ d ∈ s.head?, d ∈ [' ', ']', '}']) ∧ Formatted s

-- Printing and parsing are inverse, whitespace at the end is ignored, and objects start with a
-- brace. Control characters in strings are escaped, so that all line breaks are those of the
-- formatter.
structure Serde.Lawful {ν : Type} (serde : Serde ν) : Prop where
  fromStr_toStringPretty : ∀ m, serde.fromStr (serde.toStringPretty m) = some m
  fromStr_append         : ∀ s ws, (∀ c ∈ ws, isWhitespace c) →
    serde.fromStr (s ++ ws) = serde.fromStr s
  object                 : ∀ m, serde.isObject m → ∃ rest, serde.toStringPretty m = '{' :: rest
  formatted              : ∀ m, Formatted (serde.toStringPretty m)

def opening : Text :=
  ['-', '-', '-', 'j', 's', 'o', 'n']

def marker : Text :=
  ['-', '-', '-']

def closing : Text :=
  ['\n'] ++ marker ++ ['\n']

-- The limit of 50 MB for the size of a message file.
def maxMessageFileLen : Nat :=
  50 * 1024 * 1024

inductive ReadError
  | tooLarge
  | json

-- An error of `parse_and_insert_message` that is due to the text of the file.
inductive ReconstructError
  | noFrontmatter
  | badJson

section

variable {ν : Type} (serde : Serde ν)

def renderMessageBundleContent (message : ν) (bodyMd : Text) : Text :=
  opening ++ ['\n'] ++ serde.toStringPretty message ++ closing ++ ['\n'] ++ bodyMd

-- Both readers of `read_message_file` behind the frontmatter: one line break is not part of the
-- body.
def stripLineBreak (rest : Text) : Text :=
  ((rest.dropPrefix? ['\r', '\n']).or (rest.dropPrefix? ['\n'])).getD rest

def parseMessageFile (content : Text) : Except ReadError (ν × Text) :=
  match content.dropPrefix? (opening ++ ['\n']) with
  | none      => .ok (serde.null, content)
  | some rest =>
    match find closing rest with
    | none     => .ok (serde.null, content)
    | some idx =>
      match serde.fromStr (rest.take idx) with
      | none             => .error .json
      | some frontmatter => .ok (frontmatter, stripLineBreak (rest.drop (idx + 5)))

-- The size of the file is not always known.
def readMessageFile (len : Option Nat) (content : Text) : Except ReadError (ν × Text) :=
  if ∃ n ∈ len, n > maxMessageFileLen then .error .tooLarge else parseMessageFile serde content

end

-- The closing marker is a line of its own. The result is where it starts and where the body starts.
def searchMarker (content : Text) (searchFrom : Nat) : Option (Nat × Nat) :=
  match h : find marker (content.drop searchFrom) with
  | none          => none
  | some relative =>
    let markerStart := searchFrom + relative
    let afterMarker := markerStart + 3
    if markerStart = 0 ∨ (content.take markerStart).getLast? ≠ some '\n' then
      searchMarker content afterMarker
    else if afterMarker = content.length then some (markerStart, afterMarker)
    else if ['\r', '\n'] <+: content.drop afterMarker then some (markerStart, afterMarker + 2)
    else if ['\n'] <+: content.drop afterMarker then some (markerStart, afterMarker + 1)
    else searchMarker content afterMarker
termination_by content.length - searchFrom
decreasing_by
  all_goals
    have hl := Search.length_le_of_find h
    simp only [List.length_drop, marker, List.length_cons, List.length_nil] at hl
    omega

def frontmatterBounds (content : Text) : Option (Nat × Nat × Nat) :=
  match find opening content with
  | none       => none
  | some start =>
    if opening ++ ['\r', '\n'] <+: content.drop start then
      (searchMarker content (start + 9)).map fun (jsonEnd, bodyStart) =>
        (start + 9, jsonEnd, bodyStart)
    else if opening ++ ['\n'] <+: content.drop start then
      (searchMarker content (start + 8)).map fun (jsonEnd, bodyStart) =>
        (start + 8, jsonEnd, bodyStart)
    else none

def extractJsonFrontmatter (content : Text) : Option Text :=
  (frontmatterBounds content).map fun (jsonStart, jsonEnd, _) =>
    (content.take jsonEnd).drop jsonStart

def extractBodyAfterFrontmatter (content : Text) : Option Text :=
  (frontmatterBounds content).map fun (_, _, bodyStart) =>
    (content.drop bodyStart).dropWhile isNewline

-- `parse_and_insert_message`, as far as it reads the file.
def parseArchivedMessage {ν : Type} (serde : Serde ν) (content : Text) :
    Except ReconstructError (ν × Text) :=
  match extractJsonFrontmatter content with
  | none             => .error .noFrontmatter
  | some frontmatter =>
    match serde.fromStr frontmatter with
    | none     => .error .badJson
    | some msg => .ok (msg, (extractBodyAfterFrontmatter content).getD [])

end Archive
