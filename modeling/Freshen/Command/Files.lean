import Freshen.Command.Error

/-!
# Files in memory

A file system as far as a program can see it that starts in an empty directory with given files.

- `Place`: where a path leads, whether something stands there or not.
- `Files.follow`: walks along a path; `Files.Obstacle` says where that ends.
- `Files.read`, `Files.write`: what a program gets that opens a file by a path.
- `Files.changed`: what was written.
-/

namespace Freshen

/-- What a path leads to. -/
inductive FileEntry where
  | file (content : ByteArray)
  | directory

/-- A file system held in memory: what stands below the working directory, by the segments of its
path.  Nothing is held of what stands elsewhere. -/
structure Files where
  entries : List (List String × FileEntry)

/-- Where the segments of a place are counted from. -/
inductive Anchor where
  | root
  /-- The directory so many levels above the working directory. -/
  | above (levels : Nat)
deriving DecidableEq

/-- Where a path leads. -/
structure Place where
  anchor : Anchor
  segments : List String
deriving DecidableEq

namespace Place

/-- The working directory. -/
def working : Place := ⟨.above 0, []⟩

/-- The directory that holds a place; the root holds itself. -/
def parent (p : Place) : Place :=
  match p.anchor, p.segments with
  | .root, [] => p
  | .above n, [] => ⟨.above (n + 1), []⟩
  | anchor, segments => ⟨anchor, segments.dropLast⟩

/-- What is called `name` in a directory. -/
def child (p : Place) (name : String) : Place := { p with segments := p.segments ++ [name] }

end Place

namespace Files

/-- The longest name of a file, in bytes. -/
def nameLimit : Nat := 255

/-- The longest path, in bytes. -/
def pathLimit : Nat := 4095

/-- A file system with files and directories of these names. -/
def ofList (entries : List (String × FileEntry)) : Files :=
  ⟨entries.map fun (name, entry) => ((name.splitOn "/").filter (· ≠ ""), entry)⟩

/-- What stands at a place.  A place without segments is a directory, and so is whatever holds an
entry. -/
def lookup (fs : Files) (place : Place) : Option FileEntry :=
  if place.segments = [] then some .directory
  else if place.anchor ≠ .above 0 then none
  else match fs.entries.lookup place.segments with
    | some entry => some entry
    | none =>
        if fs.entries.any fun (p, _) => place.segments.isPrefixOf p then some .directory else none

/-- Why a path does not lead to a file. -/
inductive Obstacle where
  | missing
  | notDirectory
  | isDirectory
  | nameTooLong
deriving DecidableEq

/-- The system's words for an obstacle. -/
def Obstacle.text : Obstacle → String
  | missing => "No such file or directory (os error 2)"
  | notDirectory => "Not a directory (os error 20)"
  | isDirectory => "Is a directory (os error 21)"
  | nameTooLong => "File name too long (os error 36)"

/-- The place that the segments of a path lead to from a place.  Every segment has to start at a
directory; nothing needs to stand at the place that the last one leads to. -/
def follow (fs : Files) (place : Place) : List String → Except Obstacle Place
  | [] => .ok place
  | segment :: segments =>
      match fs.lookup place with
      | none => .error .missing
      | some (.file _) => .error .notDirectory
      | some .directory =>
          if segment = "" ∨ segment = "." then fs.follow place segments
          else if segment = ".." then fs.follow place.parent segments
          else if nameLimit < segment.utf8ByteSize then .error .nameTooLong
          else fs.follow (place.child segment) segments

/-- The place where a path starts, and its segments. -/
def route (path : String) : Except Obstacle (Place × List String) :=
  if path = "" then .error .missing
  else if pathLimit < path.utf8ByteSize then .error .nameTooLong
  else
    let segments := path.splitOn "/"
    .ok (if segments.head? = some "" then ⟨.root, []⟩ else .working, segments)

/-- The content of the file at a path. -/
def content (fs : Files) (path : String) : Except Obstacle ByteArray := do
  let (start, segments) ← route path
  match fs.lookup (← fs.follow start segments) with
  | none => throw .missing
  | some .directory => throw .isDirectory
  | some (.file content) => return content

/-- The text of the file at a path. -/
def read (fs : Files) (path : String) : Except ReadFailure String :=
  match fs.content path with
  | .error .missing => .error .notFound
  | .error obstacle => .error (.system obstacle.text)
  | .ok content =>
      match String.fromUTF8? content with
      | some text => .ok text
      | none => .error .invalidUtf8

/-- The place of the file that a text can be written to by a path.  A path that ends in a slash asks
for a directory, whatever stands at its end. -/
def target (fs : Files) (path : String) : Except Obstacle Place := do
  let (start, segments) ← route path
  if segments.getLast? = some "" then
    let bare := (segments.reverse.dropWhile (· = "")).reverse
    let _ ← fs.follow start (bare.dropLast ++ ["."])
    throw .isDirectory
  else
    let place ← fs.follow start segments
    match fs.lookup place with
    | some .directory => throw .isDirectory
    | _ => return place

/-- The file system in which the file at a place holds a text. -/
def store (fs : Files) (place : Place) (text : String) : Files :=
  if place.anchor ≠ .above 0 then fs
  else if (fs.entries.lookup place.segments).isSome then
    ⟨fs.entries.map fun (p, entry) => (p, if p = place.segments then .file text.toUTF8 else entry)⟩
  else
    ⟨fs.entries ++ [(place.segments, .file text.toUTF8)]⟩

/-- The file system after a text was written to a path. -/
def write (fs : Files) (path text : String) : Except String Files :=
  match fs.target path with
  | .ok place => .ok (fs.store place text)
  | .error obstacle => .error obstacle.text

/-- The files of `after` that `before` does not hold with the same content, with their texts. -/
def changed (before after : Files) : List (String × String) :=
  after.entries.filterMap fun (place, entry) =>
    match entry with
    | .directory => none
    | .file content =>
        let same := match before.entries.lookup place with
          | some (.file old) => old == content
          | _ => false
        if same then none
        else (String.fromUTF8? content).map fun text => ("/".intercalate place, text)

end Files

end Freshen
