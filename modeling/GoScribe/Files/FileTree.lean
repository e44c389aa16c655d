import GoScribe.Files.Path

/-!
# File trees

The files and directories that the program sees, as a value.  Paths are followed as an operating
system does: every segment but the last has to be a directory, and two dots lead to the directory
above.  A directory changes when an entry of it comes or goes.
-/

namespace GoScribe

/-- Why an operation on files fails. -/
inductive FileError where
  | notFound
  | alreadyExists
  | notADirectory
  | isADirectory
  /-- The file is no text. -/
  | invalidData
deriving DecidableEq, Repr

/-- A file or a directory, with the time of its last change. -/
inductive Entry where
  | file (content : ByteArray) (modified : Nat)
  | dir (modified : Nat)

namespace Entry

/-- The entry is a directory. -/
def isDir : Entry → Bool
  | dir _ => true
  | file .. => false

/-- The time of the last change. -/
def modified : Entry → Nat
  | file _ t => t
  | dir t => t

/-- The entry with another time of its last change. -/
def touch (time : Nat) : Entry → Entry
  | file content _ => file content time
  | dir _ => dir time

end Entry

/-- Where an entry is: its name, then that of the directory it is in, and so on up to the root. -/
abbrev Location := List String

/-- A tree of files. -/
structure FileTree where
  /-- The entries below the root. -/
  entries : List (Location × Entry)
  /-- Where relative paths start. -/
  workingDir : Location
  /-- The time at which changes are made. -/
  clock : Nat

namespace FileTree

/-- The entry at a location. -/
def get? (t : FileTree) (l : Location) : Option Entry :=
  if l = [] then some (.dir t.clock) else t.entries.lookup l

/-- Entries with `e` at `l`. -/
def putEntry (l : Location) (e : Entry) : List (Location × Entry) → List (Location × Entry)
  | [] => [(l, e)]
  | (k, d) :: rest => if k == l then (l, e) :: rest else (k, d) :: putEntry l e rest

/-- The tree with `e` at `l`. -/
def put (t : FileTree) (l : Location) (e : Entry) : FileTree :=
  { t with entries := putEntry l e t.entries }

/-- The directories on the way from the root to a location, and the one at it. -/
def dirsTo (clock : Nat) : Location → List (Location × Entry)
  | [] => []
  | name :: above => dirsTo clock above ++ [(name :: above, .dir clock)]

/-- A tree with nothing in it but the working directory. -/
def empty (workingDir : Location) (clock : Nat) : FileTree :=
  { entries := dirsTo clock workingDir, workingDir, clock }

/-- The names on the way from `l` down to `k`, if that is `l` or below it. -/
def wayDown? (l k : Location) : Option (List String) :=
  if k.drop (k.length - l.length) == l then some (k.take (k.length - l.length)).reverse else none

/-- The entries below the directory `l`, each with the way to it from there. -/
def below (t : FileTree) (l : Location) : List (List String × Entry) :=
  t.entries.filterMap fun (k, e) =>
    match wayDown? l k with
    | some (name :: names) => some (name :: names, e)
    | _ => none

/-! ## Following paths -/

/-- The segments of a path, without the empty ones that slashes at its end leave. -/
def segments (p : Path) : List (List Char) :=
  ((Text.splitOn '/' p.text.toList).reverse.dropWhile (·.isEmpty)).reverse

/-- The path ends in a slash. -/
def endsInSlash (p : Path) : Bool := p.text.toList.getLast? = some '/'

/-- A location after one more segment. -/
def stepTo (l : Location) (segment : List Char) : Location :=
  if segment = [] || segment = ['.'] then l
  else if segment = ['.', '.'] then l.tail
  else String.ofList segment :: l

/-- The location that segments lead to from a location.  All but the last have to lead to
directories. -/
def walk (t : FileTree) (l : Location) : List (List Char) → Except FileError Location
  | [] => .ok l
  | s :: ss =>
    match t.get? l with
    | none => .error .notFound
    | some (.file ..) => .error .notADirectory
    | some (.dir _) => walk t (stepTo l s) ss

/-- The location at which a path starts. -/
def start (t : FileTree) (p : Path) : Location := if p.isAbsolute then [] else t.workingDir

/-- The location of a path, at which there may be no entry. -/
def locate (t : FileTree) (p : Path) : Except FileError Location :=
  if p.text = "" then .error .notFound else walk t (t.start p) (segments p)

/-- The entry of a path. -/
def stat (t : FileTree) (p : Path) : Except FileError Entry := do
  match t.get? (← t.locate p) with
  | none => .error .notFound
  | some (.file content modified) =>
    if endsInSlash p then .error .notADirectory else return .file content modified
  | some e => return e

/-- The path leads to a directory. -/
def isDir (t : FileTree) (p : Path) : Bool :=
  match t.stat p with
  | .ok (.dir _) => true
  | _ => false

/-- The path leads to a file. -/
def isFile (t : FileTree) (p : Path) : Bool :=
  match t.stat p with
  | .ok (.file ..) => true
  | _ => false

/-- The path leads to a file or directory. -/
def pathExists (t : FileTree) (p : Path) : Bool := (t.stat p).toOption.isSome

/-- The time of the last change of what a path leads to. -/
def modified? (t : FileTree) (p : Path) : Option Nat := (t.stat p).toOption.map Entry.modified

/-! ## Reading -/

/-- The content of a file. -/
def readFile (t : FileTree) (p : Path) : Except FileError ByteArray := do
  match ← t.stat p with
  | .file content _ => return content
  | .dir _ => .error .isADirectory

/-- The content of a file as text. -/
def readText (t : FileTree) (p : Path) : Except FileError String := do
  match String.fromUTF8? (← t.readFile p) with
  | some text => return text
  | none => .error .invalidData

/-- The entries of the directory `l`, sorted by name. -/
def children (t : FileTree) (l : Location) : List (String × Entry) :=
  let named := t.entries.filterMap fun (k, e) =>
    match k with
    | name :: above => if above == l then some (name, e) else none
    | [] => none
  named.mergeSort fun a b => a.1 ≤ b.1

/-- The directories below the directory `l`, each given by the way to it from there. -/
def dirsBelow (t : FileTree) (l : Location) : List (List String) :=
  (t.below l).filterMap fun (k, e) => if e.isDir then some k else none

/-- The entries of the directory that a path leads to. -/
def readDir (t : FileTree) (p : Path) : Except FileError (List (String × Entry)) := do
  match ← t.stat p with
  | .dir _ => return t.children (← t.locate p)
  | .file .. => .error .notADirectory

/-! ## Changing -/

/-- The entry at `l` counts as changed now. -/
def markChanged (t : FileTree) (l : Location) : FileTree :=
  match t.entries.lookup l with
  | some e => t.put l (e.touch t.clock)
  | none => t

/-- The tree with the new entry `e` at `l`, which changes the directory it is in. -/
def add (t : FileTree) (l : Location) (e : Entry) : FileTree :=
  (t.markChanged l.tail).put l e

/-- The segments lead no further: all are empty or dots. -/
def areDots (segments : List (List Char)) : Bool :=
  segments.all fun s => (Path.componentOf? s).isNone

/-- Directories along segments, made where there are none; `made` says that one has been made already.
Dots at the end ask for a directory that is there already.  A file in the way is not a directory, or
exists already if it is found after a directory was made. -/
def makeDirs (t : FileTree) (made : Bool) (l : Location) :
    List (List Char) → FileTree × Except FileError Unit
  | [] =>
    match t.get? l with
    | none => (t.add l (.dir t.clock), .ok ())
    | some (.file ..) => (t, .error .alreadyExists)
    | some (.dir _) => (t, .ok ())
  | s :: ss =>
    match t.get? l with
    | none =>
      if areDots (s :: ss) then (t, .error .notFound)
      else makeDirs (t.add l (.dir t.clock)) true (stepTo l s) ss
    | some (.file ..) =>
      (t, .error (if made && !areDots (s :: ss) then .alreadyExists else .notADirectory))
    | some (.dir _) => makeDirs t made (stepTo l s) ss

/-- The directory of a path and all above it, made where there are none.  Those that were made before a
failure stay. -/
def createDirs (t : FileTree) (p : Path) : FileTree × Except FileError Unit :=
  if p.text = "" then (t, .ok ()) else makeDirs t false (t.start p) (segments p)

/-- A file with the given content in place of the one that was there. -/
def writeFile (t : FileTree) (p : Path) (content : ByteArray) : Except FileError FileTree := do
  let l ← t.locate p
  match t.get? l, t.get? l.tail with
  | some (.dir _), _ => .error .isADirectory
  | _, none => .error .notFound
  | _, some (.file ..) => .error .notADirectory
  | found, some (.dir _) =>
    if endsInSlash p then .error .isADirectory
    else if found.isSome then return t.put l (.file content t.clock)
    else return t.add l (.file content t.clock)

/-- The tree without a file, or without a directory and all below it. -/
def remove (t : FileTree) (p : Path) : Except FileError FileTree := do
  let _ ← t.stat p
  let l ← t.locate p
  return { t with entries := t.entries.filter fun (k, _) => (wayDown? l k).isNone }.markChanged l.tail

/-- The tree with another time of the last change of what a path leads to. -/
def touch (t : FileTree) (p : Path) (time : Nat) : Except FileError FileTree := do
  let e ← t.stat p
  return t.put (← t.locate p) (e.touch time)

/-- The paths of all entries in the working directory, sorted; those of directories end in a slash. -/
def paths (t : FileTree) : List String :=
  ((t.below t.workingDir).map fun (k, e) =>
    "/".intercalate k ++ if e.isDir then "/" else "").mergeSort fun a b => a ≤ b

end FileTree

end GoScribe
