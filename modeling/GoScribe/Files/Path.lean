import GoScribe.Text.Split

/-!
# Paths

A path is a text whose segments are divided by slashes.  The text is kept as it was given, because it
is shown in messages; `components` is what it means.
-/

namespace GoScribe

/-- A path in a file system. -/
structure Path where
  text : String
deriving DecidableEq, Repr

namespace Path

/-- A part of a path. -/
inductive Component where
  | root
  /-- A dot at the start of a relative path; dots further on mean nothing. -/
  | current
  | parent
  | normal (name : String)
deriving DecidableEq, Repr

/-- The text of a component. -/
def Component.text : Component → String
  | root => "/"
  | current => "."
  | parent => ".."
  | normal name => name

/-- The component that a segment is, unless it is empty or a dot. -/
def componentOf? (segment : List Char) : Option Component :=
  match segment with
  | [] => none
  | ['.'] => none
  | ['.', '.'] => some .parent
  | _ => some (.normal (String.ofList segment))

/-- The components of a text. -/
def componentsOf (cs : List Char) : List Component :=
  match Text.splitOn '/' cs with
  | [] => []
  | [] :: segments =>
    if cs.isEmpty then [] else .root :: segments.filterMap componentOf?
  | ['.'] :: segments => .current :: segments.filterMap componentOf?
  | segments => segments.filterMap componentOf?

/-- The components of a path. -/
def components (p : Path) : List Component := componentsOf p.text.toList

/-- The path starts at the root. -/
def isAbsolute (p : Path) : Bool := p.text.toList.head? = some '/'

/-- `q` seen from the directory `p`.  An absolute path stays what it is; an empty one leaves `p` with a
slash behind it. -/
def join (p q : Path) : Path :=
  if q.isAbsolute || p.text = "" then q
  else if p.text.toList.getLast? = some '/' then ⟨p.text ++ q.text⟩
  else ⟨p.text ++ "/" ++ q.text⟩

/-- The last component, if it is a name. -/
def fileName? (p : Path) : Option String :=
  match p.components.getLast? with
  | some (.normal name) => some name
  | _ => none

/-! ## Parents and extensions -/

/-- The start of a path that is no segment: the slash of an absolute path, or the dot in front of a
relative one; and the text behind it. -/
def splitStart (cs : List Char) : List Char × List Char :=
  match cs with
  | '/' :: rest => (['/'], rest)
  | ['.'] => (['.'], [])
  | '.' :: '/' :: rest => (['.'], '/' :: rest)
  | _ => ([], cs)

/-- Segments in reverse order without those in front that are no component. -/
def dropEmpty (segments : List (List Char)) : List (List Char) :=
  segments.dropWhile fun s => (componentOf? s).isNone

/-- The path without its last component. -/
def parent? (p : Path) : Option Path :=
  let (start, body) := splitStart p.text.toList
  match dropEmpty (Text.splitOn '/' body).reverse with
  | _ :: before =>
    some ⟨String.ofList (start ++ Text.joinWith ['/'] (dropEmpty before).reverse)⟩
  | [] => if start = ['.'] then some ⟨""⟩ else none

/-- A name without its extension, which is the text from the last dot on; a dot in front of the name
opens none. -/
def stem (name : List Char) : List Char :=
  match Text.splitLast? '.' name with
  | some (before, _) => if before.isEmpty then name else before
  | none => name

/-- The path without the extension of its last component, if that is a name.  The extension goes
before its dot, so that two dots which are left alone at the end stay: they mean the directory above
and are no name. -/
def withoutExtension (p : Path) : Path :=
  let (start, body) := splitStart p.text.toList
  let segments := (Text.splitOn '/' body).reverse
  match dropEmpty segments with
  | ['.', '.'] :: _ => p
  | name :: before =>
    let kept := if stem name = ['.'] && segments.head? = some name then ['.', '.'] else stem name
    ⟨String.ofList (start ++ Text.joinWith ['/'] (kept :: before).reverse)⟩
  | [] => p

/-- The components of `p` behind those of `base`, if it has them. -/
def relativeTo? (p base : Path) : Option Path :=
  if base.components.isPrefixOf p.components then
    let rest := (p.components.drop base.components.length).map (·.text.toList)
    some ⟨String.ofList (Text.joinWith ['/'] rest)⟩
  else none

/-! ## Order -/

/-- The place of a component among those of other kinds. -/
def Component.rank : Component → Nat
  | root => 0
  | current => 1
  | parent => 2
  | normal _ => 3

/-- The order of components: by kind, names by their characters. -/
def Component.le (a b : Component) : Bool :=
  match a, b with
  | normal m, normal n => m ≤ n
  | _, _ => a.rank ≤ b.rank

/-- The order of lists of components, where the first that differ decide. -/
def componentsLe : List Component → List Component → Bool
  | [], _ => true
  | _ :: _, [] => false
  | a :: as, b :: bs => if a = b then componentsLe as bs else a.le b

/-- The order of paths, by their components: what is in a directory comes right behind it. -/
def le (p q : Path) : Bool := componentsLe p.components q.components

end Path

end GoScribe
