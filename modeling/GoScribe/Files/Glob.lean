import GoScribe.Files.FileTree

/-!
# Glob patterns

A pattern is matched segment by segment against the paths of a file tree.  In a segment `*` stands for
any text, `?` for any character, and `[...]` for a character of a set; the segment `**` stands for any
number of directories.
-/

namespace GoScribe

namespace Glob

/-- A range of characters. -/
structure CharRange where
  first : Char
  last : Char

/-- An element of a segment's pattern. -/
inductive Token where
  | char (c : Char)
  | anyChar
  | anyText
  | oneOf (ranges : List CharRange)
  | noneOf (ranges : List CharRange)

/-- The pattern of a segment. -/
inductive Segment where
  /-- A name without special characters. -/
  | literal (name : String)
  | wildcard (tokens : List Token)
  /-- Any number of directories. -/
  | directories

/-! ## Reading patterns -/

/-- The ranges that the text between brackets stands for. -/
def ranges : List Char → List CharRange
  | a :: '-' :: b :: cs => ⟨a, b⟩ :: ranges cs
  | a :: cs => ⟨a, a⟩ :: ranges cs
  | [] => []

/-- The text before the first closing bracket, and the text behind it. -/
def splitBracket? : List Char → Option (List Char × List Char)
  | [] => none
  | ']' :: cs => some ([], cs)
  | c :: cs => (splitBracket? cs).map fun (before, after) => (c :: before, after)

/-- The set behind an opening bracket: at least one character, which may be a closing bracket. -/
def charSet? : List Char → Option (List CharRange × List Char)
  | c :: cs => (splitBracket? cs).map fun (before, after) => (ranges (c :: before), after)
  | [] => none

/-- The elements of a segment's pattern, at most `fuel`; `none` if it is malformed. -/
def tokens? : (fuel : Nat) → List Char → Option (List Token)
  | 0, [] => some []
  | 0, _ :: _ => none
  | _ + 1, [] => some []
  | _ + 1, '*' :: '*' :: _ => none
  | n + 1, '*' :: cs => (tokens? n cs).map (.anyText :: ·)
  | n + 1, '?' :: cs => (tokens? n cs).map (.anyChar :: ·)
  | n + 1, '[' :: '!' :: cs => do
    let (set, rest) ← charSet? cs
    return .noneOf set :: (← tokens? n rest)
  | n + 1, '[' :: cs => do
    let (set, rest) ← charSet? cs
    return .oneOf set :: (← tokens? n rest)
  | n + 1, c :: cs => (tokens? n cs).map (.char c :: ·)

/-- The character that an element stands for, if it is a single one. -/
def Token.char? : Token → Option Char
  | char c => some c
  | _ => none

/-- The pattern of a segment; `none` if it is malformed. -/
def segment? (cs : List Char) : Option Segment :=
  if cs = ['*', '*'] then some .directories
  else do
    let tokens ← tokens? cs.length cs
    match tokens.mapM Token.char? with
    | some name => return .literal (String.ofList name)
    | none => return .wildcard tokens

/-! ## Matching names -/

/-- The suffixes of a list, the list itself first. -/
def suffixes {α : Type} : List α → List (List α)
  | [] => [[]]
  | a :: as => (a :: as) :: suffixes as

/-- A character lies in one of the ranges. -/
def inRanges (ranges : List CharRange) (c : Char) : Bool :=
  ranges.any fun r => r.first ≤ c && c ≤ r.last

/-- An element stands for a character; `anyText` stands for every one. -/
def Token.accepts (c : Char) : Token → Bool
  | char d => d == c
  | anyChar => true
  | anyText => true
  | oneOf set => inRanges set c
  | noneOf set => !inRanges set c

/-- Whether an element or a later one is true, for each element. -/
def anyFrom : List Bool → List Bool
  | [] => []
  | b :: bs =>
    let later := anyFrom bs
    (b || later.headD false) :: later

/-- Which of the suffixes of a text match a pattern, the text itself first.  All suffixes are treated
at once, so that the work is the product of the two lengths. -/
def matchingSuffixes : List Token → List Char → List Bool
  | [], cs => cs.map (fun _ => false) ++ [true]
  | .anyText :: ts, cs => anyFrom (matchingSuffixes ts cs)
  | t :: ts, cs =>
    List.zipWith (fun c later => t.accepts c && later) cs (matchingSuffixes ts cs).tail ++ [false]

/-- A text matches a pattern. -/
def matchesText (ts : List Token) (cs : List Char) : Bool := (matchingSuffixes ts cs).headD false

/-- There is at least one suffix. -/
theorem exists_matchingSuffixes_eq_cons (ts : List Token) (cs : List Char) :
    ∃ b bs, matchingSuffixes ts cs = b :: bs := by
  induction ts with
  | nil => cases cs <;> exact ⟨_, _, rfl⟩
  | cons t ts ih =>
    obtain ⟨b, bs, h⟩ := ih
    cases t <;> simp only [matchingSuffixes, h]
    case anyText => exact ⟨_, _, rfl⟩
    all_goals cases cs <;> cases bs <;> exact ⟨_, _, rfl⟩

/-- The empty text has no suffix but itself. -/
theorem tail_matchingSuffixes_nil (ts : List Token) : (matchingSuffixes ts []).tail = [] := by
  induction ts with
  | nil => rfl
  | cons t ts ih =>
    obtain ⟨b, bs, h⟩ := exists_matchingSuffixes_eq_cons ts []
    rw [h] at ih
    cases t <;> simp_all [matchingSuffixes, anyFrom]

/-- The suffixes of a text but the text itself are those of its rest. -/
theorem tail_matchingSuffixes_cons (ts : List Token) (c : Char) (cs : List Char) :
    (matchingSuffixes ts (c :: cs)).tail = matchingSuffixes ts cs := by
  induction ts with
  | nil => rfl
  | cons t ts ih =>
    obtain ⟨b, bs, h⟩ := exists_matchingSuffixes_eq_cons ts (c :: cs)
    obtain ⟨d, ds, k⟩ := exists_matchingSuffixes_eq_cons ts cs
    rw [h, List.tail_cons] at ih
    subst ih
    cases t <;> simp [matchingSuffixes, anyFrom, h, k]

/-- The empty pattern matches the empty text only. -/
theorem matchesText_nil (cs : List Char) : matchesText [] cs = cs.isEmpty := by
  cases cs <;> rfl

/-- An element that stands for one character matches nothing in the empty text. -/
theorem matchesText_cons_nil (t : Token) (ts : List Token) (h : t ≠ .anyText) :
    matchesText (t :: ts) [] = false := by
  cases t <;> first | contradiction | rfl

/-- An element that stands for one character matches the first one. -/
theorem matchesText_cons_cons (t : Token) (ts : List Token) (c : Char) (cs : List Char)
    (h : t ≠ .anyText) : matchesText (t :: ts) (c :: cs) = (t.accepts c && matchesText ts cs) := by
  obtain ⟨b, bs, k⟩ := exists_matchingSuffixes_eq_cons ts cs
  have tail := tail_matchingSuffixes_cons ts c cs
  cases t <;> first | contradiction | simp [matchesText, matchingSuffixes, tail, k]

/-- Any text in front means that some suffix matches what is left of the pattern. -/
theorem matchesText_anyText (ts : List Token) (cs : List Char) :
    matchesText (.anyText :: ts) cs = (suffixes cs).any (matchesText ts) := by
  induction cs with
  | nil =>
    obtain ⟨b, bs, h⟩ := exists_matchingSuffixes_eq_cons ts []
    have tail := tail_matchingSuffixes_nil ts
    rw [h, List.tail_cons] at tail
    subst tail
    simp [suffixes, matchesText, matchingSuffixes, anyFrom, h]
  | cons c cs ih =>
    obtain ⟨b, bs, h⟩ := exists_matchingSuffixes_eq_cons ts (c :: cs)
    have tail := tail_matchingSuffixes_cons ts c cs
    rw [h, List.tail_cons] at tail
    simp only [suffixes, List.any_cons, ← ih]
    simp [matchesText, matchingSuffixes, anyFrom, h, tail]

/-- A name matches the pattern of a segment. -/
def Segment.matchesName (s : Segment) (name : String) : Bool :=
  match s with
  | literal n => n == name
  | wildcard ts => matchesText ts name.toList
  | directories => true

/-! ## Matching paths -/

/-- A place that a pattern leads to: the path by which it is reached, and where that is. -/
structure Place where
  path : Path
  location : Location

namespace Place

/-- The path to `name` in the directory `p`; the working directory itself is not named. -/
def childPath (p : Path) (name : String) : Path :=
  if p.components = [.current] then ⟨name⟩ else p.join ⟨name⟩

/-- The place of `name` in a directory. -/
def child (d : Place) (name : String) : Place :=
  { path := childPath d.path name, location := FileTree.stepTo d.location name.toList }

/-- The place at the end of the way along `names` from a directory. -/
def below (d : Place) (names : List String) : Place :=
  { path := childPath d.path ("/".intercalate names), location := names.reverse ++ d.location }

/-- The place is a directory. -/
def isDir (t : FileTree) (d : Place) : Bool :=
  match t.get? d.location with
  | some (.dir _) => true
  | _ => false

/-- The place is a directory with something by the name in it, and the path to that is not empty. -/
def hasChild (t : FileTree) (d : Place) (name : String) : Bool :=
  d.isDir t && (t.get? (d.child name).location).isSome && (d.child name).path.text ≠ ""

end Place

/-- The children of the directory `d` whose name matches. -/
def matchingChildren (t : FileTree) (d : Place) (s : Segment) : List Place :=
  if d.isDir t then
    ((t.children d.location).filter fun (name, _) => s.matchesName name).map fun (name, _) =>
      d.child name
  else []

/-- The directory `d` and the one above it, as far as their names `.` and `..` match.  Only a pattern
with a dot in front means them. -/
def matchingDots (t : FileTree) (d : Place) : List Token → List Place
  | .char '.' :: ts =>
    if d.isDir t then
      ([".", ".."].filter fun name => matchesText (.char '.' :: ts) name.toList).map fun name =>
        { d.child name with path := d.path.join ⟨name⟩ }
    else []
  | _ => []

/-- The directory `d` and those below it. -/
def directoriesFrom (t : FileTree) (d : Place) : List Place :=
  if d.isDir t then d :: (t.dirsBelow d.location).map d.below else []

/-- The places that the segments of a pattern lead to from `d`. -/
def follow (t : FileTree) (d : Place) : List Segment → List Place
  | [] => [d]
  | [.directories] => (directoriesFrom t d).tail
  | .directories :: s :: ss =>
    (directoriesFrom t d).flatMap fun e =>
      (matchingChildren t e s).flatMap fun q => follow t q ss
  | .literal name :: ss => if d.hasChild t name then follow t (d.child name) ss else []
  | .wildcard tokens :: ss =>
    (matchingChildren t d (.wildcard tokens) ++ matchingDots t d tokens).flatMap fun q => follow t q ss

/-- Segments in which several that stand for directories, one behind the other, are one. -/
def collapse : List Segment → List Segment
  | .directories :: .directories :: ss => collapse (.directories :: ss)
  | s :: ss => s :: collapse ss
  | [] => []

/-- The segments of a pattern; `none` if one is malformed. -/
def segments? (cs : List Char) : Option (List Segment) :=
  ((Text.splitOn '/' cs).mapM segment?).map collapse

/-- The paths that match a pattern; `none` if the pattern is malformed. -/
def expand? (t : FileTree) (pattern : String) : Option (List Path) :=
  match pattern.toList with
  | '/' :: cs => (segments? cs).map fun ss => (follow t ⟨⟨"/"⟩, []⟩ ss).map Place.path
  | cs => (segments? cs).map fun ss => (follow t ⟨⟨"."⟩, t.workingDir⟩ ss).map Place.path

end Glob

end GoScribe
