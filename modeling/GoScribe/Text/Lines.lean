import GoScribe.Text.Split

/-!
# Lines, padding and trailing blanks

`lines` cuts a text at line feeds, `padRight` fills a name up to a column, and `trimEnd` drops the
white space at the end of a text.
-/

namespace GoScribe.Text

/-- A line without the one carriage return that may stand before its line feed. -/
def dropCarriageReturn (cs : List Char) : List Char :=
  match cs.reverse with
  | '\r' :: rest => rest.reverse
  | _ => cs

/-- The lines of the pieces of a text between its line feeds: every piece but the last was ended by
a line feed, and the last is a line only if it is not empty. -/
def linesOfPieces : List (List Char) → List (List Char)
  | [] => []
  | [last] => if last.isEmpty then [] else [last]
  | p :: q :: ps => dropCarriageReturn p :: linesOfPieces (q :: ps)

/-- The lines of a text.  A line ends at a line feed, with or without a carriage return before it; a
line feed at the end of the text opens no further line. -/
def lines (cs : List Char) : List (List Char) :=
  linesOfPieces (splitOn '\n' cs)

/-- `cs` followed by as many spaces as it lacks to `width` characters. -/
def padRight (cs : List Char) (width : Nat) : List Char :=
  cs ++ List.replicate (width - cs.length) ' '

/-- The characters with the Unicode property `White_Space`. -/
def isBlank (c : Char) : Bool :=
  let n := c.toNat
  (9 ≤ n && n ≤ 13) || n == 0x20 || n == 0x85 || n == 0xA0 || n == 0x1680 ||
    (0x2000 ≤ n && n ≤ 0x200A) || n == 0x2028 || n == 0x2029 || n == 0x202F || n == 0x205F ||
    n == 0x3000

/-- A text without the white space at its end. -/
def trimEnd : List Char → List Char
  | [] => []
  | c :: cs =>
    match trimEnd cs with
    | [] => if isBlank c then [] else [c]
    | d :: ds => c :: d :: ds

end GoScribe.Text
