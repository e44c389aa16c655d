import GoScribe.Text.Reader
import GoScribe.Toml.Scalar
import GoScribe.Toml.Value

/-!
# Reading TOML text

TOML 1.0.  Arrays and inline tables may nest `Toml.nestingLimit` deep, and a key has at most as many
parts.
-/

namespace GoScribe

namespace Toml

open Reader

/-- How deep arrays and inline tables may nest, and how many parts a key may have. -/
def nestingLimit : Nat := 127

/-! ## Blanks and comments -/

/-- Blanks in a line. -/
def isBlank (c : Char) : Bool := c == ' ' || c == '\t'

/-- Characters that may stand in comments and strings as they are. -/
def isPrintable (c : Char) : Bool := c == '\t' || (0x20 ≤ c.toNat && c.toNat ≠ 0x7F)

/-- Blanks, of which there may be none. -/
def blanks : Reader Unit := do
  let _ ← run isBlank

/-- The end of a line, if it is next. -/
def optionalLineEnd : Reader Bool := do
  if ← optional '\n' then return true else optionalWord ['\r', '\n']

/-- A comment, if it is next. -/
def optionalComment : Reader Bool := do
  if ← optional '#' then
    let _ ← run isPrintable
    return true
  else return false

/-- The rest of a line: blanks, perhaps a comment, and the end of the line or of the text. -/
def restOfLine : Reader Unit := do
  blanks
  let _ ← optionalComment
  if !(← atEnd) && !(← optionalLineEnd) then fail

/-- Blanks, line ends and comments, at most `fuel` of them. -/
def gap : (fuel : Nat) → Reader Unit
  | 0 => return
  | fuel + 1 => do
    blanks
    if ← optionalComment then
      if ← optionalLineEnd then gap fuel else fail
    else if ← optionalLineEnd then gap fuel
    else return

/-! ## Strings -/

/-- The character of a code point. -/
def charOf? (n : Nat) : Option Char :=
  if n.isValidChar then some (Char.ofNat n) else none

/-- An escape, behind its backslash. -/
def escape : Reader Char := do
  match ← next with
  | '"' => return '"'
  | '\\' => return '\\'
  | 'b' => return '\x08'
  | 'f' => return '\x0c'
  | 'n' => return '\n'
  | 'r' => return '\r'
  | 't' => return '\t'
  | 'u' => charOf? (← hex 4)
  | 'U' => charOf? (← hex 8)
  | _ => fail

/-- A string in one line up to its closing quote, of less than `fuel` characters. -/
def basicString : (fuel : Nat) → Reader (List Char)
  | 0 => fail
  | fuel + 1 => do
    let c ← next
    if c = '"' then return []
    else if c = '\\' then
      let d ← escape
      return d :: (← basicString fuel)
    else if isPrintable c then return c :: (← basicString fuel)
    else fail

/-- A string without escapes in one line, up to its closing quote. -/
def literalString : Reader (List Char) := do
  let cs ← run fun c => isPrintable c && c != '\x27'
  word ['\x27']
  return cs

/-- The quotes at the end of a string of several lines: three close it, and up to two in front of them
belong to it.  `none` if there are less than three, so that all belong to it. -/
def closingQuotes (quote : Char) (count : Nat) : Option (Option (List Char)) :=
  if count < 3 then some none
  else if count ≤ 5 then some (some (List.replicate (count - 3) quote))
  else none

/-- Blanks and at least one line end behind a backslash, which are left out; at most `fuel` lines. -/
def skippedLines : (fuel : Nat) → Reader Unit
  | 0 => return
  | fuel + 1 => do
    blanks
    if ← optionalLineEnd then skippedLines fuel else return

/-- A line end that a backslash in front of it takes away, if it is next. -/
def optionalJoin (fuel : Nat) : Reader Bool := fun cs =>
  match (do blanks; optionalLineEnd : Reader Bool) cs with
  | some (true, rest) => (do skippedLines fuel; return true : Reader Bool) rest
  | _ => some (false, cs)

/-- A string of several lines up to its closing quotes, of less than `fuel` parts. -/
def longString (quote : Char) (escapes : Bool) : (fuel : Nat) → Reader (List Char)
  | 0 => fail
  | fuel + 1 => do
    if (← peek) = some quote then
      let quotes ← run (· == quote)
      match ← closingQuotes quote quotes.length with
      | some last => return last
      | none => return quotes ++ (← longString quote escapes fuel)
    else if ← optionalLineEnd then return '\n' :: (← longString quote escapes fuel)
    else
      let c ← next
      if escapes && c = '\\' then
        if ← optionalJoin fuel then longString quote escapes fuel
        else
          let d ← escape
          return d :: (← longString quote escapes fuel)
      else if isPrintable c then return c :: (← longString quote escapes fuel)
      else fail

/-- A string of several lines, behind its opening quotes; a line end in front is left out. -/
def longStringBody (quote : Char) (escapes : Bool) (fuel : Nat) : Reader (List Char) := do
  let _ ← optionalLineEnd
  longString quote escapes fuel

/-- A string of any form. -/
def string (fuel : Nat) : Reader String := do
  if ← optionalWord ['"', '"', '"'] then return String.ofList (← longStringBody '"' true fuel)
  else if ← optional '"' then return String.ofList (← basicString fuel)
  else if ← optionalWord ['\x27', '\x27', '\x27'] then
    return String.ofList (← longStringBody '\x27' false fuel)
  else
    word ['\x27']
    return String.ofList (← literalString)

/-! ## Keys -/

/-- Characters of keys without quotes. -/
def isKeyChar (c : Char) : Bool := c.isAlphanum || c == '_' || c == '-'

/-- A key without dots. -/
def simpleKey (fuel : Nat) : Reader String := do
  if ← optional '"' then return String.ofList (← basicString fuel)
  else if ← optional '\x27' then return String.ofList (← literalString)
  else return String.ofList (← run1 isKeyChar)

/-- A key of at most `parts` parts, with blanks around them; `fuel` bounds their length. -/
def keyParts (fuel : Nat) : (parts : Nat) → Reader (List String)
  | 0 => fail
  | parts + 1 => do
    blanks
    let k ← simpleKey fuel
    blanks
    if ← optional '.' then return k :: (← keyParts fuel parts) else return [k]

/-- A key; `fuel` bounds the length of its parts. -/
def key (fuel : Nat) : Reader (List String) := keyParts fuel nestingLimit

/-! ## Values -/

/-- Characters of numbers, dates and times. -/
def isScalarChar (c : Char) : Bool :=
  c.isAlphanum || c == '_' || c == '-' || c == '+' || c == '.' || c == ':'

/-- The time behind a date and a blank, if it is next. -/
def spacedTime : Reader (Option (List Char)) := fun cs =>
  match cs with
  | ' ' :: c :: rest =>
    if c.isDigit then
      let time := (c :: rest).takeWhile isScalarChar
      if isOffsetTime time then some (some time, (c :: rest).dropWhile isScalarChar) else none
    else some (none, cs)
  | _ => some (none, cs)

/-- A truth value, a number, a date or a time. -/
def scalar : Reader Toml := do
  let cs ← run1 isScalarChar
  if cs = ['t', 'r', 'u', 'e'] then return bool true
  else if cs = ['f', 'a', 'l', 's', 'e'] then return bool false
  else if isNumber cs then return number (String.ofList cs)
  else if isDate cs then
    match ← spacedTime with
    | some time => return moment (String.ofList (cs ++ ' ' :: time))
    | none => return moment (String.ofList cs)
  else if isMoment cs then return moment (String.ofList cs)
  else fail

/-- The elements of an array up to its closing bracket, given a reader of values. -/
def elemsWith (value : Reader Toml) (gapFuel : Nat) : (fuel : Nat) → Reader (List Toml)
  | 0 => fail
  | fuel + 1 => do
    gap gapFuel
    if ← optional ']' then return []
    else
      let v ← value
      gap gapFuel
      if ← optional ',' then return v :: (← elemsWith value gapFuel fuel)
      else
        word [']']
        return [v]

/-- The members of an inline table, which has at least one, up to its closing brace, given a reader of
values. -/
def membersWith (value : Reader Toml) (keyFuel : Nat) (members : Members) :
    (fuel : Nat) → Reader Members
  | 0 => fail
  | fuel + 1 => do
    let path ← key keyFuel
    word ['=']
    blanks
    let v ← value
    blanks
    let members ← insert? TableOrigin.isOpenInBraces path v members
    if ← optional ',' then membersWith value keyFuel members fuel
    else
      word ['\x7d']
      return members

/-- A value that may hold `levels` nested arrays and tables; `fuel` bounds the length of its parts. -/
def value (fuel : Nat) : (levels : Nat) → Reader Toml
  | 0 => do
    match ← peek with
    | some '"' => return str (← string fuel)
    | some '\x27' => return str (← string fuel)
    | _ => scalar
  | levels + 1 => do
    match ← peek with
    | some '"' => return str (← string fuel)
    | some '\x27' => return str (← string fuel)
    | some '[' =>
      let _ ← next
      return arr (← elemsWith (value fuel levels) fuel fuel)
    | some '\x7b' =>
      let _ ← next
      blanks
      if ← optional '\x7d' then return table .inline []
      else return table .inline (← membersWith (value fuel levels) fuel [] fuel)
    | _ => scalar

/-! ## Documents -/

/-- A line of a document; `fuel` bounds the length of its parts. -/
def line (fuel : Nat) : Reader TomlLine := do
  blanks
  match ← peek with
  | none => return .blank
  | some '\n' =>
    restOfLine
    return .blank
  | some '\r' =>
    restOfLine
    return .blank
  | some '#' =>
    restOfLine
    return .blank
  | some '[' =>
    let _ ← next
    if ← optional '[' then
      let path ← key fuel
      word [']', ']']
      restOfLine
      return .elementHeader path
    else
      let path ← key fuel
      word [']']
      restOfLine
      return .header path
  | some _ =>
    let path ← key fuel
    word ['=']
    blanks
    let v ← value fuel nestingLimit
    restOfLine
    return .keyValue path v

/-- The document that starts with `d` and goes on with at most `fuel` lines. -/
def document (length : Nat) : (fuel : Nat) → TomlDocument → Reader TomlDocument
  | 0, d => return d
  | fuel + 1, d => do
    let d ← d.add? (← line length)
    if ← atEnd then return d else document length fuel d

/-- The table of a TOML text, in front of which there may be a byte order mark. -/
def parse? (text : String) : Option Members :=
  Reader.parse? (do
    let _ ← optional '\ufeff'
    let d ← document (text.length + 1) (text.length + 1) {}
    return d.members) text

end Toml

end GoScribe
