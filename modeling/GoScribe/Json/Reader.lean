import GoScribe.Json.Value
import GoScribe.Number.Reading
import GoScribe.Text.Reader

/-!
# Reading JSON text

Strict JSON: one value between blanks, no trailing commas, no comments, no leading zeros, and no
control characters in strings.
-/

namespace GoScribe

namespace Json

open Reader

/-- The white space of JSON. -/
def isBlank (c : Char) : Bool :=
  c == ' ' || c == '\n' || c == '\t' || c == '\r'

/-- White space, of which there may be none. -/
def blanks : Reader Unit := do
  let _ ← run isBlank

/-! ## Numbers -/

/-- The value of a number text.  Without fraction and exponent it is an integer, if it fits 64 bits
and is not a negative zero. -/
def numberValue (negative : Bool) (whole : List Char) (fraction : Option (List Char))
    (exponent : Option Int) : Json :=
  let n := digitsValue whole
  let asFloat :=
    match Double.ofDecimal? negative whole (fraction.getD []) (exponent.getD 0) with
    | some d => float d
    | none => unreadable
  if fraction.isSome || exponent.isSome then asFloat
  else if negative then if 0 < n && n ≤ Nat.pow 2 63 then int (-n) else asFloat
  else if n < UInt64.size then int n
  else asFloat

/-- The fraction behind a number, if there is one. -/
def fraction : Reader (Option (List Char)) := do
  if ← optional '.' then return some (← run1 Char.isDigit) else return none

/-- The exponent behind a number, if there is one. -/
def exponent : Reader (Option Int) := do
  let marked ← if ← optional 'e' then pure true else optional 'E'
  if marked then
    let negative ← optional '-'
    if !negative then
      let _ ← optional '+'
    let n : Int := digitsValue (← run1 Char.isDigit)
    return some (if negative then -n else n)
  else return none

/-- A number. -/
def number : Reader Json := do
  let negative ← optional '-'
  let whole ← run1 Char.isDigit
  if whole.head? = some '0' && whole.length > 1 then fail
  else return numberValue negative whole (← fraction) (← exponent)

/-! ## Strings -/

/-- An element of a string: a character, or half of a surrogate pair given by an escape. -/
inductive StringUnit where
  | char (c : Char)
  | high (bits : Nat)
  | low (bits : Nat)

/-- The string element of a 16-bit code unit. -/
def unitOf (n : Nat) : StringUnit :=
  if 0xD800 ≤ n && n < 0xDC00 then .high (n - 0xD800)
  else if 0xDC00 ≤ n && n < 0xE000 then .low (n - 0xDC00)
  else .char (Char.ofNat n)

/-- An escape, behind its backslash. -/
def escape : Reader StringUnit := do
  match ← next with
  | '"' => return .char '"'
  | '\\' => return .char '\\'
  | '/' => return .char '/'
  | 'b' => return .char '\x08'
  | 'f' => return .char '\x0c'
  | 'n' => return .char '\n'
  | 'r' => return .char '\r'
  | 't' => return .char '\t'
  | 'u' => return unitOf (← hex 4)
  | _ => fail

/-- The text of string elements; `none` if half of a surrogate pair stands alone. -/
def textOfUnits? : List StringUnit → Option (List Char)
  | [] => some []
  | .char c :: us => (textOfUnits? us).map (c :: ·)
  | .high h :: .low l :: us => (textOfUnits? us).map (Char.ofNat (0x10000 + h * 0x400 + l) :: ·)
  | _ => none

/-- The elements of a string up to its closing quote, at most `fuel` with the quote. -/
def stringUnits : Nat → Reader (List StringUnit)
  | 0 => fail
  | fuel + 1 => do
    let c ← next
    if c = '"' then return []
    else if c = '\\' then
      let u ← escape
      return u :: (← stringUnits fuel)
    else if c.toNat < 0x20 then fail
    else return .char c :: (← stringUnits fuel)

/-- A string, behind its opening quote, of less than `fuel` elements; its text is `none` if it stands
for none. -/
def string (fuel : Nat) : Reader (Option String) := do
  return (textOfUnits? (← stringUnits fuel)).map String.ofList

/-! ## Values -/

/-- The object of the given members; an object with a key that stands for no text is unreadable. -/
def ofMembers (members : List (Option String × Json)) : Json :=
  match members.mapM fun (k, v) => k.map (·, v) with
  | some members => obj members
  | none => unreadable

mutual

/-- A value behind blanks; `fuel` bounds the nested calls and the length of strings. -/
def value : Nat → Reader Json
  | 0 => fail
  | fuel + 1 => do
    blanks
    match ← peek with
    | some '"' =>
      let _ ← next
      match ← string fuel with
      | some s => return str s
      | none => return unreadable
    | some '[' =>
      let _ ← next
      blanks
      if ← optional ']' then return arr [] else return arr (← elems fuel)
    | some '\x7b' =>
      let _ ← next
      blanks
      if ← optional '\x7d' then return obj [] else return ofMembers (← members fuel)
    | some 'n' =>
      word ['n', 'u', 'l', 'l']
      return null
    | some 't' =>
      word ['t', 'r', 'u', 'e']
      return bool true
    | some 'f' =>
      word ['f', 'a', 'l', 's', 'e']
      return bool false
    | _ => number

/-- The elements of an array, which has at least one, up to its closing bracket. -/
def elems : Nat → Reader (List Json)
  | 0 => fail
  | fuel + 1 => do
    let v ← value fuel
    blanks
    if ← optional ']' then return [v]
    else if ← optional ',' then return v :: (← elems fuel)
    else fail

/-- The members of an object, which has at least one, up to its closing brace. -/
def members : Nat → Reader (List (Option String × Json))
  | 0 => fail
  | fuel + 1 => do
    blanks
    word ['"']
    let k ← string fuel
    blanks
    word [':']
    let v ← value fuel
    blanks
    if ← optional '\x7d' then return [(k, v)]
    else if ← optional ',' then return (k, v) :: (← members fuel)
    else fail

end

/-- The value of a JSON text.  Of two nested calls at least one reads a character, so twice the length
of the text bounds their number. -/
def parse? (text : String) : Option Json :=
  Reader.parse? (do
    let v ← value (2 * text.length + 2)
    blanks
    return v) text

end Json

end GoScribe
