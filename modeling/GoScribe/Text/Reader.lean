/-!
# Readers

A reader takes characters from the front of a text and gives a result, or fails.
-/

namespace GoScribe

/-- A reader of the characters in front of a text. -/
abbrev Reader := StateT (List Char) Option

namespace Reader

variable {α : Type}

/-- The reader that fails. -/
def fail : Reader α := fun _ => none

/-- The next character, which stays unread. -/
def peek : Reader (Option Char) := fun cs => some (cs.head?, cs)

/-- The next character. -/
def next : Reader Char
  | [] => none
  | c :: cs => some (c, cs)

/-- The longest run of characters of a class. -/
def run (p : Char → Bool) : Reader (List Char) := fun cs => some (cs.takeWhile p, cs.dropWhile p)

/-- The longest run of characters of a class, which may not be empty. -/
def run1 (p : Char → Bool) : Reader (List Char) := do
  let cs ← run p
  if cs.isEmpty then fail else return cs

/-- The character `c`, if it is next. -/
def optional (c : Char) : Reader Bool
  | [] => some (false, [])
  | d :: cs => if d = c then some (true, cs) else some (false, d :: cs)

/-- The characters of `word`. -/
def word : List Char → Reader Unit
  | [] => return
  | c :: cs => do
    if (← next) = c then word cs else fail

/-- The characters of `cs`, if they are next. -/
def optionalWord (cs : List Char) : Reader Bool := fun text =>
  match word cs text with
  | some (_, rest) => some (true, rest)
  | none => some (false, text)

/-- Exactly `n` characters of a class. -/
def exactly (p : Char → Bool) : Nat → Reader (List Char)
  | 0 => return []
  | n + 1 => do
    let c ← next
    if p c then return c :: (← exactly p n) else fail

/-- Nothing is left to read. -/
def atEnd : Reader Bool := fun cs => some (cs.isEmpty, cs)

/-- The result of a reader that takes all of a text. -/
def parse? (r : Reader α) (text : String) : Option α :=
  match r text.toList with
  | some (a, []) => some a
  | _ => none

end Reader

/-- The value of a hexadecimal digit. -/
def hexValue? (c : Char) : Option Nat :=
  if c.isDigit then some (c.toNat - 48)
  else if 'a' ≤ c && c ≤ 'f' then some (c.toNat - 87)
  else if 'A' ≤ c && c ≤ 'F' then some (c.toNat - 55)
  else none

/-- The number that `n` hexadecimal digits stand for. -/
def Reader.hex : Nat → Reader Nat
  | 0 => return 0
  | n + 1 => do
    let high ← hexValue? (← next)
    return high * Nat.pow 16 n + (← hex n)

end GoScribe
