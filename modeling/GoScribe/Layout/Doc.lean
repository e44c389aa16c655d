import GoScribe.Ast.Module
import GoScribe.Layout.Indent
import GoScribe.Render.Diagnostic

/-!
# Documents

Rendering produces a document: the pieces of text in order, and between them the imports that the
text needs, the diagnostics for placeholders, and the refusals.  Documents are concatenated, so every
fact about a rendering is read off its parts through the views below.
-/

namespace GoScribe

/-- A step of a rendering. -/
inductive Piece where
  /-- Text that is written. -/
  | text (s : String)
  /-- The local name of a package, written with a dot in front of a symbol. -/
  | qualifier (goName : String)
  /-- An import that the text needs. -/
  | use (i : Import)
  /-- A placeholder was written. -/
  | note (d : Diagnostic)
  /-- The rendering fails. -/
  | refuse (r : Refusal)
deriving DecidableEq, Repr

/-- A rendering: its steps in order. -/
abbrev Doc := List Piece

namespace Piece

/-- The characters that a piece writes. -/
def chars : Piece → List Char
  | text s => s.toList
  | qualifier goName => goName.toList ++ ['.']
  | _ => []

/-- The import that a piece asks for. -/
def use? : Piece → Option Import
  | use i => some i
  | _ => none

/-- The package name that a piece writes in front of a symbol. -/
def qualifier? : Piece → Option String
  | qualifier goName => some goName
  | _ => none

/-- The diagnostic that a piece notes. -/
def note? : Piece → Option Diagnostic
  | note d => some d
  | _ => none

/-- The refusal that a piece is. -/
def refusal? : Piece → Option Refusal
  | refuse r => some r
  | _ => none

end Piece

namespace Doc

/-! ## Views -/

/-- The characters that a document writes. -/
def chars (d : Doc) : List Char := d.flatMap Piece.chars

/-- The text that a document writes. -/
def text (d : Doc) : String := String.ofList d.chars

/-- The imports that a document asks for, in order. -/
def uses (d : Doc) : List Import := d.filterMap Piece.use?

/-- The package names that a document writes in front of symbols, in order. -/
def qualifiers (d : Doc) : List String := d.filterMap Piece.qualifier?

/-- The diagnostics of a document, in order. -/
def diagnostics (d : Doc) : List Diagnostic := d.filterMap Piece.note?

/-- The first refusal of a document. -/
def refusal? (d : Doc) : Option Refusal := d.findSome? Piece.refusal?

/-! ## Building documents -/

/-- A document that writes `s`. -/
def str (s : String) : Doc := [.text s]

/-- A line end. -/
def newline : Doc := str "\n"

/-- A space. -/
def space : Doc := str " "

/-- A whole line. -/
def line (s : String) : Doc := str s ++ newline

/-- The tabs in front of a line at `i`. -/
def tabs (i : Indent) : Doc := str (String.ofList (List.replicate i.tabs '\t'))

/-- The line end that a node in statement position writes behind itself. -/
def endStatement (i : Indent) : Doc := if i.isStatement then newline else []

/-- A document between parentheses, if `b` asks for them. -/
def enclose (b : Bool) (d : Doc) : Doc := if b then str "(" ++ d ++ str ")" else d

/-- Documents with a comma between each two. -/
def commaSep (ds : List Doc) : Doc := Text.joinWith (str ", ") ds

end Doc

end GoScribe
