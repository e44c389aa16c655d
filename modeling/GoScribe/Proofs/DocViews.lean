import GoScribe.Layout.Doc
import Mathlib.Tactic.Common

/-!
# Views of documents

Every view of a document goes through concatenation, so that the view of a rendering is put together
from the views of its parts.  `Doc.marks` keeps everything but the text; the imports, qualifiers,
diagnostics and refusals of a document are all read off it.
-/

namespace GoScribe

/-- The elements between separators, piece by piece. -/
theorem Text.flatMap_joinWith {α β : Type} (f : α → List β) (sep : List α) (xs : List (List α)) :
    (Text.joinWith sep xs).flatMap f =
      Text.joinWith (sep.flatMap f) (xs.map fun x => x.flatMap f) := by
  induction xs using Text.joinWith.induct with
  | case1 => rfl
  | case2 x => rfl
  | case3 x y xs ih =>
    rw [Text.joinWith, List.flatMap_append, List.flatMap_append, ih]
    rfl

namespace Doc

/-! ## Characters -/

@[simp] theorem chars_append (d e : Doc) : chars (d ++ e) = chars d ++ chars e :=
  List.flatMap_append

@[simp] theorem chars_str (s : String) : chars (str s) = s.toList := by
  simp [chars, str, Piece.chars]

@[simp] theorem chars_nil : chars [] = [] := rfl

@[simp] theorem chars_note (d : Diagnostic) : chars [.note d] = [] := rfl

@[simp] theorem chars_refuse (r : Refusal) : chars [.refuse r] = [] := rfl

@[simp] theorem chars_newline : chars newline = ['\n'] := rfl

@[simp] theorem chars_space : chars space = [' '] := rfl

@[simp] theorem chars_line (s : String) : chars (line s) = s.toList ++ ['\n'] := by
  rw [line, chars_append, chars_str, chars_newline]

@[simp] theorem chars_tabs (i : Indent) : chars (tabs i) = List.replicate i.tabs '\t' := by
  rw [tabs, chars_str, String.toList_ofList]

@[simp] theorem chars_endStatement_level (k : Nat) : chars (endStatement (.level k)) = ['\n'] := rfl

theorem chars_enclose (b : Bool) (d : Doc) :
    chars (enclose b d) = if b then '(' :: (chars d ++ [')']) else chars d := by
  unfold enclose
  split
  · rw [chars_append, chars_append, chars_str, chars_str]
    rfl
  · rfl

theorem chars_commaSep (ds : List Doc) :
    chars (commaSep ds) = Text.joinWith [',', ' '] (ds.map chars) := by
  rw [chars, commaSep, Text.flatMap_joinWith]
  rfl

/-! ## Marks -/

/-- A piece that only writes text. -/
def isText : Piece → Bool
  | .text _ => true
  | _ => false

/-- The pieces of a document that are more than text, in order. -/
def marks (d : Doc) : Doc := d.filter (!isText ·)

@[simp] theorem marks_nil : marks [] = [] := rfl

@[simp] theorem marks_append (d e : Doc) : marks (d ++ e) = marks d ++ marks e :=
  List.filter_append d e

@[simp] theorem marks_str (s : String) : marks (str s) = [] := rfl

@[simp] theorem marks_newline : marks newline = [] := rfl

@[simp] theorem marks_space : marks space = [] := rfl

@[simp] theorem marks_line (s : String) : marks (line s) = [] := rfl

@[simp] theorem marks_tabs (i : Indent) : marks (tabs i) = [] := rfl

@[simp] theorem marks_endStatement (i : Indent) : marks (endStatement i) = [] := by
  unfold endStatement
  split <;> rfl

@[simp] theorem marks_enclose (b : Bool) (d : Doc) : marks (enclose b d) = marks d := by
  unfold enclose
  split
  · rw [marks_append, marks_append, marks_str, marks_str, List.nil_append, List.append_nil]
  · rfl

@[simp] theorem marks_flatMap {α : Type} (f : α → Doc) (xs : List α) :
    marks (xs.flatMap f) = xs.flatMap fun x => marks (f x) :=
  List.filter_flatMap

@[simp] theorem marks_commaSep (ds : List Doc) : marks (commaSep ds) = ds.flatMap marks := by
  induction ds using Text.joinWith.induct with
  | case1 => rfl
  | case2 d => simp [commaSep, Text.joinWith]
  | case3 d e ds ih =>
    rw [commaSep, Text.joinWith, marks_append, marks_append, marks_str, List.append_nil,
      List.flatMap_cons, ← ih]
    rfl

/-! ## What the marks show -/

/-- A view that skips text is a view of the marks. -/
theorem filterMap_marks {α : Type} {f : Piece → Option α} (hf : ∀ s, f (.text s) = none) (d : Doc) :
    (marks d).filterMap f = d.filterMap f := by
  induction d with
  | nil => rfl
  | cons p d ih =>
    cases p with
    | text s => rw [List.filterMap_cons_none (hf s), ← ih]; rfl
    | _ =>
      show List.filterMap f (_ :: marks d) = _
      rw [List.filterMap_cons, List.filterMap_cons, ih]

theorem uses_marks (d : Doc) : uses (marks d) = uses d := filterMap_marks (fun _ => rfl) d

theorem qualifiers_marks (d : Doc) : qualifiers (marks d) = qualifiers d :=
  filterMap_marks (fun _ => rfl) d

theorem diagnostics_marks (d : Doc) : diagnostics (marks d) = diagnostics d :=
  filterMap_marks (fun _ => rfl) d

theorem refusal?_marks (d : Doc) : refusal? (marks d) = refusal? d := by
  unfold refusal?
  rw [← List.head?_filterMap, ← List.head?_filterMap, filterMap_marks (fun _ => rfl)]

end Doc

end GoScribe
