import GoScribe.Proofs.Delimiters
import GoScribe.Proofs.StmtReadback

/-!
# The parts of a node

The text of a node is text of its own and the texts of the nodes inside it, its parts.  Some of them stand
between brackets that the node writes.  `Env.segments` cuts the text of a node up in this way, and
`Node.parts` says which parts there are and between which brackets they stand.
-/

namespace GoScribe

/-! ## Brackets -/

/-- A sort of brackets. -/
inductive Bracket where
  | round
  | square
  | curly
deriving DecidableEq, Repr

namespace Bracket

/-- The character that opens a bracket. -/
@[simp] def opening : Bracket → Char
  | round => '('
  | square => '['
  | curly => '\x7b'

/-- The character that closes a bracket. -/
@[simp] def closing : Bracket → Char
  | round => ')'
  | square => ']'
  | curly => '\x7d'

theorem mem_brackets (b : Bracket) : (b.opening, b.closing) ∈ Go.brackets := by
  cases b <;> decide

/-- The parentheses around an operand that needs them. -/
def parens? (b : Bool) : Option Bracket :=
  if b then some round else none

end Bracket

/-! ## Segments -/

/-- A stretch of the text of a node: text of its own, or that of a part. -/
inductive Stretch where
  | text (d : Doc)
  | part (i : Indent) (n : Node)

namespace Stretch

/-- The characters of a stretch. -/
@[simp] def chars (env : Env) : Stretch → List Char
  | text d => d.chars
  | part i n => (env.node i n).chars

/-- The part that a stretch is. -/
@[simp] def parts : Stretch → List Node
  | text _ => []
  | part _ n => [n]

/-- Stretches with a comma between each two. -/
def commaSep (xss : List (List Stretch)) : List Stretch :=
  Text.joinWith [.text (Doc.str ", ")] xss

/-- Nodes in one line. -/
def nodes (i : Indent) (ns : List Node) : List Stretch :=
  commaSep (ns.map fun n => [.part i n])

/-- A field of a composite literal. -/
def field (i : Indent) (f : FieldValue) : List Stretch :=
  match f.name with
  | none => [.part i f.value]
  | some name => [.text (Doc.str name ++ Doc.str ": "), .part i f.value]

/-- A node as a line of a block. -/
def statementLine (i : Indent) (n : Node) : List Stretch :=
  if n.isStatement then [.part i n] else [.text (Doc.tabs i), .part i n, .text Doc.newline]

/-- What stands between the braces of a block that closes at `i`. -/
def lines (i : Indent) (ns : List Node) : List Stretch :=
  .text Doc.newline :: (ns.flatMap (statementLine i.deeper) ++ [.text (Doc.tabs i)])

/-- The clauses of a loop between `for` and the body. -/
def clauses (i : Indent) (init : List LoopVar) (cond : Option Node) (step : List LoopStep) :
    List Stretch :=
  if init.isEmpty && step.isEmpty then
    match cond with
    | some c => [.part i c, .text Doc.space]
    | none => []
  else
    (if init.isEmpty then []
      else .text (Doc.commaSep ((init.map LoopVar.name).map Doc.str) ++ Doc.str " := ") ::
        nodes i (init.map LoopVar.value)) ++
      .text (Doc.str "; ") :: (cond.toList.map (.part i) ++ .text (Doc.str ";") ::
        ((if step.isEmpty then []
          else .text Doc.space :: (nodes i (step.map LoopStep.left) ++
            .text (Doc.str " = ") :: nodes i (step.map LoopStep.right))) ++ [.text Doc.space]))

end Stretch

/-- Stretches one after another, between brackets or not. -/
structure Segment where
  bracket : Option Bracket
  inner : List Stretch

namespace Segment

/-- The characters of a segment. -/
def chars (env : Env) (s : Segment) : List Char :=
  s.bracket.toList.map Bracket.opening ++ (s.inner.flatMap (Stretch.chars env) ++
    s.bracket.toList.map Bracket.closing)

/-- The parts in a segment, each with the bracket that it stands in. -/
def parts (s : Segment) : List (Option Bracket × Node) :=
  (s.inner.flatMap Stretch.parts).map (s.bracket, ·)

/-- Text of the node's own. -/
def own (d : Doc) : Segment := ⟨none, [.text d]⟩

/-- A part without brackets. -/
def of (i : Indent) (n : Node) : Segment := ⟨none, [.part i n]⟩

/-- An operand, in parentheses if it needs them under `parent`. -/
def operand (parent : Parent) (i : Indent) (n : Node) : Segment :=
  ⟨Bracket.parens? (n.needsParens parent), [.part i n]⟩

/-- A node where a block is wanted. -/
def block (i : Indent) (n : Node) : Segment :=
  match n with
  | .block stmts => of i (.block stmts)
  | n => ⟨some .curly, Stretch.lines i [n]⟩

/-- The text of a condition or a loop in front of its body. -/
def header (i : Indent) : Node → List Stretch
  | .ifElse cond _ _ => [.text (Doc.str "if "), .part i cond, .text Doc.space]
  | .forRange item items _ =>
    [.text (Doc.str "for _, " ++ Doc.str item ++ Doc.str " := range "), .part i items, .text Doc.space]
  | .forClassic init cond step _ => .text (Doc.str "for ") :: Stretch.clauses i init cond step
  | .forWhile cond _ => [.text (Doc.str "for "), .part i cond, .text Doc.space]
  | _ => []

/-- A condition without the tabs and the line end of a statement, or else a block: what stands behind the
word `else`. -/
def branch (i : Indent) : Node → List Segment
  | .ifElse cond thenBranch none =>
    [⟨none, header i (.ifElse cond thenBranch none)⟩, block i thenBranch]
  | .ifElse cond thenBranch (some elseBranch) =>
    ⟨none, header i (.ifElse cond thenBranch (some elseBranch))⟩ :: block i thenBranch ::
      own (Doc.str " else ") :: branch i elseBranch
  | other => [block i other]

end Segment

/-- What a variable declaration inside a function writes between its tabs and its value. -/
def Env.localVarHead (env : Env) (i : Indent) (d : Binding) : VarShape → Doc
  | .checked ok => checkedNames d.name ok ++ Doc.str " := "
  | .inferred => Doc.str d.name ++ Doc.str " := "
  | .declared => Doc.str "var " ++ Doc.str d.name ++ env.declaredType i d.type true ++ Doc.str " = "

open Segment in
/-- The text of a node at `i`, cut up into text of its own and parts.  A leaf has text of its own only. -/
def Env.segments (env : Env) (i : Indent) : Node → List Segment
  | .litArr type elems => [own (env.type i "" type.type), ⟨some .curly, Stretch.nodes i elems⟩]
  | .litObj type fields =>
    [own (env.type i "" type.type), ⟨some .curly, Stretch.commaSep (fields.map (Stretch.field i))⟩]
  | .const d value =>
    [own (env.comments i d.comments), own (Doc.tabs i), own (Doc.str "const " ++ Doc.str d.name),
      own (env.declaredType i d.type true), own (Doc.str " = "), of i value, own (Doc.endStatement i)]
  | .var d (some value) ok =>
    [own (env.comments i d.comments), own (Doc.tabs i),
      own (env.localVarHead i d (VarShape.local d.type (some value) ok)), of i value,
      own (Doc.endStatement i)]
  | .block (s :: ss) => [⟨some .curly, Stretch.lines i (s :: ss)⟩]
  | .ifElse cond thenBranch elseBranch =>
    own (Doc.tabs i) :: (branch i (.ifElse cond thenBranch elseBranch) ++ [own (Doc.endStatement i)])
  | .forRange item items body =>
    [own (Doc.tabs i), ⟨none, header i (.forRange item items body)⟩, block i body,
      own (Doc.endStatement i)]
  | .forClassic init cond step body =>
    [own (Doc.tabs i), ⟨none, header i (.forClassic init cond step body)⟩, block i body,
      own (Doc.endStatement i)]
  | .forWhile cond body =>
    [own (Doc.tabs i), ⟨none, header i (.forWhile cond body)⟩, block i body,
      own (Doc.endStatement i)]
  | .set left right =>
    [own (Doc.tabs i), of i left, own (Doc.str " = "), of i right, own (Doc.endStatement i)]
  | .ret (some value) =>
    [own (Doc.tabs i), own (Doc.str "return "), of i value, own (Doc.endStatement i)]
  | .panic arg =>
    [own (Doc.tabs i), own (Doc.str "panic"), ⟨some .round, [.part i arg]⟩, own (Doc.endStatement i)]
  | .call callee args => [operand .callee i callee, ⟨some .round, Stretch.nodes i args⟩]
  | .func ⟨name, _, _, .func params results (some body)⟩ =>
    [own (env.funcHead i name true params results), own Doc.space, block i body]
  | .dot left right => [of i left, own (Doc.str "."), of i right]
  | .index left right => [of i left, ⟨some .square, [.part i right]⟩]
  | .toType expr target =>
    [of i expr, own (Doc.str "." ++ Doc.enclose true (env.type i "" target))]
  | .op1 op arg => [own (Doc.str op.symbol), operand (.unary op) i arg]
  | .op2 op left right =>
    [operand (.binary op) i left, own (Doc.str (" " ++ op.symbol ++ " ")), operand (.binary op) i right]
  | n => [own (env.node i n)]

/-! ## Parts -/

/-- The statements with a header in front of a body: conditions and loops. -/
def Node.isControl : Node → Bool
  | .ifElse .. | .forRange .. | .forClassic .. | .forWhile .. => true
  | _ => false

/-- A body with the bracket that it is put in. -/
def Node.bodyPart : Node → Option Bracket × Node
  | .block stmts => (none, .block stmts)
  | n => (some .curly, n)

/-- The parts of a condition or a block behind the word `else`. -/
def Node.branchParts : Node → List (Option Bracket × Node)
  | .ifElse cond thenBranch none => [(none, cond), thenBranch.bodyPart]
  | .ifElse cond thenBranch (some elseBranch) =>
    (none, cond) :: thenBranch.bodyPart :: elseBranch.branchParts
  | other => [other.bodyPart]

/-- The parts of a node, each with the bracket that the node puts it in. -/
def Node.parts : Node → List (Option Bracket × Node)
  | .litArr _ elems => elems.map (some .curly, ·)
  | .litObj _ fields => fields.map (some .curly, ·.value)
  | .const _ value => [(none, value)]
  | .var _ value _ => value.toList.map (none, ·)
  | .block stmts => stmts.map (some .curly, ·)
  | .ifElse cond thenBranch elseBranch => (Node.ifElse cond thenBranch elseBranch).branchParts
  | .forRange _ items body => [(none, items), body.bodyPart]
  | .forClassic init cond step body =>
    (init.map LoopVar.value ++ cond.toList ++ step.map LoopStep.left ++ step.map LoopStep.right).map
      (none, ·) ++ [body.bodyPart]
  | .forWhile cond body => [(none, cond), body.bodyPart]
  | .set left right => [(none, left), (none, right)]
  | .ret value => value.toList.map (none, ·)
  | .panic arg => [(some .round, arg)]
  | .call callee args =>
    (Bracket.parens? (callee.needsParens .callee), callee) :: args.map (some .round, ·)
  | .func ⟨_, _, _, .func _ _ (some body)⟩ => [body.bodyPart]
  | .dot left right => [(none, left), (none, right)]
  | .index left right => [(none, left), (some .square, right)]
  | .toType expr _ => [(none, expr)]
  | .op1 op operand => [(Bracket.parens? (operand.needsParens (.unary op)), operand)]
  | .op2 op left right =>
    [(Bracket.parens? (left.needsParens (.binary op)), left),
      (Bracket.parens? (right.needsParens (.binary op)), right)]
  | _ => []

/-! ## The segments make up the text -/

theorem Env.nodes_eq_map (env : Env) (i : Indent) (ns : List Node) : env.nodes i ns = ns.map (env.node i) := by
  induction ns with
  | nil => rw [nodes, List.map_nil]
  | cons n ns ih => rw [nodes, List.map_cons, ih]

theorem Env.chars_statements (env : Env) (i : Indent) (ns : List Node) :
    (env.statements i ns).chars = ns.flatMap fun n => (statementLine i n (env.node i n)).chars := by
  induction ns with
  | nil => rw [statements, List.flatMap_nil, Doc.chars_nil]
  | cons n ns ih => rw [statements, List.flatMap_cons, Doc.chars_append, ih]

namespace Stretch

variable (env : Env) (i : Indent)

theorem chars_commaSep (xss : List (List Stretch)) :
    (commaSep xss).flatMap (chars env) =
      Text.joinWith [',', ' '] (xss.map fun xs => xs.flatMap (chars env)) := by
  rw [commaSep, Text.flatMap_joinWith]
  simp [chars]

theorem chars_nodes (ns : List Node) :
    (nodes i ns).flatMap (chars env) = (Doc.commaSep (env.nodes i ns)).chars := by
  rw [nodes, chars_commaSep, Doc.chars_commaSep, Env.nodes_eq_map, List.map_map, List.map_map]
  congr 2
  funext n
  simp [chars]

theorem chars_fields (fs : List FieldValue) :
    (commaSep (fs.map (field i))).flatMap (chars env) = (Doc.commaSep (env.fieldValues i fs)).chars := by
  rw [chars_commaSep, Doc.chars_commaSep, List.map_map]
  congr 1
  induction fs with
  | nil => rw [Env.fieldValues, List.map_nil, List.map_nil]
  | cons f fs ih =>
    obtain ⟨name, value⟩ := f
    cases name with
    | none =>
      rw [Env.fieldValues, List.map_cons, List.map_cons, ih]
      simp [field, chars]
    | some name =>
      rw [Env.fieldValues, List.map_cons, List.map_cons, ih]
      simp [field, chars]

theorem chars_statementLine (n : Node) :
    (statementLine i n).flatMap (chars env) = (GoScribe.statementLine i n (env.node i n)).chars := by
  unfold statementLine GoScribe.statementLine
  split <;> simp [chars]

theorem chars_lines (ns : List Node) :
    '\x7b' :: ((lines i ns).flatMap (chars env) ++ ['\x7d']) =
      (braces i (env.statements i.deeper ns)).chars := by
  have hlines : (ns.flatMap (statementLine i.deeper)).flatMap (chars env) =
      (env.statements i.deeper ns).chars := by
    rw [List.flatMap_assoc, Env.chars_statements]
    simp only [chars_statementLine]
  simp [lines, braces, chars, hlines]

theorem chars_clauses (init : List LoopVar) (cond : Option Node) (step : List LoopStep) :
    (clauses i init cond step).flatMap (chars env) =
      (classicClauses (init.map LoopVar.name) (env.loopValues i init) (env.nodeOpt i cond)
        (env.stepLefts i step) (env.stepRights i step)).chars := by
  have hcond : (cond.toList.map (part i)).flatMap (chars env) = ((env.nodeOpt i cond).getD []).chars := by
    cases cond <;> simp [Env.nodeOpt, chars]
  rw [Env.loopValues_eq, Env.stepLefts_eq, Env.stepRights_eq]
  have hempty : (env.nodes i (step.map LoopStep.left)).isEmpty = step.isEmpty := by
    rw [Env.nodes_eq_map, List.isEmpty_map, List.isEmpty_map]
  unfold clauses classicClauses
  rw [hempty, List.isEmpty_map]
  split
  · cases cond <;> simp [Env.nodeOpt, chars]
  · have hinit : (if init.isEmpty then [] else
        .text (Doc.commaSep ((init.map LoopVar.name).map Doc.str) ++ Doc.str " := ") ::
          nodes i (init.map LoopVar.value)).flatMap (chars env) =
        Doc.chars (if init.isEmpty then [] else Doc.commaSep ((init.map LoopVar.name).map Doc.str) ++
          Doc.str " := " ++ Doc.commaSep (env.nodes i (init.map LoopVar.value))) := by
      split
      · rfl
      · simp only [List.flatMap_cons, chars, chars_nodes, Doc.chars_append]
    have hstep : (if step.isEmpty then [] else
        .text Doc.space :: (nodes i (step.map LoopStep.left) ++
          .text (Doc.str " = ") :: nodes i (step.map LoopStep.right))).flatMap (chars env) =
        Doc.chars (if step.isEmpty then [] else Doc.space ++
          Doc.commaSep (env.nodes i (step.map LoopStep.left)) ++ Doc.str " = " ++
            Doc.commaSep (env.nodes i (step.map LoopStep.right))) := by
      split
      · rfl
      · simp only [List.flatMap_cons, List.flatMap_append, chars, chars_nodes, Doc.chars_append,
          List.append_assoc]
    simp only [List.flatMap_append, List.flatMap_cons, hinit, hcond, hstep, chars, Doc.chars_append,
      List.append_assoc, List.flatMap_nil, List.append_nil]

end Stretch

namespace Segment

variable (env : Env) (i : Indent)

@[simp] theorem chars_own (d : Doc) : (own d).chars env = d.chars := by
  simp [own, chars, Stretch.chars]

@[simp] theorem chars_of (n : Node) : (of i n).chars env = (env.node i n).chars := by
  simp [of, chars, Stretch.chars]

@[simp] theorem chars_operand (parent : Parent) (n : Node) :
    (operand parent i n).chars env = (Doc.enclose (n.needsParens parent) (env.node i n)).chars := by
  rw [Doc.chars_enclose, operand]
  cases n.needsParens parent <;> simp [chars, Stretch.chars, Bracket.parens?]

@[simp] theorem chars_block (n : Node) :
    (block i n).chars env = (bodyDoc i n fun j => env.node j n).chars := by
  have hother := Stretch.chars_lines env i [n]
  rw [Env.statements, Env.statements, List.append_nil] at hother
  cases n with
  | block stmts => exact chars_of env i (.block stmts)
  | _ => exact hother

@[simp] theorem chars_unbracketed (xs : List Stretch) :
    Segment.chars env ⟨none, xs⟩ = xs.flatMap (Stretch.chars env) := by
  simp [chars]

theorem chars_bracketed (b : Bracket) (xs : List Stretch) :
    Segment.chars env ⟨some b, xs⟩ = b.opening :: (xs.flatMap (Stretch.chars env) ++ [b.closing]) :=
  rfl

theorem chars_branch (n : Node) :
    ' ' :: 'e' :: 'l' :: 's' :: 'e' :: ' ' :: (branch i n).flatMap (chars env) =
      (env.elseDoc i (some n)).chars := by
  fun_induction branch i n with
  | case1 cond thenBranch => simp [Env.elseDoc, header]
  | case2 cond thenBranch elseBranch ih => simp [Env.elseDoc, header, ← ih]
  | case3 other hnone hsome =>
    rw [Env.elseDoc]
    · simp
    · rintro cond thenBranch (_ | elseBranch) rfl
      · exact hnone _ _ rfl
      · exact hsome _ _ _ rfl

end Segment

/-- The segments of a node make up its text. -/
theorem Env.chars_segments (env : Env) (i : Indent) (n : Node) :
    (env.segments i n).flatMap (Segment.chars env) = (env.node i n).chars := by
  have hleaf : [Segment.own (env.node i n)].flatMap (Segment.chars env) = (env.node i n).chars := by simp
  cases n with
  | litArr type elems =>
    simp [segments, node, Segment.chars_bracketed, Stretch.chars_nodes]
  | litObj type fields =>
    simp [segments, node, Segment.chars_bracketed, Stretch.chars_fields]
  | const d value => simp [segments, node, constDoc]
  | var d value ok =>
    cases value with
    | none => exact hleaf
    | some value =>
      rw [segments, node]
      cases VarShape.local d.type (some value) ok <;> simp [localVarDoc, localVarHead, initializer]
  | block stmts =>
    cases stmts with
    | nil => exact hleaf
    | cons s ss =>
      have hlines := Stretch.chars_lines env i (s :: ss)
      rw [statements] at hlines
      simp only [segments, node, List.flatMap_singleton, Segment.chars_bracketed]
      exact hlines
  | ifElse cond thenBranch elseBranch =>
    have hbranch : (Segment.branch i (.ifElse cond thenBranch elseBranch)).flatMap (Segment.chars env) =
        "if ".toList ++ ((env.node i cond).chars ++ ' ' ::
          ((bodyDoc i thenBranch fun j => env.node j thenBranch).chars ++ (env.elseDoc i elseBranch).chars)) := by
      simpa [elseDoc] using Segment.chars_branch env i (.ifElse cond thenBranch elseBranch)
    simp [segments, node, hbranch]
  | forRange item items body => simp [segments, node, Segment.header, Stretch.chars]
  | forClassic init cond step body =>
    simp [segments, node, Segment.header, Stretch.chars, Stretch.chars_clauses]
  | forWhile cond body => simp [segments, node, Segment.header, Stretch.chars]
  | set left right => simp [segments, node]
  | ret value =>
    cases value with
    | none => exact hleaf
    | some value => simp [segments, node]
  | panic arg =>
    simp [segments, node, Segment.chars_bracketed, Stretch.chars]
  | call callee args =>
    simp [segments, node, Segment.chars_bracketed, Stretch.chars_nodes, Doc.chars_enclose true]
  | func signature =>
    obtain ⟨name, sourceName, comments, type⟩ := signature
    cases type with
    | func params results body =>
      cases body with
      | none => exact hleaf
      | some body => simp [segments, node, funcLiteralDoc]
    | _ => exact hleaf
  | dot left right => simp [segments, node]
  | index left right =>
    simp [segments, node, Segment.chars_bracketed, Stretch.chars]
  | toType expr target => simp [segments, node, Doc.chars_enclose]
  | op1 op arg => simp [segments, node]
  | op2 op left right => simp [segments, node]
  | _ => exact hleaf

/-! ## The segments hold the parts -/

namespace Stretch

theorem parts_commaSep (xss : List (List Stretch)) :
    (commaSep xss).flatMap parts = xss.flatMap fun xs => xs.flatMap parts := by
  unfold commaSep
  induction xss using Text.joinWith.induct with
  | case1 => rfl
  | case2 xs => simp [Text.joinWith]
  | case3 xs ys xss ih =>
    rw [Text.joinWith, List.flatMap_append, List.flatMap_append, ih]
    simp

variable (i : Indent)

theorem parts_nodes (ns : List Node) : (nodes i ns).flatMap parts = ns := by
  rw [nodes, parts_commaSep, List.flatMap_map]
  simp

theorem parts_fields (fs : List FieldValue) :
    (commaSep (fs.map (field i))).flatMap parts = fs.map FieldValue.value := by
  have hfield : ∀ f, (field i f).flatMap parts = [f.value] := by
    intro f
    unfold field
    split <;> simp
  rw [parts_commaSep, List.flatMap_map, List.map_eq_flatMap]
  simp only [hfield]

theorem parts_lines (ns : List Node) : (lines i ns).flatMap parts = ns := by
  have hline : ∀ n, (statementLine i.deeper n).flatMap parts = [n] := by
    intro n
    unfold statementLine
    split <;> simp
  simp [lines, List.flatMap_assoc, hline]

theorem parts_clauses (init : List LoopVar) (cond : Option Node) (step : List LoopStep) :
    (clauses i init cond step).flatMap parts =
      init.map LoopVar.value ++ cond.toList ++ step.map LoopStep.left ++ step.map LoopStep.right := by
  unfold clauses
  cases init <;> cases step <;> cases cond <;> simp [parts_nodes]

end Stretch

namespace Segment

variable (i : Indent)

@[simp] theorem parts_mk (b : Option Bracket) (xs : List Stretch) :
    Segment.parts ⟨b, xs⟩ = (xs.flatMap Stretch.parts).map (b, ·) := rfl

@[simp] theorem parts_own (d : Doc) : (own d).parts = [] := rfl

@[simp] theorem parts_of (n : Node) : (of i n).parts = [(none, n)] := rfl

@[simp] theorem parts_operand (parent : Parent) (n : Node) :
    (operand parent i n).parts = [(Bracket.parens? (n.needsParens parent), n)] := rfl

@[simp] theorem parts_block (n : Node) : (block i n).parts = [n.bodyPart] := by
  have hother := Stretch.parts_lines i [n]
  cases n with
  | block stmts => rfl
  | _ => simp [block, hother, Node.bodyPart]

theorem parts_branch (n : Node) : (branch i n).flatMap parts = n.branchParts := by
  fun_induction branch i n with
  | case1 cond thenBranch => simp [Node.branchParts, header]
  | case2 cond thenBranch elseBranch ih => simp [Node.branchParts, header, ih]
  | case3 other hnone hsome =>
    rw [Node.branchParts]
    · simp
    · exact hnone
    · exact hsome

/-- The parts between the keyword and the body of a statement are its operands. -/
theorem parts_header {n : Node} (hn : n.isControl) : (header i n).flatMap Stretch.parts = n.operands := by
  cases n with
  | ifElse | forRange | forWhile => simp [header, Node.operands]
  | forClassic init cond step body => simp [header, Node.operands, Stretch.parts_clauses]
  | _ => cases hn

end Segment

/-- The parts of a node, in the order of its text. -/
theorem Env.parts_segments (env : Env) (i : Indent) (n : Node) :
    (env.segments i n).flatMap Segment.parts = n.parts := by
  cases n with
  | litArr type elems => simp [segments, Node.parts, Stretch.parts_nodes]
  | litObj type fields => simp [segments, Node.parts, Stretch.parts_fields]
  | var d value ok => cases value <;> simp [segments, Node.parts]
  | block stmts =>
    cases stmts with
    | nil => rfl
    | cons s ss => simp [segments, Node.parts, Stretch.parts_lines]
  | ifElse cond thenBranch elseBranch =>
    simp [segments, Node.parts, Segment.parts_branch]
  | forClassic init cond step body =>
    simp [segments, Node.parts, Segment.header, Stretch.parts_clauses]
  | ret value => cases value <;> simp [segments, Node.parts]
  | call callee args => simp [segments, Node.parts, Stretch.parts_nodes]
  | func signature =>
    obtain ⟨name, sourceName, comments, type⟩ := signature
    cases type with
    | func params results body => cases body <;> simp [segments, Node.parts]
    | _ => rfl
  | _ => simp [segments, Node.parts, Segment.header]

/-! ## The positions of the parts -/

section

variable {embeds : Bool}

theorem mem_nodePositions {p : Position} {ns : List Node} :
    p ∈ nodePositions embeds ns ↔ ∃ n ∈ ns, p ∈ n.positions embeds := by
  induction ns with
  | nil => simp [nodePositions]
  | cons n ns ih => simp [nodePositions, ih]

theorem optionPositions_eq (n : Option Node) :
    optionPositions embeds n = nodePositions embeds n.toList := by
  cases n <;> simp [optionPositions, nodePositions]

theorem fieldPositions_eq (fs : List FieldValue) :
    fieldPositions embeds fs = nodePositions embeds (fs.map FieldValue.value) := by
  induction fs with
  | nil => rw [fieldPositions, List.map_nil, nodePositions]
  | cons f fs ih =>
    obtain ⟨name, value⟩ := f
    rw [fieldPositions, List.map_cons, nodePositions, ih]

theorem initPositions_eq (vs : List LoopVar) :
    initPositions embeds vs = nodePositions embeds (vs.map LoopVar.value) := by
  induction vs with
  | nil => rw [initPositions, List.map_nil, nodePositions]
  | cons v vs ih =>
    obtain ⟨name, value⟩ := v
    rw [initPositions, List.map_cons, nodePositions, ih]

theorem leftPositions_eq (ss : List LoopStep) :
    leftPositions embeds ss = nodePositions embeds (ss.map LoopStep.left) := by
  induction ss with
  | nil => rw [leftPositions, List.map_nil, nodePositions]
  | cons s ss ih =>
    obtain ⟨left, right⟩ := s
    rw [leftPositions, List.map_cons, nodePositions, ih]

theorem rightPositions_eq (ss : List LoopStep) :
    rightPositions embeds ss = nodePositions embeds (ss.map LoopStep.right) := by
  induction ss with
  | nil => rw [rightPositions, List.map_nil, nodePositions]
  | cons s ss ih =>
    obtain ⟨left, right⟩ := s
    rw [rightPositions, List.map_cons, nodePositions, ih]

theorem Node.bodyPart_snd (n : Node) : n.bodyPart.2 = n := by
  unfold bodyPart
  split <;> rfl

theorem Node.mem_positions_of_branchParts {p : Position} {b : Option Bracket} {n m : Node}
    (h : (b, m) ∈ n.branchParts) (hp : p ∈ m.positions embeds) : p ∈ n.positions embeds := by
  fun_induction branchParts n with
  | case1 cond thenBranch =>
    simp only [List.mem_cons, Prod.ext_iff, bodyPart_snd, List.not_mem_nil, or_false] at h
    simp only [positions, List.mem_cons, List.mem_append]
    rcases h with ⟨-, rfl⟩ | ⟨-, rfl⟩
    · exact .inr (.inl (.inl hp))
    · exact .inr (.inl (.inr hp))
  | case2 cond thenBranch elseBranch ih =>
    simp only [List.mem_cons, Prod.ext_iff, bodyPart_snd] at h
    simp only [positions, List.mem_cons, List.mem_append]
    rcases h with ⟨-, rfl⟩ | ⟨-, rfl⟩ | h
    · exact .inr (.inl (.inl hp))
    · exact .inr (.inl (.inr hp))
    · exact .inr (.inr (ih h))
  | case3 other hnone hsome =>
    simp only [List.mem_singleton, Prod.ext_iff, bodyPart_snd] at h
    rw [h.2] at hp
    exact hp

/-- The positions of the parts of a node are positions of the node. -/
theorem Node.mem_positions_of_parts {p : Position} {b : Option Bracket} {n m : Node}
    (h : (b, m) ∈ n.parts) (hp : p ∈ m.positions embeds) : p ∈ n.positions embeds := by
  cases n with
  | ifElse cond thenBranch elseBranch =>
    exact mem_positions_of_branchParts h hp
  | func signature =>
    obtain ⟨name, sourceName, comments, type⟩ := signature
    cases type with
    | func params results body =>
      cases body with
      | none => simp [parts] at h
      | some body =>
        simp only [parts, List.mem_singleton, Prod.ext_iff, bodyPart_snd] at h
        rw [h.2] at hp
        simp [positions, optionPositions, hp]
    | _ => simp [parts] at h
  | _ =>
    grind [parts, positions, bodyPart_snd, fieldPositions_eq, initPositions_eq, leftPositions_eq,
      rightPositions_eq, optionPositions_eq, mem_nodePositions]

/-- The node is a composite literal. -/
def Node.isComposite : Node → Bool
  | .litArr .. | .litObj .. => true
  | _ => false

variable {l : Node}

mutual

/-- No node is rendered inside a type. -/
theorem GoType.node_not_mem_positions : (owner : String) → (t : GoType) →
    Position.node l ∉ t.positions embeds owner
  | _, .empty | _, .named _ | _, .unresolved _ => by simp [GoType.positions]
  | _, .array elem => by simp [GoType.positions, GoType.node_not_mem_positions "" elem]
  | _, .pointer target => by simp [GoType.positions, GoType.node_not_mem_positions "" target]
  | owner, .interface names methods _ => by
    have hnames : Position.node l ∉ if embeds then names.map .embed else [] := by split <;> simp
    have hmethods := node_not_mem_methodPositions owner methods
    simp only [GoType.positions, List.mem_cons, List.mem_append, hnames, hmethods, reduceCtorEq, or_false,
      not_false_eq_true]
  | _, .struct _ fields _ _ => by simp [GoType.positions, node_not_mem_bindingPositions fields]
  | _, .func params results _ => by
    simp [GoType.positions, node_not_mem_bindingPositions params, node_not_mem_bindingPositions results]

theorem node_not_mem_bindingPositions : (bs : List Binding) → Position.node l ∉ bindingPositions embeds bs
  | [] => by simp [bindingPositions]
  | ⟨_, sourceName, _, type⟩ :: bs => by
    simp [bindingPositions, GoType.node_not_mem_positions sourceName type, node_not_mem_bindingPositions bs]

theorem node_not_mem_methodPositions : (owner : String) → (bs : List Binding) →
    Position.node l ∉ methodPositions embeds owner bs
  | _, [] => by simp [methodPositions]
  | owner, ⟨_, _, _, .func params results _⟩ :: bs => by
    simp [methodPositions, node_not_mem_bindingPositions params, node_not_mem_bindingPositions results,
      node_not_mem_methodPositions owner bs]
  | owner, ⟨_, _, _, .empty⟩ :: bs | owner, ⟨_, _, _, .named _⟩ :: bs | owner, ⟨_, _, _, .unresolved _⟩ :: bs
  | owner, ⟨_, _, _, .array _⟩ :: bs | owner, ⟨_, _, _, .pointer _⟩ :: bs
  | owner, ⟨_, _, _, .interface ..⟩ :: bs | owner, ⟨_, _, _, .struct ..⟩ :: bs => by
    simp [methodPositions, node_not_mem_methodPositions owner bs]

end

theorem node_not_mem_constTypePositions (type : GoType) :
    Position.node l ∉ constTypePositions embeds type := by
  unfold constTypePositions
  split
  · exact List.not_mem_nil
  · exact GoType.node_not_mem_positions "" type

theorem node_not_mem_localTypePositions (type : GoType) (value : Option Node) :
    Position.node l ∉ localTypePositions embeds type value := by
  unfold localTypePositions
  split
  · exact GoType.node_not_mem_positions "" type
  · split
    · exact List.not_mem_nil
    · exact GoType.node_not_mem_positions "" type

theorem nodePositions_append (ns ms : List Node) :
    nodePositions embeds (ns ++ ms) = nodePositions embeds ns ++ nodePositions embeds ms := by
  induction ns with
  | nil => rfl
  | cons n ns ih => rw [List.cons_append, nodePositions, nodePositions, ih, List.append_assoc]

theorem Node.exists_branchPart {n : Node} (hl : l.isComposite) (h : .node l ∈ n.positions embeds) :
    ∃ q ∈ n.branchParts, .node l ∈ q.2.positions embeds := by
  fun_induction branchParts n with
  | case1 cond thenBranch =>
    have hne : l ≠ .ifElse cond thenBranch none := by
      rintro rfl
      cases hl
    simpa [positions, bodyPart_snd, optionPositions, hne] using h
  | case2 cond thenBranch elseBranch ih =>
    have hne : l ≠ .ifElse cond thenBranch (some elseBranch) := by
      rintro rfl
      cases hl
    simp only [positions, optionPositions, List.mem_cons, List.mem_append, Position.node.injEq, hne,
      false_or] at h
    simp only [List.exists_mem_cons_iff, bodyPart_snd]
    rcases h with (h | h) | h
    · exact .inl h
    · exact .inr (.inl h)
    · exact .inr (.inr (ih h))
  | case3 other hnone hsome => simpa [bodyPart_snd] using h

/-- A composite literal that a node renders is the node itself or is rendered by one of its parts. -/
theorem Node.exists_part {n : Node} (hl : l.isComposite) (h : .node l ∈ n.positions embeds) :
    l = n ∨ ∃ q ∈ n.parts, .node l ∈ q.2.positions embeds := by
  cases n with
  | ifElse cond thenBranch elseBranch => exact .inr (exists_branchPart hl h)
  | forClassic init cond step body =>
    rw [positions, initPositions_eq, leftPositions_eq, rightPositions_eq, optionPositions_eq,
      ← nodePositions_append, ← nodePositions_append, ← nodePositions_append, List.mem_cons, List.mem_append,
      mem_nodePositions] at h
    rcases h with h | ⟨m, hm, h⟩ | h
    · exact .inl (Position.node.inj h)
    · exact .inr ⟨(none, m), List.mem_append_left _ (List.mem_map_of_mem hm), h⟩
    · refine .inr ⟨body.bodyPart, List.mem_append_right _ List.mem_cons_self, ?_⟩
      rwa [bodyPart_snd]
  | func signature =>
    obtain ⟨name, sourceName, comments, type⟩ := signature
    cases type with
    | func params results body =>
      cases body <;>
        simpa [parts, positions, bodyPart_snd, optionPositions, node_not_mem_bindingPositions] using h
    | _ => exact .inl (Position.node.inj (List.mem_singleton.mp h))
  | _ =>
    simpa [parts, positions, bodyPart_snd, fieldPositions_eq, optionPositions_eq, mem_nodePositions,
      GoType.node_not_mem_positions, node_not_mem_constTypePositions, node_not_mem_localTypePositions] using h

theorem length_positions_le {m : Node} {ns : List Node} (hm : m ∈ ns) :
    (m.positions embeds).length ≤ (nodePositions embeds ns).length := by
  obtain ⟨before, after, rfl⟩ := List.append_of_mem hm
  rw [nodePositions_append, nodePositions, List.length_append, List.length_append]
  omega

theorem Node.length_positions_branchPart {n m : Node} {b : Option Bracket} (h : (b, m) ∈ n.branchParts) :
    (m.positions embeds).length ≤ (n.positions embeds).length := by
  fun_induction branchParts n with
  | case1 cond thenBranch => grind [positions, bodyPart_snd]
  | case2 cond thenBranch elseBranch ih => grind [positions, bodyPart_snd, optionPositions]
  | case3 other => grind [bodyPart_snd]

/-- A part has fewer positions. -/
theorem Node.length_positions_part {n m : Node} {b : Option Bracket} (h : (b, m) ∈ n.parts) :
    (m.positions embeds).length < (n.positions embeds).length := by
  have hnodes : ∀ ns : List Node, m ∈ ns →
      (m.positions embeds).length ≤ (nodePositions embeds ns).length := fun ns => length_positions_le
  cases n with
  | ifElse cond thenBranch elseBranch =>
    have hbranch : ∀ e : Node, (b, m) ∈ e.branchParts →
        (m.positions embeds).length ≤ (e.positions embeds).length := fun e => length_positions_branchPart
    cases elseBranch <;> grind [parts, branchParts, positions, bodyPart_snd, optionPositions]
  | func signature =>
    obtain ⟨name, sourceName, comments, type⟩ := signature
    cases type with
    | func params results body => cases body <;> grind [parts, positions, bodyPart_snd, optionPositions]
    | _ => cases h
  | _ =>
    grind [parts, positions, bodyPart_snd, fieldPositions_eq, initPositions_eq, leftPositions_eq,
      rightPositions_eq, optionPositions_eq]

end

/-- Induction over the parts of nodes. -/
theorem Node.part_induction {P : Node → Prop} (h : ∀ n, (∀ q ∈ n.parts, P q.2) → P n) (n : Node) : P n := by
  induction hlength : (n.positions false).length using Nat.strong_induction_on generalizing n with
  | _ k ih =>
    subst hlength
    exact h n fun q hq => ih _ (length_positions_part hq) q.2 rfl

end GoScribe
