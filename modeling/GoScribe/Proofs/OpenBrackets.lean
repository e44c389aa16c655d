import GoScribe.Proofs.NodeParts

/-!
# The brackets around the parts of a node

Which brackets are open in front of a node inside another one.  In the text they are found by a scan that
keeps a stack of the open brackets; in the tree they are those that the nodes on the way put their parts
in.  If the texts that the tree supplies hold no delimiters, then the two are the same.
-/

namespace GoScribe

open Go (Delimited)

/-! ## Open brackets of a text -/

namespace Go

/-- The open brackets behind a bracket, innermost first. -/
def track (stack : List Bracket) (c : Char) : List Bracket :=
  if c = '(' then .round :: stack
  else if c = '[' then .square :: stack
  else if c = '\x7b' then .curly :: stack
  else stack.tail

/-- The brackets that are open at the end of a text, innermost first. -/
def openBrackets (text : List Char) : List Bracket :=
  match scan .code text with
  | some (_, bs) => bs.foldl track []
  | none => []

example : openBrackets "f(a[1], \"[\", T\x7bb[".toList = [.square, .curly, .round] := by decide

theorem track_opening (stack : List Bracket) (b : Bracket) : track stack b.opening = b :: stack := by
  cases b <;> rfl

theorem track_closing (stack : List Bracket) (b : Bracket) : track stack b.closing = stack.tail := by
  cases b <;> rfl

theorem exists_of_mem_brackets {o c : Char} (h : (o, c) ∈ brackets) :
    ∃ b : Bracket, o = b.opening ∧ c = b.closing := by
  simp only [brackets, List.mem_cons, Prod.mk.injEq, List.not_mem_nil, or_false] at h
  rcases h with ⟨rfl, rfl⟩ | ⟨rfl, rfl⟩ | ⟨rfl, rfl⟩
  · exact ⟨.round, rfl, rfl⟩
  · exact ⟨.square, rfl, rfl⟩
  · exact ⟨.curly, rfl, rfl⟩

/-- Nested brackets close what they open, and nothing else. -/
theorem foldl_track_of_nested {bs : List Char} (h : Nested bs) (stack : List Bracket) :
    bs.foldl track stack = stack := by
  induction h generalizing stack with
  | nil => rfl
  | pair hoc _ ih =>
    obtain ⟨b, rfl, rfl⟩ := exists_of_mem_brackets hoc
    rw [List.foldl_cons, track_opening, List.foldl_append, ih, List.foldl_cons, List.foldl_nil,
      track_closing, List.tail_cons]
  | append _ _ ih ih' => rw [List.foldl_append, ih, ih']

/-- A text that leaves open the brackets `path`, innermost first, whatever was open in front of it. -/
def Leaves (text : List Char) (path : List Bracket) : Prop :=
  ∃ bs, scan .code text = some (.code, bs) ∧ ∀ stack, bs.foldl track stack = path ++ stack

theorem Leaves.openBrackets_eq {text : List Char} {path : List Bracket} (h : Leaves text path) :
    openBrackets text = path := by
  obtain ⟨bs, hscan, hbs⟩ := h
  rw [openBrackets, hscan]
  show bs.foldl track [] = path
  rw [hbs, List.append_nil]

theorem Delimited.leaves {text : List Char} (h : Delimited text) : Leaves text [] := by
  obtain ⟨bs, hscan, hbs⟩ := h
  exact ⟨bs, hscan, foldl_track_of_nested hbs⟩

theorem Leaves.append {text text' : List Char} {path path' : List Bracket} (h : Leaves text path)
    (h' : Leaves text' path') : Leaves (text ++ text') (path' ++ path) := by
  obtain ⟨bs, hscan, hbs⟩ := h
  obtain ⟨bs', hscan', hbs'⟩ := h'
  refine ⟨bs ++ bs', scan_append hscan hscan', fun stack => ?_⟩
  rw [List.foldl_append, hbs, hbs', List.append_assoc]

theorem Delimited.flatMap {α : Type} {f : α → List Char} {xs : List α} (h : ∀ x ∈ xs, Delimited (f x)) :
    Delimited (xs.flatMap f) := by
  induction xs with
  | nil => exact .nil
  | cons x xs ih =>
    rw [List.forall_mem_cons] at h
    rw [List.flatMap_cons]
    exact h.1.append (ih h.2)

theorem leaves_opening (b : Option Bracket) : Leaves (b.toList.map Bracket.opening) b.toList := by
  cases b with
  | none => exact Delimited.nil.leaves
  | some b =>
    refine ⟨[b.opening], ?_, track_opening (b := b)⟩
    cases b <;> rfl

end Go

/-! ## Text of a node's own is delimited -/

namespace Stretch

/-- The text between the parts is delimited. -/
def Tidy (xs : List Stretch) : Prop := ∀ d, .text d ∈ xs → Delimited d.chars

@[simp] theorem tidy_nil : Tidy [] := by simp [Tidy]

@[simp] theorem tidy_text {d : Doc} {xs : List Stretch} :
    Tidy (.text d :: xs) ↔ Delimited d.chars ∧ Tidy xs := by
  simp [Tidy]

@[simp] theorem tidy_part {i : Indent} {n : Node} {xs : List Stretch} :
    Tidy (.part i n :: xs) ↔ Tidy xs := by
  simp [Tidy]

@[simp] theorem tidy_append {xs ys : List Stretch} : Tidy (xs ++ ys) ↔ Tidy xs ∧ Tidy ys := by
  simp only [Tidy, List.mem_append, or_imp, forall_and]

theorem tidy_flatMap {α : Type} {f : α → List Stretch} {as : List α} (h : ∀ a ∈ as, Tidy (f a)) :
    Tidy (as.flatMap f) := by
  intro d hd
  obtain ⟨a, ha, hd⟩ := List.mem_flatMap.mp hd
  exact h a ha d hd

theorem tidy_commaSep {xss : List (List Stretch)} (h : ∀ xs ∈ xss, Tidy xs) : Tidy (commaSep xss) := by
  unfold commaSep
  induction xss using Text.joinWith.induct with
  | case1 => exact tidy_nil
  | case2 xs => exact h xs List.mem_cons_self
  | case3 xs ys xss ih =>
    rw [List.forall_mem_cons] at h
    have hcomma : Delimited (Doc.str ", ").chars := delimited_str (by decide)
    simp only [Text.joinWith, tidy_append, tidy_text, tidy_nil, and_true]
    exact ⟨⟨h.1, hcomma⟩, ih h.2⟩

variable (i : Indent)

theorem tidy_nodes (ns : List Node) : Tidy (nodes i ns) := by
  apply tidy_commaSep
  simp

theorem tidy_fields {fs : List FieldValue}
    (h : ∀ s ∈ fs.filterMap FieldValue.name, Text.avoids Text.delimiters s.toList) :
    Tidy (commaSep (fs.map (field i))) := by
  apply tidy_commaSep
  rw [List.forall_mem_map]
  rintro ⟨name, value⟩ hf
  cases name with
  | none => simp [field]
  | some name =>
    have hname : Delimited (Doc.str name).chars :=
      delimited_str (h name (List.mem_filterMap.mpr ⟨_, hf, rfl⟩))
    have hfield : Delimited (Doc.str name ++ Doc.str ": ").chars := hname.followed (delimited_str (by decide))
    simp only [field, tidy_text, tidy_part, tidy_nil, and_true]
    exact hfield

theorem tidy_lines (ns : List Node) : Tidy (lines i ns) := by
  have hlines : Tidy (ns.flatMap (statementLine i.deeper)) := by
    apply tidy_flatMap
    intro n _
    unfold statementLine
    split
    · simp
    · simp only [tidy_text, tidy_part, tidy_nil, and_true]
      exact ⟨delimited_tabs _, delimited_newline⟩
  simp only [lines, tidy_text, tidy_append, tidy_nil, and_true]
  exact ⟨delimited_newline, hlines, delimited_tabs i⟩

theorem tidy_clauses {init : List LoopVar} (cond : Option Node) (step : List LoopStep)
    (h : ∀ s ∈ init.map LoopVar.name, Text.avoids Text.delimiters s.toList) :
    Tidy (clauses i init cond step) := by
  have hnames : Delimited (Doc.commaSep ((init.map LoopVar.name).map Doc.str) ++ Doc.str " := ").chars := by
    have hlayout : TextLayout true Text.delimiters .inside fun _ =>
        (Doc.commaSep ((init.map LoopVar.name).map Doc.str)).chars := layout_names (List.Subset.refl _) h
    exact (hlayout.delimited i).followed (delimited_str (by decide))
  have hinit : Tidy (if init.isEmpty then [] else
      .text (Doc.commaSep ((init.map LoopVar.name).map Doc.str) ++ Doc.str " := ") ::
        nodes i (init.map LoopVar.value)) := by
    split
    · exact tidy_nil
    · exact tidy_text.mpr ⟨hnames, tidy_nodes i _⟩
  have hstep : Tidy (if step.isEmpty then [] else
      .text Doc.space :: (nodes i (step.map LoopStep.left) ++
        .text (Doc.str " = ") :: nodes i (step.map LoopStep.right))) := by
    split
    · exact tidy_nil
    · simp only [tidy_text, tidy_append]
      exact ⟨delimited_space, tidy_nodes i _, delimited_str (by decide), tidy_nodes i _⟩
  have hcond : Tidy (cond.toList.map (part i)) := by cases cond <;> simp
  unfold clauses
  split
  · cases cond with
    | none => exact tidy_nil
    | some c => simpa using delimited_space
  · simp only [tidy_text, tidy_append, tidy_nil, and_true]
    exact ⟨hinit, delimited_str (by decide), hcond, delimited_str (by decide), hstep, delimited_space⟩

end Stretch

namespace Segment

open Stretch (Tidy)

/-- The text around the parts of each segment is delimited. -/
def AllTidy (ss : List Segment) : Prop := ∀ s ∈ ss, Tidy s.inner

@[simp] theorem allTidy_nil : AllTidy [] := by simp [AllTidy]

@[simp] theorem allTidy_cons {s : Segment} {ss : List Segment} :
    AllTidy (s :: ss) ↔ Tidy s.inner ∧ AllTidy ss := by
  simp [AllTidy]

@[simp] theorem allTidy_append {ss ts : List Segment} :
    AllTidy (ss ++ ts) ↔ AllTidy ss ∧ AllTidy ts := by
  simp only [AllTidy, List.mem_append, or_imp, forall_and]

variable {i : Indent}

theorem tidy_own {d : Doc} (h : Delimited d.chars) : Tidy (own d).inner := by
  simpa [own] using h

theorem tidy_part {n : Node} : Tidy [.part i n] := by
  simp

theorem tidy_block (n : Node) : Tidy (block i n).inner := by
  cases n with
  | block stmts => exact tidy_part
  | _ => exact Stretch.tidy_lines i _

/-- Besides keywords a header shows the names of the variables of a loop. -/
theorem tidy_header {n : Node} (h : ∀ s ∈ n.texts, Text.avoids Text.delimiters s.toList) :
    Tidy (header i n) := by
  cases n with
  | ifElse | forWhile =>
    simp only [header, Stretch.tidy_text, Stretch.tidy_part, Stretch.tidy_nil, and_true]
    exact ⟨delimited_str (by decide), delimited_space⟩
  | forRange item items body =>
    simp only [header, Stretch.tidy_text, Stretch.tidy_part, Stretch.tidy_nil, and_true]
    have hitem : Delimited (Doc.str item).chars := delimited_str (h item List.mem_cons_self)
    exact ⟨((delimited_str (by decide)).followed hitem).followed (delimited_str (by decide)), delimited_space⟩
  | forClassic init cond step body =>
    exact Stretch.tidy_text.mpr ⟨delimited_str (by decide), Stretch.tidy_clauses i cond step h⟩
  | _ => exact Stretch.tidy_nil

theorem tidy_branch (n : Node) : AllTidy (branch i n) := by
  fun_induction branch i n with
  | case1 cond thenBranch =>
    simp only [allTidy_cons, allTidy_nil, and_true]
    exact ⟨tidy_header (by simp [Node.texts]), tidy_block thenBranch⟩
  | case2 cond thenBranch elseBranch ih =>
    simp only [allTidy_cons]
    exact ⟨tidy_header (by simp [Node.texts]), tidy_block thenBranch, tidy_own (delimited_str (by decide)), ih⟩
  | case3 other hnone hsome => simpa using tidy_block other

end Segment

namespace Env

open Segment (AllTidy allTidy_nil allTidy_cons allTidy_append tidy_own tidy_part tidy_block tidy_header
  tidy_branch)

variable {env : Env} (henv : env.Avoids Text.delimiters)

include henv

theorem delimited_node {n : Node}
    (h : ∀ p ∈ n.positions env.options.overlappingInterfaces, p.Fits true Text.delimiters) (i : Indent) :
    Delimited (env.node i n).chars :=
  (layout_node (List.Subset.refl _) henv n h).delimited i

theorem delimited_type {t : GoType}
    (h : ∀ p ∈ t.positions env.options.overlappingInterfaces "", p.Fits true Text.delimiters) (i : Indent) :
    Delimited (env.type i "" t).chars :=
  (layout_type (List.Subset.refl _) henv "" t h).delimited i

omit henv in
theorem delimited_endStatement (i : Indent) : Delimited (Doc.endStatement i).chars := by
  cases i with
  | inline => exact .nil
  | level k => exact delimited_newline

theorem delimited_localVarHead {d : Binding} {value : Node} {ok : Option OkBinding}
    (hname : Text.avoids Text.delimiters d.name.toList)
    (hok : ∀ b ∈ ok, Text.avoids Text.delimiters b.okName.toList)
    (htype : ∀ p ∈ localTypePositions env.options.overlappingInterfaces d.type (some value),
      p.Fits true Text.delimiters) (i : Indent) :
    Delimited (env.localVarHead i d (VarShape.local d.type (some value) ok)).chars := by
  cases hshape : VarShape.local d.type (some value) ok with
  | checked b =>
    have hnames : TextLayout true Text.delimiters .inside fun _ => (checkedNames d.name b).chars :=
      layout_checkedNames (List.Subset.refl _) hname (hok b (VarShape.local_eq_checked hshape))
    exact (hnames.delimited i).followed (delimited_str (by decide))
  | inferred => exact (delimited_str hname).followed (delimited_str (by decide))
  | declared =>
    have hdeclared := layout_localType (List.Subset.refl _) henv hshape htype
    exact (((delimited_str (by decide)).followed (delimited_str hname)).followed
      (hdeclared.delimited i)).followed (delimited_str (by decide))

theorem tidy_const {d : Binding} {value : Node} (hd : ∀ s ∈ d.texts, Text.avoids Text.delimiters s.toList)
    (htype : ∀ p ∈ constTypePositions env.options.overlappingInterfaces d.type,
      p.Fits true Text.delimiters) (i : Indent) : AllTidy (env.segments i (.const d value)) := by
  rw [Binding.texts, List.forall_mem_cons, List.forall_mem_map] at hd
  have hdeclared := layout_constType (List.Subset.refl _) henv htype
  simp only [segments, allTidy_cons, allTidy_nil, and_true]
  exact ⟨tidy_own (delimited_comments env i hd.2), tidy_own (delimited_tabs i),
    tidy_own ((delimited_str (by decide)).followed (delimited_str hd.1)),
    tidy_own (hdeclared.delimited i), tidy_own (delimited_str (by decide)), tidy_part,
    tidy_own (delimited_endStatement i)⟩

theorem tidy_var {d : Binding} {value : Node} {ok : Option OkBinding}
    (hd : ∀ s ∈ d.texts, Text.avoids Text.delimiters s.toList)
    (hok : ∀ b ∈ ok, Text.avoids Text.delimiters b.okName.toList)
    (htype : ∀ p ∈ localTypePositions env.options.overlappingInterfaces d.type (some value),
      p.Fits true Text.delimiters) (i : Indent) : AllTidy (env.segments i (.var d (some value) ok)) := by
  rw [Binding.texts, List.forall_mem_cons, List.forall_mem_map] at hd
  have hhead := delimited_localVarHead henv hd.1 hok htype i
  simp only [segments, allTidy_cons, allTidy_nil, and_true]
  exact ⟨tidy_own (delimited_comments env i hd.2), tidy_own (delimited_tabs i), tidy_own hhead,
    tidy_part, tidy_own (delimited_endStatement i)⟩

theorem tidy_toType {expr : Node} {target : GoType}
    (h : ∀ p ∈ target.positions env.options.overlappingInterfaces "", p.Fits true Text.delimiters)
    (i : Indent) : AllTidy (env.segments i (.toType expr target)) := by
  have henclosed : Delimited (Doc.enclose true (env.type i "" target)).chars := by
    rw [Doc.chars_enclose]
    exact (delimited_type henv h i).bracketed (Bracket.mem_brackets .round)
  simp only [segments, allTidy_cons, allTidy_nil, and_true]
  exact ⟨tidy_part, tidy_own ((delimited_str (by decide)).followed henclosed)⟩

omit henv in
theorem tidy_op1 (op : UnaryOp) (operand : Node) (i : Indent) :
    AllTidy (env.segments i (.op1 op operand)) := by
  have hop : Delimited (Doc.str op.symbol).chars := by cases op <;> exact delimited_str (by decide)
  simp only [segments, allTidy_cons, allTidy_nil, and_true]
  exact ⟨tidy_own hop, tidy_part⟩

omit henv in
theorem tidy_op2 (op : BinaryOp) (left right : Node) (i : Indent) :
    AllTidy (env.segments i (.op2 op left right)) := by
  have hlayout : TextLayout true Text.delimiters .inside fun _ => (" " ++ op.symbol ++ " ").toList :=
    layout_binaryOp (List.Subset.refl _) op
  have hop : Delimited (Doc.str (" " ++ op.symbol ++ " ")).chars := by
    rw [Doc.chars_str]
    exact hlayout.delimited i
  simp only [segments, allTidy_cons, allTidy_nil, and_true]
  exact ⟨tidy_part, tidy_own hop, tidy_part⟩

omit henv in
/-- A loop writes its header and its body between the ends of a statement. -/
theorem tidy_loop {n : Node} (hfits : (Position.node n).Fits true Text.delimiters) (body : Node) (i : Indent) :
    AllTidy [Segment.own (Doc.tabs i), ⟨none, Segment.header i n⟩, Segment.block i body,
      Segment.own (Doc.endStatement i)] := by
  simp only [allTidy_cons, allTidy_nil, and_true]
  exact ⟨tidy_own (delimited_tabs i), tidy_header hfits.texts, tidy_block body,
    tidy_own (delimited_endStatement i)⟩

/-- The text that a node puts around its parts is delimited. -/
theorem tidy_segments {n : Node}
    (h : ∀ p ∈ n.positions env.options.overlappingInterfaces, p.Fits true Text.delimiters) (i : Indent) :
    AllTidy (env.segments i n) := by
  have hleaf : AllTidy [Segment.own (env.node i n)] := by
    simpa using tidy_own (delimited_node henv h i)
  cases n with
  | litArr type elems =>
    rw [Node.positions, List.forall_mem_cons, List.forall_mem_append] at h
    simp only [segments, allTidy_cons, allTidy_nil, and_true]
    exact ⟨tidy_own (delimited_type henv h.2.1 i), Stretch.tidy_nodes i elems⟩
  | litObj type fields =>
    rw [Node.positions, List.forall_mem_cons, List.forall_mem_append] at h
    simp only [segments, allTidy_cons, allTidy_nil, and_true]
    exact ⟨tidy_own (delimited_type henv h.2.1 i), Stretch.tidy_fields i h.1.texts⟩
  | const d value =>
    rw [Node.positions, List.forall_mem_cons, List.forall_mem_append] at h
    exact tidy_const henv h.1.texts h.2.1 i
  | var d value ok =>
    cases value with
    | none => exact hleaf
    | some value =>
      rw [Node.positions, List.forall_mem_cons, List.forall_mem_append] at h
      have htexts := h.1.texts
      rw [Position.texts, Node.texts, List.forall_mem_append, List.forall_mem_map] at htexts
      exact tidy_var henv htexts.1 (fun b hb => htexts.2 b (Option.mem_toList.mpr hb)) h.2.1 i
  | block stmts =>
    cases stmts with
    | nil => exact hleaf
    | cons s ss => simpa [segments] using Stretch.tidy_lines i (s :: ss)
  | ifElse cond thenBranch elseBranch =>
    simp only [segments, allTidy_cons, allTidy_append, allTidy_nil, and_true]
    exact ⟨tidy_own (delimited_tabs i), tidy_branch _, tidy_own (delimited_endStatement i)⟩
  | forRange | forClassic | forWhile => exact tidy_loop (h _ List.mem_cons_self) _ i
  | set left right =>
    simp only [segments, allTidy_cons, allTidy_nil, and_true]
    exact ⟨tidy_own (delimited_tabs i), tidy_part, tidy_own (delimited_str (by decide)), tidy_part,
      tidy_own (delimited_endStatement i)⟩
  | ret value =>
    cases value with
    | none => exact hleaf
    | some value =>
      simp only [segments, allTidy_cons, allTidy_nil, and_true]
      exact ⟨tidy_own (delimited_tabs i), tidy_own (delimited_str (by decide)), tidy_part,
        tidy_own (delimited_endStatement i)⟩
  | panic arg =>
    simp only [segments, allTidy_cons, allTidy_nil, and_true]
    exact ⟨tidy_own (delimited_tabs i), tidy_own (delimited_str (by decide)), tidy_part,
      tidy_own (delimited_endStatement i)⟩
  | call callee args =>
    simp only [segments, allTidy_cons, allTidy_nil, and_true]
    exact ⟨tidy_part, Stretch.tidy_nodes i args⟩
  | func signature =>
    obtain ⟨name, sourceName, comments, type⟩ := signature
    cases type with
    | func params results body =>
      cases body with
      | none => exact hleaf
      | some body =>
        rw [Node.positions, List.forall_mem_append, List.forall_mem_append, List.forall_mem_cons] at h
        have hhead := layout_literalHead (List.Subset.refl _) henv true h.2.1 h.1.1 h.1.2
        simp only [segments, allTidy_cons, allTidy_nil, and_true]
        exact ⟨tidy_own (hhead.delimited i), tidy_own delimited_space, tidy_block body⟩
    | _ => exact hleaf
  | dot left right =>
    simp only [segments, allTidy_cons, allTidy_nil, and_true]
    exact ⟨tidy_part, tidy_own (delimited_str (by decide)), tidy_part⟩
  | index left right =>
    simp only [segments, allTidy_cons, allTidy_nil, and_true]
    exact ⟨tidy_part, tidy_part⟩
  | toType expr target =>
    rw [Node.positions, List.forall_mem_cons, List.forall_mem_append] at h
    exact tidy_toType henv h.2.2 i
  | op1 op operand => exact tidy_op1 op operand i
  | op2 op left right => exact tidy_op2 op left right i
  | _ => exact hleaf

/-- Whatever the text of a node is cut up into is delimited. -/
theorem delimited_segments {n : Node}
    (h : ∀ p ∈ n.positions env.options.overlappingInterfaces, p.Fits true Text.delimiters) (i : Indent) :
    ∀ s ∈ env.segments i n, ∀ x ∈ s.inner, Delimited (x.chars env) := by
  intro s hs x hx
  cases x with
  | text d => exact tidy_segments henv h i s hs d hx
  | part j m =>
    have hmem : (s.bracket, m) ∈ n.parts := by
      rw [← parts_segments env i n, List.mem_flatMap]
      refine ⟨s, hs, List.mem_map.mpr ⟨m, List.mem_flatMap.mpr ⟨_, hx, ?_⟩, rfl⟩⟩
      simp
    exact delimited_node henv (fun p hp => h p (Node.mem_positions_of_parts hmem hp)) j

end Env

/-! ## What stands inside a node -/

/-- The node `l` stands inside `n`, or is `n` itself; `path` are the brackets around it, innermost first. -/
inductive Node.Inside : Node → List Bracket → Node → Prop
  | here (n : Node) : Inside n [] n
  | inside {n m l : Node} {b : Option Bracket} {path : List Bracket} :
      (b, m) ∈ n.parts → Inside m path l → Inside n (path ++ b.toList) l

/-- Each composite literal that a node renders stands inside it. -/
theorem Node.exists_inside {embeds : Bool} {n l : Node} (hl : l.isComposite)
    (h : .node l ∈ n.positions embeds) : ∃ path, n.Inside path l := by
  induction n using part_induction with
  | h n ih =>
    rcases exists_part hl h with rfl | ⟨⟨b, m⟩, hm, hpart⟩
    · exact ⟨[], .here l⟩
    · obtain ⟨path, hinside⟩ := ih _ hm hpart
      exact ⟨_, .inside hm hinside⟩

/-- Among the segments the part `m` is written at `j`, in the bracket `b`, behind the text `before`. -/
inductive Segment.HasPart (env : Env) :
    List Segment → List Char → Option Bracket → Indent → Node → Prop
  | intro (ss ts : List Segment) (b : Option Bracket) (xs ys : List Stretch) (j : Indent) (m : Node) :
      HasPart env (ss ++ ⟨b, xs ++ .part j m :: ys⟩ :: ts)
        (ss.flatMap (chars env) ++ (b.toList.map Bracket.opening ++ xs.flatMap (Stretch.chars env))) b j m

/-- In the text of `n` at `i`, the node `l` is written at `j` behind the text `before`. -/
inductive Env.Shows (env : Env) : Indent → Node → List Char → Indent → Node → Prop
  | here (i : Indent) (n : Node) : Shows env i n [] i n
  | inside {i j k : Indent} {n m l : Node} {b : Option Bracket} {before before' : List Char} :
      Segment.HasPart env (env.segments i n) before b j m → Shows env j m before' k l →
        Shows env i n (before ++ before') k l

namespace Segment

variable {env : Env} {ss : List Segment} {before : List Char} {b : Option Bracket} {j : Indent} {m : Node}

/-- Behind the text before a part stands the text of the part. -/
theorem HasPart.exists_eq (h : HasPart env ss before b j m) :
    ∃ after, ss.flatMap (chars env) = before ++ ((env.node j m).chars ++ after) := by
  obtain ⟨ss, ts, b, xs, ys, j, m⟩ := h
  refine ⟨ys.flatMap (Stretch.chars env) ++ (b.toList.map Bracket.closing ++ ts.flatMap (chars env)), ?_⟩
  simp [chars]

theorem HasPart.mem_parts (h : HasPart env ss before b j m) : (b, m) ∈ ss.flatMap parts := by
  obtain ⟨ss, ts, b, xs, ys, j, m⟩ := h
  simp

theorem exists_hasPart (h : (b, m) ∈ ss.flatMap parts) : ∃ before j, HasPart env ss before b j m := by
  obtain ⟨⟨c, inner⟩, hs, hmem⟩ := List.mem_flatMap.mp h
  rw [parts_mk, List.mem_map] at hmem
  obtain ⟨m', hm, heq⟩ := hmem
  obtain ⟨rfl, rfl⟩ := Prod.mk.inj heq
  obtain ⟨x, hx, hpart⟩ := List.mem_flatMap.mp hm
  cases x with
  | text d => cases hpart
  | part j m' =>
    obtain rfl := List.mem_singleton.mp hpart
    obtain ⟨ss, ts, rfl⟩ := List.append_of_mem hs
    obtain ⟨xs, ys, rfl⟩ := List.append_of_mem hx
    exact ⟨_, j, .intro ss ts c xs ys j _⟩

theorem delimited_chars {s : Segment} (h : ∀ x ∈ s.inner, Delimited (x.chars env)) :
    Delimited (s.chars env) := by
  obtain ⟨b, xs⟩ := s
  cases b with
  | none =>
    rw [chars_unbracketed]
    exact Go.Delimited.flatMap h
  | some b =>
    rw [chars_bracketed]
    exact (Go.Delimited.flatMap h).bracketed b.mem_brackets

/-- In front of a part the bracket is open that the part stands in, and no other one. -/
theorem HasPart.leaves (h : HasPart env ss before b j m)
    (hss : ∀ s ∈ ss, ∀ x ∈ s.inner, Delimited (x.chars env)) : Go.Leaves before b.toList := by
  obtain ⟨ss, ts, b, xs, ys, j, m⟩ := h
  rw [List.forall_mem_append, List.forall_mem_cons, List.forall_mem_append] at hss
  obtain ⟨hss, ⟨hxs, -⟩, -⟩ := hss
  have hsegments : Delimited (ss.flatMap (chars env)) := Go.Delimited.flatMap fun s hs => delimited_chars (hss s hs)
  have hstretches : Delimited (xs.flatMap (Stretch.chars env)) := Go.Delimited.flatMap hxs
  simpa using hsegments.leaves.append ((Go.leaves_opening b).append hstretches.leaves)

end Segment

namespace Env

variable {env : Env} {i j : Indent} {n l : Node} {before : List Char} {path : List Bracket}

/-- Behind the text before a node stands the text of the node. -/
theorem Shows.exists_eq (h : env.Shows i n before j l) :
    ∃ after, (env.node i n).chars = before ++ ((env.node j l).chars ++ after) := by
  induction h with
  | here i n => exact ⟨[], by simp⟩
  | inside hpart _ ih =>
    obtain ⟨outer, houter⟩ := hpart.exists_eq
    obtain ⟨inner, hinner⟩ := ih
    rw [chars_segments, hinner] at houter
    refine ⟨inner ++ outer, ?_⟩
    simp only [houter, List.append_assoc]

/-- The brackets that are open in front of a node are those around it in the tree. -/
theorem Shows.exists_inside (henv : env.Avoids Text.delimiters) (h : env.Shows i n before j l)
    (hfits : ∀ p ∈ n.positions env.options.overlappingInterfaces, p.Fits true Text.delimiters) :
    ∃ path, n.Inside path l ∧ Go.Leaves before path := by
  induction h with
  | here i n => exact ⟨[], .here n, Delimited.nil.leaves⟩
  | inside hpart _ ih =>
    have hmem := hpart.mem_parts
    rw [parts_segments] at hmem
    obtain ⟨path, hinside, hleaves⟩ := ih fun p hp => hfits p (Node.mem_positions_of_parts hmem hp)
    exact ⟨_, .inside hmem hinside, (hpart.leaves (delimited_segments henv hfits _)).append hleaves⟩

/-- Each node inside another one is written somewhere in its text. -/
theorem exists_shows (henv : env.Avoids Text.delimiters) (h : n.Inside path l)
    (hfits : ∀ p ∈ n.positions env.options.overlappingInterfaces, p.Fits true Text.delimiters) (i : Indent) :
    ∃ before j, env.Shows i n before j l ∧ Go.Leaves before path := by
  induction h generalizing i with
  | here n => exact ⟨[], i, .here i n, Delimited.nil.leaves⟩
  | inside hmem _ ih =>
    have hparts := hmem
    rw [← parts_segments env i] at hparts
    obtain ⟨before, j, hpart⟩ := Segment.exists_hasPart hparts
    obtain ⟨before', k, hshows, hleaves⟩ := ih (fun p hp => hfits p (Node.mem_positions_of_parts hmem hp)) j
    exact ⟨_, k, .inside hpart hshows, (hpart.leaves (delimited_segments henv hfits i)).append hleaves⟩

end Env

end GoScribe
