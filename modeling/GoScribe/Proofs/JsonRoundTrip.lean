import GoScribe.Json.Decode
import GoScribe.Proofs.JsonContent

/-!
# Modules in JSON

The content of the JSON form of modules, declarations, nodes and types: which parts are records, and which
fields of them have a default.  The document that leaves nothing out is the full JSON form, and every way to
write the content is read as the very module.  Main statement: `Module.ofJson?_of_writtenAs`.
-/

namespace GoScribe

open Json
open Json.Content

/-! ## Leaves and flat records -/

namespace Json.Content

/-- A string. -/
def ofStr (s : String) : Content := .scalar (.str s)

/-- A truth value. -/
def ofBool (b : Bool) : Content := .scalar (.bool b)

/-- A string that may be missing. -/
def ofStr? (s : Option String) : Content := .scalar (ofString? s)

/-- A list of strings. -/
def ofStrs (ss : List String) : Content := .list (ss.map ofStr)

end Json.Content

/-- The content of a comment. -/
def Comment.content : Comment → Content
  | .line text => .choice "Line" (.ofStr text)
  | .block text => .choice "Block" (.ofStr text)

/-- The content of a list of comments. -/
def Comment.listContent (cs : List Comment) : Content := .list (cs.map Comment.content)

/-- The content of the second result of a checked type assertion. -/
def OkBinding.content (b : OkBinding) : Content :=
  .record [⟨"ok_name", false, .ofStr b.okName⟩, ⟨"value_used", false, .ofBool b.valueUsed⟩]

/-- The content of a second result that may be missing. -/
def OkBinding.optContent : Option OkBinding → Content
  | none => .scalar .null
  | some b => b.content

/-- The content of an import. -/
def Import.content (i : Import) : Content :=
  .record [⟨"go_name", false, .ofStr i.goName⟩, ⟨"path", false, .ofStr i.path⟩,
    ⟨"source_module", i.sourceModule.isNone, .ofStr? i.sourceModule⟩]

/-! ## Types and nodes -/

mutual

/-- The content of a type. -/
def GoType.content : GoType → Content
  | .empty => .ofStr "Empty"
  | .named qualifiedName => .choice "Alias" (.ofStr qualifiedName)
  | .unresolved id => .choice "Unresolved" (.scalar (.int id.toNat))
  | .array elem => .choice "Array" elem.content
  | .pointer target => .choice "Pointer" target.content
  | .interface embeds methods isTypeVar =>
    .choice "Interface" (.record [
      ⟨"embeds", embeds.isEmpty, .ofStrs embeds⟩,
      ⟨"methods", methods.isEmpty, .list (Binding.contents methods)⟩,
      ⟨"is_type_var", !isTypeVar, .ofBool isTypeVar⟩])
  | .struct embeds fields byPointer methods =>
    .choice "Struct" (.record [
      ⟨"embeds", embeds.isEmpty, .ofStrs embeds⟩,
      ⟨"fields", fields.isEmpty, .list (Binding.contents fields)⟩,
      ⟨"pass_by_ptr", !byPointer, .ofBool byPointer⟩,
      ⟨"methods", methods.isEmpty, .list (Binding.contents methods)⟩])
  | .func params results body =>
    .choice "Func" (.record [
      ⟨"args", params.isEmpty, .list (Binding.contents params)⟩,
      ⟨"rets", results.isEmpty, .list (Binding.contents results)⟩,
      ⟨"body", body.isNone, Node.optContent body⟩])

/-- The content of a binding. -/
def Binding.content : Binding → Content
  | ⟨name, sourceName, comments, type⟩ =>
    .record [⟨"name", name == "", .ofStr name⟩, ⟨"source_name", sourceName == "", .ofStr sourceName⟩,
      ⟨"comments", comments.isEmpty, Comment.listContent comments⟩,
      ⟨"ty", type.isEmpty, type.content⟩]

/-- The contents of bindings. -/
def Binding.contents : List Binding → List Content
  | [] => []
  | b :: bs => b.content :: Binding.contents bs

/-- The content of a node. -/
def Node.content : Node → Content
  | .litStr value => .choice "LitStr" (.ofStr value)
  | .litBool value => .choice "LitBool" (.ofBool value)
  | .litNum value => .choice "LitNum" (.scalar (.float value))
  | .litInt value => .choice "LitInt" (.scalar (.int value.toInt))
  | .litArr type elems =>
    .choice "LitArr" (.record [⟨"ty", false, type.content⟩, ⟨"elems", false, .list (Node.contents elems)⟩])
  | .litObj type fields =>
    .choice "LitObj" (.record [
      ⟨"ty", false, type.content⟩, ⟨"fields", false, .list (FieldValue.contents fields)⟩])
  | .const decl value =>
    .choice "Const" (.record [⟨"decl", false, decl.content⟩, ⟨"value", false, value.content⟩])
  | .var decl value ok =>
    .choice "Let" (.record [
      ⟨"decl", false, decl.content⟩, ⟨"value", value.isNone, Node.optContent value⟩,
      ⟨"type_conv", ok.isNone, OkBinding.optContent ok⟩])
  | .block stmts => .choice "Block" (.list (Node.contents stmts))
  | .ifElse cond thenBranch elseBranch =>
    .choice "If" (.record [
      ⟨"cond", false, cond.content⟩, ⟨"then_block", false, thenBranch.content⟩,
      ⟨"else_block", elseBranch.isNone, Node.optContent elseBranch⟩])
  | .forRange item items body =>
    .choice "For" (.choice "Range" (.record [
      ⟨"value", false, .ofStr item⟩, ⟨"over", false, items.content⟩, ⟨"body", false, body.content⟩]))
  | .forClassic init cond step body =>
    .choice "For" (.choice "Classic" (.record [
      ⟨"init", init.isEmpty, .list (LoopVar.contents init)⟩,
      ⟨"cond", cond.isNone, Node.optContent cond⟩,
      ⟨"step", step.isEmpty, .list (LoopStep.contents step)⟩, ⟨"body", false, body.content⟩]))
  | .forWhile cond body =>
    .choice "For" (.choice "While" (.record [
      ⟨"cond", false, cond.content⟩, ⟨"body", false, body.content⟩]))
  | .set left right =>
    .choice "Set" (.record [⟨"left", false, left.content⟩, ⟨"right", false, right.content⟩])
  | .ret value => .choice "Return" (Node.optContent value)
  | .panic arg => .choice "Panic" arg.content
  | .comments cs => .choice "Comments" (Comment.listContent cs)
  | .sym name => .choice "Sym" (.ofStr name)
  | .pkgSym pkg symbol =>
    .choice "PkgSym" (.record [⟨"pkg", pkg.isNone, .ofStr? pkg⟩, ⟨"symbol", false, .ofStr symbol⟩])
  | .nil => .ofStr "Nil"
  | .call callee args =>
    .choice "Call" (.record [
      ⟨"callee", false, callee.content⟩, ⟨"args", false, .list (Node.contents args)⟩])
  | .func signature => .choice "Func" signature.content
  | .dot left right =>
    .choice "Dot" (.record [⟨"left", false, left.content⟩, ⟨"right", false, right.content⟩])
  | .index left right =>
    .choice "Index" (.record [⟨"left", false, left.content⟩, ⟨"right", false, right.content⟩])
  | .toType expr target =>
    .choice "ToType" (.record [⟨"expr", false, expr.content⟩, ⟨"target", false, target.content⟩])
  | .isType value typeName =>
    .choice "IsType" (.record [
      ⟨"value", false, .ofStr value⟩, ⟨"type_name", false, .ofStr typeName⟩])
  | .op1 op operand =>
    .choice "Op1" (.record [⟨"op", false, .ofStr op.symbol⟩, ⟨"operand", false, operand.content⟩])
  | .op2 op left right =>
    .choice "Op2" (.record [
      ⟨"op", false, .ofStr op.symbol⟩, ⟨"left", false, left.content⟩, ⟨"right", false, right.content⟩])
  | .unsupported kind detail =>
    .choice "Unsupported" (.record [⟨"kind", false, .ofStr kind⟩, ⟨"detail", false, .ofStr detail⟩])

/-- The content of a node that may be missing. -/
def Node.optContent : Option Node → Content
  | none => .scalar .null
  | some n => n.content

/-- The contents of nodes. -/
def Node.contents : List Node → List Content
  | [] => []
  | n :: ns => n.content :: Node.contents ns

/-- The contents of the fields of a composite literal. -/
def FieldValue.contents : List FieldValue → List Content
  | [] => []
  | ⟨name, value⟩ :: fs =>
    .record [⟨"name", name.isNone, .ofStr? name⟩, ⟨"value", false, value.content⟩] ::
      FieldValue.contents fs

/-- The contents of the variables that a loop introduces. -/
def LoopVar.contents : List LoopVar → List Content
  | [] => []
  | ⟨name, value⟩ :: vs =>
    .record [⟨"name", false, .ofStr name⟩, ⟨"value", false, value.content⟩] :: LoopVar.contents vs

/-- The contents of the step clause of a loop. -/
def LoopStep.contents : List LoopStep → List Content
  | [] => []
  | ⟨left, right⟩ :: ss =>
    .record [⟨"left", false, left.content⟩, ⟨"right", false, right.content⟩] :: LoopStep.contents ss

end

/-- The content of a declaration. -/
def Decl.content : Decl → Content
  | .type definition => .choice "Type" definition.content
  | .const decl value =>
    .choice "Const" (.record [⟨"decl", false, decl.content⟩, ⟨"value", false, value.content⟩])
  | .var decl value ok =>
    .choice "Var" (.record [
      ⟨"decl", false, decl.content⟩, ⟨"value", value.isNone, Node.optContent value⟩,
      ⟨"type_conv", ok.isNone, OkBinding.optContent ok⟩])
  | .func definition => .choice "Func" definition.content

/-- The content of a module. -/
def Module.content (m : Module) : Content :=
  .record [⟨"name", m.name == "", .ofStr m.name⟩,
    ⟨"source_name", m.sourceName == "", .ofStr m.sourceName⟩,
    ⟨"imports", m.imports.isEmpty, .list (m.imports.map Import.content)⟩,
    ⟨"decls", m.decls.isEmpty, .list (m.decls.map Decl.content)⟩]

/-! ## The full document is the JSON form -/

theorem Json.Content.toJsons_map {α : Type} (f : α → Content) (as : List α) :
    toJsons (as.map f) = as.map fun a => (f a).toJson := by
  induction as with
  | nil => rfl
  | cons a as ih => rw [List.map_cons, toJsons, ih, List.map_cons]

@[simp] theorem Json.Content.toJson_ofStrs (ss : List String) : (ofStrs ss).toJson = ofStrings ss :=
  congrArg Json.arr (toJsons_map ofStr ss)

theorem Comment.toJson_content (c : Comment) : c.content.toJson = c.toJson := by
  cases c <;> rfl

@[simp] theorem Comment.toJson_listContent (cs : List Comment) :
    (Comment.listContent cs).toJson = Comment.listToJson cs := by
  rw [listContent, Content.toJson, toJsons_map, Comment.listToJson]
  simp only [Comment.toJson_content]

mutual

theorem GoType.toJson_content : (t : GoType) → t.content.toJson = t.toJson
  | .empty | .named _ | .unresolved _ => rfl
  | .array elem => congrArg (tagged "Array") (GoType.toJson_content elem)
  | .pointer target => congrArg (tagged "Pointer") (GoType.toJson_content target)
  | .interface embeds methods _ => by
    rw [GoType.content, GoType.toJson, ← Binding.toJsons_contents methods, ← toJson_ofStrs embeds]
    rfl
  | .struct embeds fields _ methods => by
    rw [GoType.content, GoType.toJson, ← Binding.toJsons_contents methods,
      ← Binding.toJsons_contents fields, ← toJson_ofStrs embeds]
    rfl
  | .func params results body => by
    rw [GoType.content, GoType.toJson, ← Binding.toJsons_contents params,
      ← Binding.toJsons_contents results, ← Node.toJson_optContent body]
    rfl

theorem Binding.toJson_content : (b : Binding) → b.content.toJson = b.toJson
  | ⟨_, _, comments, type⟩ => by
    rw [Binding.content, Binding.toJson, ← Comment.toJson_listContent comments,
      ← GoType.toJson_content type]
    rfl

theorem Binding.toJsons_contents : (bs : List Binding) →
    toJsons (Binding.contents bs) = Binding.listToJson bs
  | [] => rfl
  | b :: bs => by
    rw [Binding.contents, Binding.listToJson, toJsons, Binding.toJson_content b,
      Binding.toJsons_contents bs]

theorem Node.toJson_content : (n : Node) → n.content.toJson = n.toJson
  | .litStr _ | .litBool _ | .litNum _ | .litInt _ | .sym _ | .nil | .isType .. | .unsupported ..
  | .pkgSym .. => rfl
  | .litArr type elems => by
    rw [Node.content, Node.toJson, ← Binding.toJson_content type, ← Node.toJsons_contents elems]
    rfl
  | .litObj type fields => by
    rw [Node.content, Node.toJson, ← Binding.toJson_content type, ← FieldValue.toJsons_contents fields]
    rfl
  | .const decl value => by
    rw [Node.content, Node.toJson, ← Binding.toJson_content decl, ← Node.toJson_content value]
    rfl
  | .var decl value none | .var decl value (some _) => by
    rw [Node.content, Node.toJson, ← Binding.toJson_content decl, ← Node.toJson_optContent value]
    rfl
  | .block stmts => by
    rw [Node.content, Node.toJson, ← Node.toJsons_contents stmts]
    rfl
  | .ifElse cond thenBranch elseBranch => by
    rw [Node.content, Node.toJson, ← Node.toJson_content cond, ← Node.toJson_content thenBranch,
      ← Node.toJson_optContent elseBranch]
    rfl
  | .forRange item items body => by
    rw [Node.content, Node.toJson, ← Node.toJson_content items, ← Node.toJson_content body]
    rfl
  | .forClassic init cond step body => by
    rw [Node.content, Node.toJson, ← LoopVar.toJsons_contents init, ← Node.toJson_optContent cond,
      ← LoopStep.toJsons_contents step, ← Node.toJson_content body]
    rfl
  | .forWhile cond body => by
    rw [Node.content, Node.toJson, ← Node.toJson_content cond, ← Node.toJson_content body]
    rfl
  | .ret value => by
    rw [Node.content, Node.toJson, ← Node.toJson_optContent value]
    rfl
  | .panic arg => by
    rw [Node.content, Node.toJson, ← Node.toJson_content arg]
    rfl
  | .comments cs => by
    rw [Node.content, Node.toJson, ← Comment.toJson_listContent cs]
    rfl
  | .call callee args => by
    rw [Node.content, Node.toJson, ← Node.toJson_content callee, ← Node.toJsons_contents args]
    rfl
  | .func signature => by
    rw [Node.content, Node.toJson, ← Binding.toJson_content signature]
    rfl
  | .toType expr target => by
    rw [Node.content, Node.toJson, ← Node.toJson_content expr, ← GoType.toJson_content target]
    rfl
  | .op1 _ operand => by
    rw [Node.content, Node.toJson, ← Node.toJson_content operand]
    rfl
  | .set left right | .dot left right | .index left right | .op2 _ left right => by
    rw [Node.content, Node.toJson, ← Node.toJson_content left, ← Node.toJson_content right]
    rfl

theorem Node.toJson_optContent : (n : Option Node) → (Node.optContent n).toJson = Node.optToJson n
  | none => rfl
  | some n => Node.toJson_content n

theorem Node.toJsons_contents : (ns : List Node) → toJsons (Node.contents ns) = Node.listToJson ns
  | [] => rfl
  | n :: ns => by
    rw [Node.contents, Node.listToJson, toJsons, Node.toJson_content n, Node.toJsons_contents ns]

theorem FieldValue.toJsons_contents : (fs : List FieldValue) →
    toJsons (FieldValue.contents fs) = FieldValue.listToJson fs
  | [] => rfl
  | ⟨_, value⟩ :: fs => by
    rw [FieldValue.contents, FieldValue.listToJson, toJsons, ← Node.toJson_content value,
      FieldValue.toJsons_contents fs]
    rfl

theorem LoopVar.toJsons_contents : (vs : List LoopVar) →
    toJsons (LoopVar.contents vs) = LoopVar.listToJson vs
  | [] => rfl
  | ⟨_, value⟩ :: vs => by
    rw [LoopVar.contents, LoopVar.listToJson, toJsons, ← Node.toJson_content value,
      LoopVar.toJsons_contents vs]
    rfl

theorem LoopStep.toJsons_contents : (ss : List LoopStep) →
    toJsons (LoopStep.contents ss) = LoopStep.listToJson ss
  | [] => rfl
  | ⟨left, right⟩ :: ss => by
    rw [LoopStep.contents, LoopStep.listToJson, toJsons, ← Node.toJson_content left,
      ← Node.toJson_content right, LoopStep.toJsons_contents ss]
    rfl

end

theorem Decl.toJson_content (d : Decl) : d.content.toJson = d.toJson := by
  cases d with
  | type definition | func definition =>
    rw [Decl.content, Decl.toJson, ← Binding.toJson_content definition]
    rfl
  | const decl value =>
    rw [Decl.content, Decl.toJson, ← Binding.toJson_content decl, ← Node.toJson_content value]
    rfl
  | var decl value ok =>
    rw [Decl.content, Decl.toJson.eq_def]
    dsimp only
    rw [← Binding.toJson_content decl, ← Node.toJson_optContent value]
    cases ok <;> rfl

theorem Module.toJson_content (m : Module) : m.content.toJson = m.toJson := by
  have himports : toJsons (m.imports.map Import.content) = m.imports.map Import.toJson :=
    toJsons_map Import.content m.imports
  have hdecls : toJsons (m.decls.map Decl.content) = m.decls.map Decl.toJson := by
    rw [toJsons_map, funext Decl.toJson_content]
  rw [Module.content, Module.toJson, ← himports, ← hdecls]
  rfl

/-! ## Readers of leaves and flat records -/

namespace Json.Content

section

variable {α : Type} {a : α}

/-- A choice is read as its alternative reads the data. -/
theorem readBy_choice {tag : String} {data : Content} {decode : Json → Option α}
    (h : data.ReadBy (fun j => decode (.obj [(tag, j)])) a) : (choice tag data).ReadBy decode a := by
  intro j hj
  cases hj with
  | choice hdata => exact h _ hdata

/-- A record of two fields without defaults is read as its reader goes on with them. -/
theorem readBy_pair {β γ : Type} {b : β} {r : γ} {name₁ name₂ : String} {c₁ c₂ : Content}
    {decode₁ : Json → Option α} {decode₂ : Json → Option β} {decode : Json → Option γ}
    (hnames : name₁ ≠ name₂) (h₁ : c₁.ReadBy decode₁ a) (h₂ : c₂.ReadBy decode₂ b)
    (hdecode : ∀ j v w, fields? [name₁, name₂] j = some [v, w] → Json.required decode₁ v = some a →
      Json.required decode₂ w = some b → decode j = some r) :
    (record [⟨name₁, false, c₁⟩, ⟨name₂, false, c₂⟩]).ReadBy decode r := by
  intro j hj
  obtain ⟨_, hvs, hfound⟩ := hj.fields (by simpa using hnames)
  rcases hfound with _ | ⟨hv, _ | ⟨hw, _ | _⟩⟩
  exact hdecode j _ _ hvs (h₁.required rfl hv) (h₂.required rfl hw)

/-- An alternative is read back if its data are, one level further in. -/
theorem readBy_alternative {β : Type} {r : β} {tag : String} {data : Content} {n : Nat}
    {decode : Nat → Json → Option β} {decodeData : Nat → Json → Option α}
    (hn : (choice tag data).toJson.nesting ≤ n)
    (hdata : ∀ k, data.toJson.nesting ≤ k → data.ReadBy (decodeData k) a)
    (hdecode : ∀ k j, decodeData k j = some a → decode (k + 1) (.obj [(tag, j)]) = some r) :
    (choice tag data).ReadBy (decode n) r := by
  obtain ⟨k, rfl, hk⟩ := nesting_choice hn
  exact readBy_choice fun j hj => hdecode k j (hdata k hk j hj)

/-- An alternative with two fields is read back if both of them are, two levels further in. -/
theorem readBy_pairAlternative {β γ : Type} {b : β} {r : γ} {tag name₁ name₂ : String} {c₁ c₂ : Content}
    {n : Nat} {decode : Nat → Json → Option γ} {decode₁ : Nat → Json → Option α}
    {decode₂ : Nat → Json → Option β}
    (hn : (choice tag (record [⟨name₁, false, c₁⟩, ⟨name₂, false, c₂⟩])).toJson.nesting ≤ n)
    (hnames : name₁ ≠ name₂) (h₁ : ∀ k, c₁.toJson.nesting ≤ k → c₁.ReadBy (decode₁ k) a)
    (h₂ : ∀ k, c₂.toJson.nesting ≤ k → c₂.ReadBy (decode₂ k) b)
    (hdecode : ∀ k j v w, fields? [name₁, name₂] j = some [v, w] →
      Json.required (decode₁ k) v = some a → Json.required (decode₂ k) w = some b →
      decode (k + 2) (.obj [(tag, j)]) = some r) :
    (choice tag (record [⟨name₁, false, c₁⟩, ⟨name₂, false, c₂⟩])).ReadBy (decode n) r := by
  obtain ⟨k, rfl, hk⟩ := nesting_choiceRecord hn
  simp only [List.forall_mem_cons] at hk
  exact readBy_choice (readBy_pair hnames (h₁ k hk.1) (h₂ k hk.2.1) (hdecode k))

/-- A list is read element by element, one level further in. -/
theorem readBy_list (decodeList : Nat → Json → Option (List α)) {decode : Nat → Json → Option α}
    {cs : List Content} {as : List α} {n : Nat} (hn : (list cs).toJson.nesting ≤ n)
    (hlist : ∀ k js, decodeList (k + 1) (.arr js) = js.mapM (decode k))
    (h : ∀ k, (∀ c ∈ cs, c.toJson.nesting ≤ k) →
      List.Forall₂ (fun c a => c.ReadBy (decode k) a) cs as) :
    (list cs).ReadBy (decodeList n) as := by
  obtain ⟨k, rfl, hk⟩ := nesting_list hn
  intro j hj
  cases hj with
  | list hjs =>
    rw [hlist]
    exact hjs.mapM (h k hk)

/-- The elements of a list are read one by one. -/
theorem forall₂_readBy_map {content : α → Content} {decode : Json → Option α} {as : List α}
    (h : ∀ a ∈ as, (content a).ReadBy decode a) :
    List.Forall₂ (fun c a => c.ReadBy decode a) (as.map content) as := by
  rw [List.forall₂_map_left_iff, List.forall₂_same]
  exact h

end

theorem readBy_ofStr (s : String) : (ofStr s).ReadBy asString? s :=
  readBy_scalar rfl

theorem readBy_ofBool (b : Bool) : (ofBool b).ReadBy asBool? b :=
  readBy_scalar rfl

theorem readBy_ofStr? (s : Option String) : (ofStr? s).ReadBy (nullable asString?) s := by
  cases s with
  | none => exact readBy_null
  | some s => exact readBy_scalar rfl

theorem readBy_ofStrs {ss : List String} {n : Nat} (hn : (ofStrs ss).toJson.nesting ≤ n) :
    (ofStrs ss).ReadBy (stringsOfJson? n) ss :=
  readBy_list stringsOfJson? hn (fun _ _ => rfl) fun _ _ =>
    forall₂_readBy_map fun s _ => readBy_ofStr s

end Json.Content

theorem asUInt64?_toNat (x : UInt64) : asUInt64? (.int x.toNat) = some x := by
  have hlt : x.toNat < UInt64.size := x.toNat_lt_size
  simp [asUInt64?, hlt]

theorem asInt64?_toInt (x : Int64) : asInt64? (.int x.toInt) = some x := by
  have hmin : Int64.minValue.toInt ≤ x.toInt := x.minValue_le_toInt
  have hmax : x.toInt ≤ Int64.maxValue.toInt := x.toInt_le
  rw [asInt64?, if_pos (by rw [decide_eq_true hmin, decide_eq_true hmax]; rfl), x.ofInt_toInt]

theorem UnaryOp.ofSymbol?_symbol (op : UnaryOp) : UnaryOp.ofSymbol? op.symbol = some op := by
  cases op <;> rfl

theorem BinaryOp.ofSymbol?_symbol (op : BinaryOp) : BinaryOp.ofSymbol? op.symbol = some op := by
  cases op <;> rfl

theorem UnaryOp.readBy_symbol (op : UnaryOp) (n : Nat) :
    (ofStr op.symbol).ReadBy (UnaryOp.ofJson? n) op := by
  refine readBy_scalar ?_
  cases n <;> exact op.ofSymbol?_symbol

theorem BinaryOp.readBy_symbol (op : BinaryOp) (n : Nat) :
    (ofStr op.symbol).ReadBy (BinaryOp.ofJson? n) op := by
  refine readBy_scalar ?_
  cases n <;> exact op.ofSymbol?_symbol

theorem Comment.readBy_content {c : Comment} {n : Nat} (hn : c.content.toJson.nesting ≤ n) :
    c.content.ReadBy (Comment.ofJson? n) c := by
  cases c with
  | line text | block text =>
    exact readBy_alternative hn (fun _ _ => readBy_ofStr text) fun _ _ h => andThen h rfl

theorem Comment.readBy_listContent {cs : List Comment} {n : Nat}
    (hn : (Comment.listContent cs).toJson.nesting ≤ n) :
    (Comment.listContent cs).ReadBy (Comment.listOfJson? n) cs :=
  readBy_list Comment.listOfJson? hn (fun _ _ => rfl) fun _ hk =>
    forall₂_readBy_map fun _ hc => Comment.readBy_content (hk _ (List.mem_map_of_mem hc))

theorem OkBinding.readBy_content {b : OkBinding} {n : Nat} (hn : b.content.toJson.nesting ≤ n) :
    b.content.ReadBy (OkBinding.ofJson? n) b := by
  obtain ⟨n, rfl, -⟩ := nesting_record hn
  intro j hj
  obtain ⟨_, hvs, hfound⟩ := hj.fields (by simp)
  rcases hfound with _ | ⟨hokName, _ | ⟨hvalueUsed, _ | _⟩⟩
  exact andThen hvs (andThen ((readBy_ofStr _).required rfl hokName)
    (andThen ((readBy_ofBool _).required rfl hvalueUsed) rfl))

theorem OkBinding.readBy_optContent {b : Option OkBinding} {n : Nat}
    (hn : (OkBinding.optContent b).toJson.nesting ≤ n) :
    (OkBinding.optContent b).ReadBy (nullable (OkBinding.ofJson? n)) b := by
  cases b with
  | none => exact readBy_null
  | some b => exact (OkBinding.readBy_content hn).nullable (by cases n <;> rfl)

theorem Import.readBy_content {i : Import} {n : Nat} (hn : i.content.toJson.nesting ≤ n) :
    i.content.ReadBy (Import.ofJson? n) i := by
  obtain ⟨n, rfl, -⟩ := nesting_record hn
  intro j hj
  obtain ⟨_, hvs, hfound⟩ := hj.fields (by simp)
  rcases hfound with _ | ⟨hgoName, _ | ⟨hpath, _ | ⟨hsource, _ | _⟩⟩⟩
  exact andThen hvs (andThen ((readBy_ofStr _).required rfl hgoName)
    (andThen ((readBy_ofStr _).required rfl hpath)
      (andThen ((readBy_ofStr? _).withDefault Option.isNone_iff_eq_none.mp hsource) rfl)))

/-! ## Readers of types and nodes -/

theorem GoType.eq_empty_of_isEmpty {t : GoType} (h : t.isEmpty) : t = .empty := by
  cases t <;> first | rfl | cases h

theorem Node.ofJson?_null (n : Nat) : Node.ofJson? n .null = none := by
  cases n <;> rfl

mutual

/-- A type is read back at every number of levels that its nesting needs. -/
theorem GoType.readBy_content : (t : GoType) → (n : Nat) → t.content.toJson.nesting ≤ n →
    t.content.ReadBy (GoType.ofJson? n) t
  | .empty, n, _ => readBy_scalar (by cases n <;> rfl)
  | .named qualifiedName, _, hn =>
    readBy_alternative hn (fun _ _ => readBy_ofStr qualifiedName) fun _ _ h => andThen h rfl
  | .unresolved id, _, hn =>
    readBy_alternative hn (fun _ _ => readBy_scalar (asUInt64?_toNat id)) fun _ _ h => andThen h rfl
  | .array elem, _, hn => readBy_alternative hn (GoType.readBy_content elem) fun _ _ h => andThen h rfl
  | .pointer target, _, hn => readBy_alternative hn (GoType.readBy_content target) fun _ _ h => andThen h rfl
  | .interface embeds methods isTypeVar, n, hn => by
    obtain ⟨k, rfl, hk⟩ := nesting_choiceRecord hn
    simp only [List.forall_mem_cons] at hk
    have hembeds := readBy_ofStrs hk.1
    have hmethods := readBy_list Binding.listOfJson? hk.2.1 (fun _ _ => rfl) (Binding.readBy_contents methods)
    refine readBy_choice fun j hj => ?_
    obtain ⟨_, hvs, hfound⟩ := hj.fields (by simp)
    rcases hfound with _ | ⟨h₁, _ | ⟨h₂, _ | ⟨h₃, _ | _⟩⟩⟩
    exact andThen hvs (andThen (hembeds.withDefault List.isEmpty_iff.mp h₁)
      (andThen (hmethods.withDefault List.isEmpty_iff.mp h₂)
        (andThen ((readBy_ofBool isTypeVar).withDefault (by simp) h₃) rfl)))
  | .struct embeds fields byPointer methods, n, hn => by
    obtain ⟨k, rfl, hk⟩ := nesting_choiceRecord hn
    simp only [List.forall_mem_cons] at hk
    have hembeds := readBy_ofStrs hk.1
    have hfields := readBy_list Binding.listOfJson? hk.2.1 (fun _ _ => rfl) (Binding.readBy_contents fields)
    have hmethods := readBy_list Binding.listOfJson? hk.2.2.2.1 (fun _ _ => rfl) (Binding.readBy_contents methods)
    refine readBy_choice fun j hj => ?_
    obtain ⟨_, hvs, hfound⟩ := hj.fields (by simp)
    rcases hfound with _ | ⟨h₁, _ | ⟨h₂, _ | ⟨h₃, _ | ⟨h₄, _ | _⟩⟩⟩⟩
    exact andThen hvs (andThen (hembeds.withDefault List.isEmpty_iff.mp h₁)
      (andThen (hfields.withDefault List.isEmpty_iff.mp h₂)
        (andThen ((readBy_ofBool byPointer).withDefault (by simp) h₃)
          (andThen (hmethods.withDefault List.isEmpty_iff.mp h₄) rfl))))
  | .func params results body, n, hn => by
    obtain ⟨k, rfl, hk⟩ := nesting_choiceRecord hn
    simp only [List.forall_mem_cons] at hk
    have hparams := readBy_list Binding.listOfJson? hk.1 (fun _ _ => rfl) (Binding.readBy_contents params)
    have hresults := readBy_list Binding.listOfJson? hk.2.1 (fun _ _ => rfl) (Binding.readBy_contents results)
    have hbody := Node.readBy_optContent body k hk.2.2.1
    refine readBy_choice fun j hj => ?_
    obtain ⟨_, hvs, hfound⟩ := hj.fields (by simp)
    rcases hfound with _ | ⟨h₁, _ | ⟨h₂, _ | ⟨h₃, _ | _⟩⟩⟩
    exact andThen hvs (andThen (hparams.withDefault List.isEmpty_iff.mp h₁)
      (andThen (hresults.withDefault List.isEmpty_iff.mp h₂)
        (andThen (hbody.withDefault Option.isNone_iff_eq_none.mp h₃) rfl)))

theorem Binding.readBy_content : (b : Binding) → (n : Nat) → b.content.toJson.nesting ≤ n →
    b.content.ReadBy (Binding.ofJson? n) b
  | ⟨name, sourceName, comments, type⟩, n, hn => by
    obtain ⟨k, rfl, hk⟩ := nesting_record hn
    simp only [List.forall_mem_cons] at hk
    have hcomments := Comment.readBy_listContent hk.2.2.1
    have htype := GoType.readBy_content type k hk.2.2.2.1
    intro j hj
    obtain ⟨_, hvs, hfound⟩ := hj.fields (by simp)
    rcases hfound with _ | ⟨h₁, _ | ⟨h₂, _ | ⟨h₃, _ | ⟨h₄, _ | _⟩⟩⟩⟩
    exact andThen hvs (andThen ((readBy_ofStr name).withDefault (by simp) h₁)
      (andThen ((readBy_ofStr sourceName).withDefault (by simp) h₂)
        (andThen (hcomments.withDefault List.isEmpty_iff.mp h₃)
          (andThen (htype.withDefault GoType.eq_empty_of_isEmpty h₄) rfl))))

theorem Binding.readBy_contents : (bs : List Binding) → (n : Nat) →
    (∀ c ∈ Binding.contents bs, c.toJson.nesting ≤ n) →
    List.Forall₂ (fun c b => c.ReadBy (Binding.ofJson? n) b) (Binding.contents bs) bs
  | [], _, _ => .nil
  | b :: bs, n, hn => by
    rw [Binding.contents, List.forall_mem_cons] at hn
    exact .cons (Binding.readBy_content b n hn.1) (Binding.readBy_contents bs n hn.2)

/-- A node is read back at every number of levels that its nesting needs. -/
theorem Node.readBy_content : (node : Node) → (n : Nat) → node.content.toJson.nesting ≤ n →
    node.content.ReadBy (Node.ofJson? n) node
  | .nil, n, _ => readBy_scalar (by cases n <;> rfl)
  | .litStr value, _, hn =>
    readBy_alternative hn (fun _ _ => readBy_ofStr value) fun _ _ h => andThen h rfl
  | .litBool value, _, hn =>
    readBy_alternative hn (fun _ _ => readBy_ofBool value) fun _ _ h => andThen h rfl
  | .litNum value, _, hn =>
    readBy_alternative hn (fun _ _ => readBy_scalar (rfl : asDouble? (.float value) = some value))
      fun _ _ h => andThen h rfl
  | .litInt value, _, hn =>
    readBy_alternative hn (fun _ _ => readBy_scalar (asInt64?_toInt value)) fun _ _ h => andThen h rfl
  | .sym name, _, hn =>
    readBy_alternative hn (fun _ _ => readBy_ofStr name) fun _ _ h => andThen h rfl
  | .comments _, _, hn =>
    readBy_alternative hn (fun _ => Comment.readBy_listContent) fun _ _ h => andThen h rfl
  | .block stmts, _, hn =>
    readBy_alternative hn
      (fun _ hk => readBy_list Node.listOfJson? hk (fun _ _ => rfl) (Node.readBy_contents stmts))
      fun _ _ h => andThen h rfl
  | .ret value, _, hn => readBy_alternative hn (Node.readBy_optContent value) fun _ _ h => andThen h rfl
  | .panic arg, _, hn => readBy_alternative hn (Node.readBy_content arg) fun _ _ h => andThen h rfl
  | .func signature, _, hn =>
    readBy_alternative hn (Binding.readBy_content signature) fun _ _ h => andThen h rfl
  | .litArr type elems, _, hn =>
    readBy_pairAlternative hn (by decide) (Binding.readBy_content type)
      (fun _ hk => readBy_list Node.listOfJson? hk (fun _ _ => rfl) (Node.readBy_contents elems))
      fun _ _ _ _ hvs hv hw => andThen hvs (andThen hv (andThen hw rfl))
  | .litObj type fields, _, hn =>
    readBy_pairAlternative hn (by decide) (Binding.readBy_content type)
      (fun _ hk => readBy_list FieldValue.listOfJson? hk (fun _ _ => rfl) (FieldValue.readBy_contents fields))
      fun _ _ _ _ hvs hv hw => andThen hvs (andThen hv (andThen hw rfl))
  | .const decl value, _, hn =>
    readBy_pairAlternative hn (by decide) (Binding.readBy_content decl) (Node.readBy_content value)
      fun _ _ _ _ hvs hv hw => andThen hvs (andThen hv (andThen hw rfl))
  | .set left right, _, hn =>
    readBy_pairAlternative hn (by decide) (Node.readBy_content left) (Node.readBy_content right)
      fun _ _ _ _ hvs hv hw => andThen hvs (andThen hv (andThen hw rfl))
  | .dot left right, _, hn =>
    readBy_pairAlternative hn (by decide) (Node.readBy_content left) (Node.readBy_content right)
      fun _ _ _ _ hvs hv hw => andThen hvs (andThen hv (andThen hw rfl))
  | .index left right, _, hn =>
    readBy_pairAlternative hn (by decide) (Node.readBy_content left) (Node.readBy_content right)
      fun _ _ _ _ hvs hv hw => andThen hvs (andThen hv (andThen hw rfl))
  | .call callee args, _, hn =>
    readBy_pairAlternative hn (by decide) (Node.readBy_content callee)
      (fun _ hk => readBy_list Node.listOfJson? hk (fun _ _ => rfl) (Node.readBy_contents args))
      fun _ _ _ _ hvs hv hw => andThen hvs (andThen hv (andThen hw rfl))
  | .toType expr target, _, hn =>
    readBy_pairAlternative hn (by decide) (Node.readBy_content expr) (GoType.readBy_content target)
      fun _ _ _ _ hvs hv hw => andThen hvs (andThen hv (andThen hw rfl))
  | .op1 op operand, _, hn =>
    readBy_pairAlternative hn (by decide) (fun k _ => UnaryOp.readBy_symbol op k)
      (Node.readBy_content operand) fun _ _ _ _ hvs hv hw => andThen hvs (andThen hv (andThen hw rfl))
  | .isType value typeName, _, hn =>
    readBy_pairAlternative hn (by decide) (fun _ _ => readBy_ofStr value) (fun _ _ => readBy_ofStr typeName)
      fun _ _ _ _ hvs hv hw => andThen hvs (andThen hv (andThen hw rfl))
  | .unsupported kind detail, _, hn =>
    readBy_pairAlternative hn (by decide) (fun _ _ => readBy_ofStr kind) (fun _ _ => readBy_ofStr detail)
      fun _ _ _ _ hvs hv hw => andThen hvs (andThen hv (andThen hw rfl))
  | .pkgSym pkg symbol, n, hn => by
    obtain ⟨k, rfl, -⟩ := nesting_choiceRecord hn
    refine readBy_choice fun j hj => ?_
    obtain ⟨_, hvs, hfound⟩ := hj.fields (by simp)
    rcases hfound with _ | ⟨h₁, _ | ⟨h₂, _ | _⟩⟩
    exact andThen hvs (andThen ((readBy_ofStr? pkg).withDefault Option.isNone_iff_eq_none.mp h₁)
      (andThen ((readBy_ofStr symbol).required rfl h₂) rfl))
  | .op2 op left right, n, hn => by
    obtain ⟨k, rfl, hk⟩ := nesting_choiceRecord hn
    simp only [List.forall_mem_cons] at hk
    have hleft := Node.readBy_content left k hk.2.1
    have hright := Node.readBy_content right k hk.2.2.1
    refine readBy_choice fun j hj => ?_
    obtain ⟨_, hvs, hfound⟩ := hj.fields (by simp)
    rcases hfound with _ | ⟨h₁, _ | ⟨h₂, _ | ⟨h₃, _ | _⟩⟩⟩
    exact andThen hvs (andThen ((BinaryOp.readBy_symbol op k).required rfl h₁)
      (andThen (hleft.required rfl h₂) (andThen (hright.required rfl h₃) rfl)))
  | .var decl value ok, n, hn => by
    obtain ⟨k, rfl, hk⟩ := nesting_choiceRecord hn
    simp only [List.forall_mem_cons] at hk
    have hdecl := Binding.readBy_content decl k hk.1
    have hvalue := Node.readBy_optContent value k hk.2.1
    have hok := OkBinding.readBy_optContent hk.2.2.1
    refine readBy_choice fun j hj => ?_
    obtain ⟨_, hvs, hfound⟩ := hj.fields (by simp)
    rcases hfound with _ | ⟨h₁, _ | ⟨h₂, _ | ⟨h₃, _ | _⟩⟩⟩
    exact andThen hvs (andThen (hdecl.required rfl h₁)
      (andThen (hvalue.withDefault Option.isNone_iff_eq_none.mp h₂)
        (andThen (hok.withDefault Option.isNone_iff_eq_none.mp h₃) rfl)))
  | .ifElse cond thenBranch elseBranch, n, hn => by
    obtain ⟨k, rfl, hk⟩ := nesting_choiceRecord hn
    simp only [List.forall_mem_cons] at hk
    have hcond := Node.readBy_content cond k hk.1
    have hthen := Node.readBy_content thenBranch k hk.2.1
    have helse := Node.readBy_optContent elseBranch k hk.2.2.1
    refine readBy_choice fun j hj => ?_
    obtain ⟨_, hvs, hfound⟩ := hj.fields (by simp)
    rcases hfound with _ | ⟨h₁, _ | ⟨h₂, _ | ⟨h₃, _ | _⟩⟩⟩
    exact andThen hvs (andThen (hcond.required rfl h₁) (andThen (hthen.required rfl h₂)
      (andThen (helse.withDefault Option.isNone_iff_eq_none.mp h₃) rfl)))
  -- A loop opens two choices before its record.
  | .forRange item items body, n, hn => by
    obtain ⟨m, rfl, hm⟩ := nesting_choice hn
    obtain ⟨k, rfl, hk⟩ := nesting_choiceRecord hm
    simp only [List.forall_mem_cons] at hk
    have hitems := Node.readBy_content items k hk.2.1
    have hbody := Node.readBy_content body k hk.2.2.1
    refine readBy_choice (readBy_choice fun j hj => ?_)
    obtain ⟨_, hvs, hfound⟩ := hj.fields (by simp)
    rcases hfound with _ | ⟨h₁, _ | ⟨h₂, _ | ⟨h₃, _ | _⟩⟩⟩
    exact andThen hvs (andThen ((readBy_ofStr item).required rfl h₁)
      (andThen (hitems.required rfl h₂) (andThen (hbody.required rfl h₃) rfl)))
  | .forClassic init cond step body, n, hn => by
    obtain ⟨m, rfl, hm⟩ := nesting_choice hn
    obtain ⟨k, rfl, hk⟩ := nesting_choiceRecord hm
    simp only [List.forall_mem_cons] at hk
    have hinit := readBy_list LoopVar.listOfJson? hk.1 (fun _ _ => rfl) (LoopVar.readBy_contents init)
    have hcond := Node.readBy_optContent cond k hk.2.1
    have hstep :=
      readBy_list LoopStep.listOfJson? hk.2.2.1 (fun _ _ => rfl) (LoopStep.readBy_contents step)
    have hbody := Node.readBy_content body k hk.2.2.2.1
    refine readBy_choice (readBy_choice fun j hj => ?_)
    obtain ⟨_, hvs, hfound⟩ := hj.fields (by simp)
    rcases hfound with _ | ⟨h₁, _ | ⟨h₂, _ | ⟨h₃, _ | ⟨h₄, _ | _⟩⟩⟩⟩
    exact andThen hvs (andThen (hinit.withDefault List.isEmpty_iff.mp h₁)
      (andThen (hcond.withDefault Option.isNone_iff_eq_none.mp h₂)
        (andThen (hstep.withDefault List.isEmpty_iff.mp h₃) (andThen (hbody.required rfl h₄) rfl))))
  | .forWhile cond body, n, hn => by
    obtain ⟨m, rfl, hm⟩ := nesting_choice hn
    exact readBy_choice (readBy_pairAlternative hm (by decide) (Node.readBy_content cond)
      (Node.readBy_content body) fun _ _ _ _ hvs hv hw => andThen hvs (andThen hv (andThen hw rfl)))

theorem Node.readBy_optContent : (node : Option Node) → (n : Nat) →
    (Node.optContent node).toJson.nesting ≤ n →
    (Node.optContent node).ReadBy (nullable (Node.ofJson? n)) node
  | none, _, _ => readBy_null
  | some node, n, hn => (Node.readBy_content node n hn).nullable (Node.ofJson?_null n)

theorem Node.readBy_contents : (nodes : List Node) → (n : Nat) →
    (∀ c ∈ Node.contents nodes, c.toJson.nesting ≤ n) →
    List.Forall₂ (fun c node => c.ReadBy (Node.ofJson? n) node) (Node.contents nodes) nodes
  | [], _, _ => .nil
  | node :: nodes, n, hn => by
    rw [Node.contents, List.forall_mem_cons] at hn
    exact .cons (Node.readBy_content node n hn.1) (Node.readBy_contents nodes n hn.2)

theorem FieldValue.readBy_contents : (fs : List FieldValue) → (n : Nat) →
    (∀ c ∈ FieldValue.contents fs, c.toJson.nesting ≤ n) →
    List.Forall₂ (fun c f => c.ReadBy (FieldValue.ofJson? n) f) (FieldValue.contents fs) fs
  | [], _, _ => .nil
  | ⟨name, value⟩ :: fs, n, hn => by
    rw [FieldValue.contents, List.forall_mem_cons] at hn
    refine .cons ?_ (FieldValue.readBy_contents fs n hn.2)
    obtain ⟨k, rfl, hk⟩ := nesting_record hn.1
    simp only [List.forall_mem_cons] at hk
    have hvalue := Node.readBy_content value k hk.2.1
    intro j hj
    obtain ⟨_, hvs, hfound⟩ := hj.fields (by simp)
    rcases hfound with _ | ⟨h₁, _ | ⟨h₂, _ | _⟩⟩
    exact andThen hvs (andThen ((readBy_ofStr? name).withDefault Option.isNone_iff_eq_none.mp h₁)
      (andThen (hvalue.required rfl h₂) rfl))

theorem LoopVar.readBy_contents : (vs : List LoopVar) → (n : Nat) →
    (∀ c ∈ LoopVar.contents vs, c.toJson.nesting ≤ n) →
    List.Forall₂ (fun c v => c.ReadBy (LoopVar.ofJson? n) v) (LoopVar.contents vs) vs
  | [], _, _ => .nil
  | ⟨name, value⟩ :: vs, n, hn => by
    rw [LoopVar.contents, List.forall_mem_cons] at hn
    refine .cons ?_ (LoopVar.readBy_contents vs n hn.2)
    obtain ⟨k, rfl, hk⟩ := nesting_record hn.1
    simp only [List.forall_mem_cons] at hk
    exact readBy_pair (by decide) (readBy_ofStr name) (Node.readBy_content value k hk.2.1)
      fun _ _ _ hvs hv hw => andThen hvs (andThen hv (andThen hw rfl))

theorem LoopStep.readBy_contents : (ss : List LoopStep) → (n : Nat) →
    (∀ c ∈ LoopStep.contents ss, c.toJson.nesting ≤ n) →
    List.Forall₂ (fun c s => c.ReadBy (LoopStep.ofJson? n) s) (LoopStep.contents ss) ss
  | [], _, _ => .nil
  | ⟨left, right⟩ :: ss, n, hn => by
    rw [LoopStep.contents, List.forall_mem_cons] at hn
    refine .cons ?_ (LoopStep.readBy_contents ss n hn.2)
    obtain ⟨k, rfl, hk⟩ := nesting_record hn.1
    simp only [List.forall_mem_cons] at hk
    exact readBy_pair (by decide) (Node.readBy_content left k hk.1) (Node.readBy_content right k hk.2.1)
      fun _ _ _ hvs hv hw => andThen hvs (andThen hv (andThen hw rfl))

end

/-! ## Declarations and modules -/

theorem Decl.readBy_content {d : Decl} {n : Nat} (hn : d.content.toJson.nesting ≤ n) :
    d.content.ReadBy (Decl.ofJson? n) d := by
  cases d with
  | type definition | func definition =>
    exact readBy_alternative hn (Binding.readBy_content definition) fun _ _ h => andThen h rfl
  | const decl value =>
    obtain ⟨k, rfl, -⟩ := nesting_choiceRecord hn
    refine readBy_choice fun j hj => ?_
    have hnode := Node.readBy_content (.const decl value) (k + 2) hn _ (.choice hj)
    exact andThen hnode rfl
  | var decl value ok =>
    obtain ⟨k, rfl, -⟩ := nesting_choiceRecord hn
    refine readBy_choice fun j hj => ?_
    have hnode := Node.readBy_content (.var decl value ok) (k + 2) hn _ (.choice hj)
    exact andThen hnode rfl

/-- However a module is written, it is read back. -/
theorem Module.ofJson?_of_writtenAs (m : Module) (hn : m.toJson.nesting ≤ nestingLimit) :
    m.content.toJson = m.toJson ∧
      ∀ j, m.content.WrittenAs j → Module.ofJson? nestingLimit j = some m := by
  refine ⟨m.toJson_content, ?_⟩
  rw [← m.toJson_content] at hn
  obtain ⟨k, hlimit, hk⟩ := nesting_record hn
  simp only [List.forall_mem_cons] at hk
  have himports := readBy_list Import.listOfJson? hk.2.2.1 (fun _ _ => rfl) fun _ hi =>
    forall₂_readBy_map fun _ hmem => Import.readBy_content (hi _ (List.mem_map_of_mem hmem))
  have hdecls := readBy_list Decl.listOfJson? hk.2.2.2.1 (fun _ _ => rfl) fun _ hd =>
    forall₂_readBy_map fun _ hmem => Decl.readBy_content (hd _ (List.mem_map_of_mem hmem))
  intro j hj
  rw [hlimit]
  obtain ⟨_, hvs, hfound⟩ := hj.fields (by simp)
  rcases hfound with _ | ⟨h₁, _ | ⟨h₂, _ | ⟨h₃, _ | ⟨h₄, _ | _⟩⟩⟩⟩
  exact andThen hvs (andThen ((readBy_ofStr m.name).withDefault (by simp) h₁)
    (andThen ((readBy_ofStr m.sourceName).withDefault (by simp) h₂)
      (andThen (himports.withDefault List.isEmpty_iff.mp h₃)
        (andThen (hdecls.withDefault List.isEmpty_iff.mp h₄) rfl))))

/-- A module with one variable, most of whose fields hold their defaults. -/
def Module.counter : Module where
  name := "Counter"
  sourceName := ""
  imports := []
  decls := [.var ⟨"start", "", [], .empty⟩ (some (.litInt 3)) none]

/-- A document that says `Module.counter`: the last field stands first, there is a member that is no field,
the data of the variable are an array without its end, and all defaults are left out. -/
def Module.counterJson : Json :=
  .obj [("decls", .arr [tagged "Var" (.arr [.obj [("name", .str "start")], tagged "LitInt" (.int 3)])]),
    ("version", .arr [.int 1]), ("name", .str "Counter")]

theorem Module.ofJson?_counterJson :
    Module.counter.toJson.nesting ≤ nestingLimit ∧ Module.counterJson ≠ Module.counter.toJson ∧
      Module.ofJson? nestingLimit Module.counterJson = some Module.counter := by
  have hn : Module.counter.toJson.nesting ≤ nestingLimit := by decide
  have hne : Module.counterJson ≠ Module.counter.toJson := by
    simp [Module.counterJson, Module.toJson]
  have hdecl : Binding.content ⟨"start", "", [], .empty⟩ |>.WrittenAs (.obj [("name", .str "start")]) :=
    .named (.cons (.scalar _) (.skip rfl (.skip rfl (.skip rfl .nil))))
      (List.forall_mem_nil _) (List.Perm.refl _)
  have hvar : (Decl.content (.var ⟨"start", "", [], .empty⟩ (some (.litInt 3)) none)).WrittenAs
      (tagged "Var" (.arr [.obj [("name", .str "start")], tagged "LitInt" (.int 3)])) :=
    .choice (.positional (.cons hdecl (.cons (.choice (.scalar _)) (.rest (by simp)))))
  have hperm (decls version name : String × Json) :
      [decls, version, name].Perm ([name, decls] ++ [version]) :=
    List.perm_append_comm_assoc [decls, version] [name] []
  have hwritten : Module.counter.content.WrittenAs Module.counterJson := by
    refine .named (.cons (.scalar _) (.skip rfl (.skip rfl (.cons (.list (.cons hvar .nil)) .nil))))
      (List.forall_mem_singleton.mpr ?_) (hperm _ _ _)
    decide
  exact ⟨hn, hne, (Module.ofJson?_of_writtenAs Module.counter hn).2 _ hwritten⟩

end GoScribe
