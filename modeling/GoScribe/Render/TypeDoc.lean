import GoScribe.Render.Env
import GoScribe.Text.Lines

/-!
# Rendering types

A type is written on the line it stands in; structs and interfaces with members open lines below it,
one tab further in than `i`.  Function bodies that a type carries are not part of its text.
-/

namespace GoScribe

namespace Env

/-! ## Parts without recursion -/

/-- The symbol of a type name, or a placeholder if it cannot be resolved. -/
def typeName (env : Env) (qualifiedName : String) : Doc :=
  match env.resolve qualifiedName with
  | some s => env.symbol s
  | none =>
    [.note ⟨.unknownPackage, "cannot resolve type `" ++ qualifiedName ++ "`"⟩] ++
      Doc.str ("interface\x7b/*UNKNOWN:" ++ qualifiedName ++ "*/\x7d")

/-- The marker of a type variable. -/
def typeVar (env : Env) : Doc :=
  let marker := env.options.typeVar
  [.use (Import.plain marker.packageAlias marker.packagePath), .qualifier marker.packageAlias] ++
    Doc.str marker.symbol

/-- The embedded interfaces that are written. -/
def shownEmbeds (env : Env) (embeds : List String) : List String :=
  if env.options.overlappingInterfaces then embeds else []

/-- Embedded interfaces, one a line at `i`. -/
def embedLines (env : Env) (i : Indent) (embeds : List String) : Doc :=
  embeds.flatMap fun e => Doc.tabs i ++ env.typeName e ++ Doc.newline

end Env

/-- The name of a parameter or result with a space behind it, if names are shown and it has one. -/
def nameBefore (withNames : Bool) (name : String) : Doc :=
  if withNames && name ≠ "" then Doc.str name ++ Doc.space else []

/-- A list of results goes without parentheses only if it is one result that shows no name. -/
def resultsNeedParens (withNames : Bool) : List Binding → Bool
  | [r] => withNames && r.name ≠ ""
  | _ => true

/-- Parameters and results, given the texts of each. -/
def signatureDoc (withNames : Bool) (results : List Binding) (paramDocs resultDocs : List Doc) : Doc :=
  Doc.enclose true (Doc.commaSep paramDocs) ++ Doc.space ++
    Doc.enclose (resultsNeedParens withNames results) (Doc.commaSep resultDocs)

/-- The length of the longest name. -/
def nameWidth (fields : List Binding) : Nat :=
  (fields.map fun f => f.name.toList.length).foldl max 0

/-! ## Types -/

namespace Env

mutual

/-- A type; `owner` is named if it is an interface that is refused. -/
def type (env : Env) (i : Indent) (owner : String) : GoType → Doc
  | .empty => Doc.str "interface\x7b/*EMPTY*/\x7d"
  | .named qualifiedName => env.typeName qualifiedName
  | .unresolved id =>
    [.note ⟨.unresolvedType, "type #" ++ toString id.toNat⟩] ++
      Doc.str ("interface\x7b/*UNKNOWN:" ++ toString id.toNat ++ "*/\x7d")
  | .array elem => Doc.str "[]" ++ env.type i "" elem
  | .pointer target => Doc.str "*" ++ env.type i "" target
  | .interface embeds methods isTypeVar =>
    if (env.shownEmbeds embeds).isEmpty && methods.isEmpty then
      if isTypeVar then env.typeVar else Doc.str "interface\x7b\x7d"
    else
      Doc.str "interface \x7b" ++ Doc.newline ++
        env.embedLines i.deeper (env.shownEmbeds embeds) ++
        env.methodLines i.deeper owner methods ++
        Doc.tabs i ++ Doc.str "\x7d"
  | .struct embeds fields _ _ =>
    if embeds.isEmpty && fields.isEmpty then Doc.str "struct\x7b\x7d"
    else
      Doc.str "struct \x7b" ++ Doc.newline ++
        embeds.flatMap (fun e => Doc.tabs i.deeper ++ Doc.line e) ++
        env.fieldLines i.deeper (nameWidth fields) fields ++
        Doc.tabs i ++ Doc.str "\x7d"
  | .func params results body =>
    Doc.str "func" ++
      signatureDoc body.isSome results (env.bindingTypes i body.isSome params)
        (env.bindingTypes i body.isSome results)

/-- The types of parameters or results, each behind its name if names are shown. -/
def bindingTypes (env : Env) (i : Indent) (withNames : Bool) : List Binding → List Doc
  | [] => []
  | ⟨name, sourceName, _, ty⟩ :: bs =>
    (nameBefore withNames name ++ env.type i sourceName ty) :: env.bindingTypes i withNames bs

/-- The methods of an interface, one a line. -/
def methodLines (env : Env) (i : Indent) (owner : String) : List Binding → Doc
  | [] => []
  | ⟨name, _, comments, .func params results _⟩ :: bs =>
    env.comments i comments ++ Doc.tabs i ++ Doc.str name ++
      signatureDoc false results (env.bindingTypes i false params) (env.bindingTypes i false results) ++
      Doc.newline ++ env.methodLines i owner bs
  | ⟨_, sourceName, _, _⟩ :: bs =>
    [.refuse (.notASignature sourceName owner)] ++ env.methodLines i owner bs

/-- The fields of a struct, one a line, their names padded to `width`. -/
def fieldLines (env : Env) (i : Indent) (width : Nat) : List Binding → Doc
  | [] => []
  | ⟨name, sourceName, comments, ty⟩ :: bs =>
    env.comments i comments ++ Doc.tabs i ++
      Doc.str (String.ofList (Text.padRight name.toList width)) ++ Doc.space ++
      env.type i sourceName ty ++ Doc.newline ++ env.fieldLines i width bs

end

/-- The type of a binding, without its name. -/
def bindingType (env : Env) (i : Indent) (b : Binding) : Doc :=
  env.type i b.sourceName b.type

/-- Parameters and results of a function, with or without names. -/
def signature (env : Env) (i : Indent) (withNames : Bool) (params results : List Binding) : Doc :=
  signatureDoc withNames results (env.bindingTypes i withNames params)
    (env.bindingTypes i withNames results)

/-- The head of a function: `func`, its name if it has one and a body, parameters and results. -/
def funcHead (env : Env) (i : Indent) (name : String) (withBody : Bool)
    (params results : List Binding) : Doc :=
  Doc.str "func" ++ (if withBody && name ≠ "" then Doc.space ++ Doc.str name else []) ++
    env.signature i withBody params results

end Env

end GoScribe
