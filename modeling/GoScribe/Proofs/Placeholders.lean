import GoScribe.Proofs.Marks
import Mathlib.Data.List.Basic

/-!
# Placeholders

The diagnostics of a file tell where its text is a placeholder: there is one for each position at which
something stands that cannot be written, in the order of the positions, and no other.
-/

namespace GoScribe

namespace Env

/-- The kind of placeholder that is written at a position. -/
def placeholderAt? (env : Env) : Position → Option DiagnosticKind
  | .node (.unsupported ..) => some .unsupportedNode
  | .node (.isType ..) => some .unloweredTypeTest
  | .node (.func signature) =>
    if signature.type.implementation?.isSome then none else some .malformedNode
  | .type (.unresolved _) => some .unresolvedType
  | .type (.named qualifiedName) =>
    if (env.resolve qualifiedName).isSome then none else some .unknownPackage
  | .embed qualifiedName =>
    if (env.resolve qualifiedName).isSome then none else some .unknownPackage
  | _ => none

/-! ## What the body notes -/

variable (env : Env)

theorem diagnostics_symbol (s : Symbol) : (env.symbol s).diagnostics = [] := by
  unfold symbol
  split
  · rfl
  · split <;> rfl

theorem diagnostics_number (value : Double) : (env.number value).diagnostics = [] := by
  unfold number
  split <;> rfl

theorem kinds_typeName (qualifiedName : String) :
    (env.typeName qualifiedName).diagnostics.map Diagnostic.kind =
      (if (env.resolve qualifiedName).isSome then none else some .unknownPackage).toList := by
  unfold typeName
  cases env.resolve qualifiedName with
  | none => rfl
  | some s =>
    show (env.symbol s).diagnostics.map _ = _
    rw [diagnostics_symbol]
    rfl

/-- A position is noted exactly if a placeholder is written there. -/
theorem kinds_marksAt (p : Position) :
    (env.marksAt p).diagnostics.map Diagnostic.kind = (env.placeholderAt? p).toList := by
  cases p with
  | node n =>
    cases n with
    | litNum value =>
      rw [marksAt, Doc.diagnostics_marks, diagnostics_number]
      rfl
    | pkgSym pkg symbol =>
      rw [marksAt, Doc.diagnostics_marks, diagnostics_symbol]
      rfl
    | func signature =>
      obtain ⟨_, _, _, type⟩ := signature
      cases type with
      | func _ _ body => cases body <;> rfl
      | _ => rfl
    | _ => rfl
  | type t =>
    cases t with
    | named qualifiedName =>
      rw [marksAt, Doc.diagnostics_marks, kinds_typeName]
      rfl
    | interface names methods isTypeVar =>
      rw [marksAt]
      split <;> rfl
    | _ => rfl
  | embed qualifiedName =>
    rw [marksAt, Doc.diagnostics_marks, kinds_typeName]
    rfl
  | method | methodDef | funcDef =>
    rw [marksAt]
    split <;> rfl

/-- The body notes the placeholders in the order of the positions. -/
theorem kinds_moduleBody :
    env.moduleBody.diagnostics.map Diagnostic.kind = env.positions.filterMap env.placeholderAt? := by
  rw [Doc.diagnostics, env.filterMap_moduleBody fun _ => rfl, List.filterMap_eq_flatMap_toList,
    List.map_flatMap]
  apply List.flatMap_congr
  intro p _
  exact env.kinds_marksAt p

end Env

/-! ## The diagnostics of a file -/

namespace Module

variable {m : Module} {resolver : Resolver} {options : Options} {f : GoFile}

/-- **Diagnostics are complete and sound.**  Their kinds are those of the placeholders, one after
another, and a file is expected to compile exactly if none of its positions is a placeholder. -/
theorem diagnostic_kinds_eq (h : m.renderWith resolver options = .ok f) :
    f.diagnostics.map Diagnostic.kind =
        (m.positions options.overlappingInterfaces).filterMap
          (Env.placeholderAt? ⟨m, resolver, options⟩) ∧
      (f.isCompilable ↔ ∀ p ∈ m.positions options.overlappingInterfaces,
        Env.placeholderAt? ⟨m, resolver, options⟩ p = none) := by
  have hkinds : f.diagnostics.map Diagnostic.kind =
      (m.positions options.overlappingInterfaces).filterMap
        (Env.placeholderAt? ⟨m, resolver, options⟩) := by
    rw [(Env.file_eq_ok _ h).2, Env.kinds_moduleBody]
    rfl
  refine ⟨hkinds, ?_⟩
  rw [GoFile.isCompilable, List.isEmpty_iff, ← List.filterMap_eq_nil_iff, ← hkinds, List.map_eq_nil_iff]

/-- Placeholders of all kinds, and a type and a function body that are not written. -/
def patchwork : Module where
  name := "main"
  sourceName := "Main"
  imports := []
  decls := [
    .func ⟨"run", "run", [], .func [⟨"x", "x", [], .named "lost.Type"⟩] [] (some (.block [
      .ifElse (.isType "x" "T") (.block []) (some (.ifElse (.unsupported "Await" "x") (.block []) none)),
      .var ⟨"g", "g", [], .unresolved 8⟩ (some (.func ⟨"", "g", [], .func [] [] none⟩)) none]))⟩,
    .type ⟨"T", "T", [], .array (.unresolved 7)⟩,
    .type ⟨"F", "F", [], .func [] [] (some (.unsupported "Yield" "y"))⟩]

theorem patchwork_diagnostic_kinds :
    ∃ f, patchwork.renderWith .importTable {} = .ok f ∧
      f.diagnostics.map Diagnostic.kind = [.unresolvedType, .unknownPackage, .unloweredTypeTest,
        .unsupportedNode, .malformedNode] ∧
      f.diagnostics.map Diagnostic.kind =
        (patchwork.positions false).filterMap (Env.placeholderAt? ⟨patchwork, .importTable, {}⟩) ∧
      (f.isCompilable ↔ ∀ p ∈ patchwork.positions false,
        Env.placeholderAt? ⟨patchwork, .importTable, {}⟩ p = none) := by
  have hfile : patchwork.renderWith .importTable {} = .ok _ := rfl
  exact ⟨_, hfile, by decide, diagnostic_kinds_eq hfile⟩

end Module

end GoScribe
