import GoScribe.Proofs.Erasure

/-!
# Options as switches

What three of the options do, each as a law about two renderings of one module.  Strictness is a check
that comes last: it turns some files away and changes none.  Comments that are switched off might as well
not be there, and neither might the interfaces that an interface embeds.
-/

namespace GoScribe

/-! ## The whole file -/

namespace Env

/-- The file depends on the body, on the names of the module, on the header and on strictness. -/
theorem file_congr {env env' : Env} (hbody : env'.moduleBody = env.moduleBody)
    (hname : env'.module.name = env.module.name)
    (hsource : env'.module.sourceName = env.module.sourceName)
    (hheader : env'.options.header = env.options.header)
    (hstrict : env'.options.strict = env.options.strict) : env'.file = env.file := by
  simp only [file, assemble, packageDoc, hbody, hname, hsource, hheader, hstrict]

end Env

/-! ## Strictness -/

/-- A file without placeholders; one that has them is turned away. -/
def GoFile.checked (sourceName : String) (f : GoFile) : Except RenderError GoFile :=
  if f.isCompilable then .ok f else .error (.placeholders sourceName f.diagnostics)

theorem GoFile.checked_eq_ok_iff {sourceName : String} {f g : GoFile} :
    f.checked sourceName = .ok g ↔ f = g ∧ g.diagnostics = [] := by
  unfold checked isCompilable
  split
  · next hnone =>
    constructor
    · rintro ⟨⟩
      exact ⟨rfl, List.isEmpty_iff.mp hnone⟩
    · rintro ⟨rfl, _⟩
      rfl
  · next hsome =>
    constructor
    · rintro ⟨⟩
    · rintro ⟨rfl, hnone⟩
      exact absurd (List.isEmpty_iff.mpr hnone) hsome

/-- Strictness checks the file that is made without it. -/
theorem Env.file_strict (m : Module) (resolver : Resolver) (options : Options) :
    file ⟨m, resolver, { options with strict := true }⟩ =
      (file ⟨m, resolver, { options with strict := false }⟩).bind (GoFile.checked m.sourceName) := by
  -- The body is rendered without regard to strictness.
  have hbody : moduleBody ⟨m, resolver, { options with strict := true }⟩ =
      moduleBody ⟨m, resolver, { options with strict := false }⟩ :=
    moduleBody_congr rfl rfl rfl rfl rfl rfl
  simp only [file, hbody]
  generalize moduleBody ⟨m, resolver, { options with strict := false }⟩ = body
  cases body.refusal? with
  | some r => rfl
  | none =>
    cases hnone : body.diagnostics.isEmpty <;>
      simp [Except.bind, GoFile.checked, GoFile.isCompilable, hnone, assemble]

namespace Module

/-- **Strictness only filters.**  A strict rendering is the rendering without strictness if that one has
no diagnostics, and fails otherwise; it fails in the same way where that one fails. -/
theorem renderWith_strict (m : Module) (resolver : Resolver) (options : Options) :
    (∀ f, m.renderWith resolver { options with strict := true } = .ok f ↔
        m.renderWith resolver { options with strict := false } = .ok f ∧ f.diagnostics = []) ∧
      ∀ e, m.renderWith resolver { options with strict := false } = .error e →
        m.renderWith resolver { options with strict := true } = .error e := by
  simp only [renderWith, Env.file_strict]
  cases Env.file ⟨m, resolver, { options with strict := false }⟩ with
  | error e => simp [Except.bind]
  | ok g =>
    constructor
    · intro f
      rw [Except.ok.injEq]
      exact GoFile.checked_eq_ok_iff
    · rintro e ⟨⟩

/-- A variable whose value cannot be written. -/
def gappy : Module where
  name := "main"
  sourceName := "Main"
  imports := []
  decls := [.var ⟨"x", "x", [], .empty⟩ (some (.unsupported "Await" "y")) none]

/-- A function without a body. -/
def bodiless : Module where
  name := "main"
  sourceName := "Main"
  imports := []
  decls := [.func ⟨"run", "run", [], .func [] [] none⟩]

theorem gappy_renderWith_strict :
    (∃ f, gappy.renderWith .importTable { strict := false } = .ok f ∧
        f.diagnostics ≠ [] ∧ gappy.renderWith .importTable { strict := true } ≠ .ok f) ∧
      ∃ e, bodiless.renderWith .importTable { strict := false } = .error e ∧
        bodiless.renderWith .importTable { strict := true } = .error e := by
  constructor
  · have hfile : gappy.renderWith .importTable { strict := false } = .ok _ := rfl
    refine ⟨_, hfile, by decide, ?_⟩
    intro hstrict
    have hnone := (((renderWith_strict gappy .importTable {}).1 _).mp hstrict).2
    exact absurd hnone (by decide)
  · have herror : bodiless.renderWith .importTable { strict := false } = .error _ := rfl
    exact ⟨_, herror, (renderWith_strict bodiless .importTable {}).2 _ herror⟩

/-! ## Comments and embedded interfaces -/

/-- A module without its comments. -/
def withoutComments (m : Module) : Module := m.erase .allComments

/-- A module without the interfaces that its interfaces embed. -/
def withoutEmbeds (m : Module) : Module := m.erase .allEmbeds

example (m : Module) :
    Resolver.importTable m.withoutComments = Resolver.importTable m ∧
      Resolver.importTable m.withoutEmbeds = Resolver.importTable m :=
  ⟨rfl, rfl⟩

/-- Comments in all kinds of places, and an interface that is empty but for what it embeds. -/
def annotated : Module where
  name := "shapes"
  sourceName := "Shapes"
  imports := []
  decls := [
    .type ⟨"Shape", "Shape", [.line " What has an area."], .interface ["Named"]
      [⟨"area", "area", [.block " in units "], .func [] [⟨"", "", [], .named "int"⟩] none⟩] false⟩,
    .type ⟨"Solid", "Solid", [], .interface ["Shape"] [] false⟩,
    .var ⟨"unit", "unit", [], .empty⟩ (some (.litInt 1)) none,
    .var ⟨"rest", "rest", [.line " Not yet."], .empty⟩ (some (.func ⟨"", "rest", [.line " Lost."],
      .func [] [] (some (.block [.comments [.line " nothing"], .ret none]))⟩)) none]

end Module

end GoScribe
