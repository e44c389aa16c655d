import GoScribe.Proofs.Marks
import Mathlib.Data.List.Induction
import Mathlib.Data.String.Basic

/-!
# Import tracking

Which imports a file gets.  A position demands at most one import; the imports of a file are, for each
demanded path, the import that was demanded for it first.  So the paths are exactly the demanded ones,
but an alias is declared only if one of its imports comes first for its path.
-/

namespace GoScribe

/-! ## The first mark of a path stays -/

namespace ImportUsage

/-- Imports in the order of their paths, without repetition. -/
def Ordered (is : List Import) : Prop := is.Pairwise fun i j => i.path < j.path

/-- Inserting adds an import unless its path is there. -/
theorem mem_insert {i j : Import} {js : List Import} (h : Ordered js) :
    j ∈ insert i js ↔ j ∈ js ∨ j = i ∧ ∀ k ∈ js, k.path ≠ i.path := by
  induction js with
  | nil => simp [insert]
  | cons k ks ih =>
    obtain ⟨hk, hks⟩ := List.pairwise_cons.mp h
    unfold insert
    split
    · next heq => grind
    · next hne =>
      split
      · next hlt =>
        -- Every later path is greater still, so the path of `i` is not among them.
        have hfresh : ∀ l ∈ k :: ks, l.path ≠ i.path := by
          intro l hl
          rcases List.mem_cons.mp hl with rfl | hl
          · exact Ne.symm hne
          · exact (hlt.trans (hk l hl)).ne'
        grind
      · rw [List.mem_cons, ih hks]
        grind

theorem ordered_insert (i : Import) {js : List Import} (h : Ordered js) : Ordered (insert i js) := by
  induction js with
  | nil => exact List.pairwise_singleton _ _
  | cons k ks ih =>
    obtain ⟨hk, hks⟩ := List.pairwise_cons.mp h
    unfold insert
    split
    · exact h
    · next hne =>
      split
      · next hlt =>
        refine List.pairwise_cons.mpr ⟨?_, h⟩
        intro l hl
        rcases List.mem_cons.mp hl with rfl | hl
        · exact hlt
        · exact hlt.trans (hk l hl)
      · next hnlt =>
        have hki : k.path < i.path := lt_of_le_of_ne (not_lt.mp hnlt) (Ne.symm hne)
        refine List.pairwise_cons.mpr ⟨?_, ih hks⟩
        intro l hl
        rcases (mem_insert hks).mp hl with hl | ⟨rfl, -⟩
        · exact hk l hl
        · exact hki

theorem ofMarks_append_singleton (marks : List Import) (i : Import) :
    ofMarks (marks ++ [i]) = (ofMarks marks).mark i := by
  rw [ofMarks, List.foldl_append]
  rfl

theorem ordered_ofMarks (marks : List Import) : Ordered (ofMarks marks).used := by
  induction marks using List.reverseRecOn with
  | nil => exact List.Pairwise.nil
  | append_singleton marks i ih =>
    rw [ofMarks_append_singleton]
    exact ordered_insert i ih

/-- The imports that are used are the marks that come first for their path. -/
theorem mem_ofMarks {marks : List Import} {j : Import} :
    j ∈ (ofMarks marks).used ↔ marks.find? (·.path == j.path) = some j := by
  induction marks using List.reverseRecOn generalizing j with
  | nil => simp [ofMarks, empty]
  | append_singleton marks i ih =>
    have hfresh : (∀ k ∈ (ofMarks marks).used, k.path ≠ i.path) ↔
        marks.find? (·.path == i.path) = none := by
      constructor
      · intro hne
        cases hfind : marks.find? (·.path == i.path) with
        | none => rfl
        | some k =>
          have hk : k.path = i.path := by simpa using List.find?_some hfind
          exact absurd hk (hne k (ih.mpr (hk ▸ hfind)))
      · intro hnone k hk hpath
        rw [ih, hpath, hnone] at hk
        cases hk
    rw [ofMarks_append_singleton, mark, mem_insert (ordered_ofMarks marks), ih, hfresh,
      List.find?_append]
    by_cases hpath : i.path = j.path
    · rw [hpath]
      cases marks.find? (·.path == j.path) <;> simp [hpath, eq_comm]
    · have hji : j ≠ i := fun h => hpath (h ▸ rfl)
      simp [hpath, hji]

/-- A path that is marked has a first mark. -/
theorem exists_first_mark {marks : List Import} {i : Import} (hi : i ∈ marks) :
    ∃ j, marks.find? (·.path == i.path) = some j ∧ j.path = i.path := by
  have hsome : (marks.find? (·.path == i.path)).isSome :=
    List.find?_isSome.mpr ⟨i, hi, beq_self_eq_true _⟩
  obtain ⟨j, hj⟩ := Option.isSome_iff_exists.mp hsome
  exact ⟨j, hj, by simpa using List.find?_some hj⟩

/-- A path is used exactly if it was marked. -/
theorem mem_paths_ofMarks {marks : List Import} {path : String} :
    path ∈ (ofMarks marks).used.map Import.path ↔ path ∈ marks.map Import.path := by
  simp only [List.mem_map, mem_ofMarks]
  constructor
  · rintro ⟨i, hi, rfl⟩
    exact ⟨i, List.mem_of_find?_eq_some hi, rfl⟩
  · rintro ⟨i, hi, rfl⟩
    obtain ⟨j, hj, hpath⟩ := exists_first_mark hi
    exact ⟨j, hpath ▸ hj, hpath⟩

/-- The order of the output lists the same imports. -/
theorem mem_sorted {u : ImportUsage} {i : Import} : i ∈ u.sorted ↔ i ∈ u.used := by
  rw [sorted, shortNames, fullPaths, List.mem_append, List.mem_filter, List.mem_filter]
  cases i.form <;> simp

end ImportUsage

/-! ## What the positions demand -/

/-- The import of a name is known by that name. -/
theorem Module.goName_importFor (m : Module) (goName : String) :
    (m.importFor goName).goName = goName := by
  unfold importFor importByAlias?
  cases hfind : m.imports.find? (·.goName == goName) with
  | none => rfl
  | some i => simpa using List.find?_some hfind

/-- The path of the first import known as `goName`; without one it is that name itself. -/
def Module.pathOf (m : Module) (goName : String) : String :=
  match m.imports.find? (·.goName == goName) with
  | some i => i.path
  | none => goName

theorem Module.path_importFor (m : Module) (goName : String) :
    (m.importFor goName).path = m.pathOf goName := by
  unfold importFor importByAlias? pathOf
  cases m.imports.find? (·.goName == goName) <;> rfl

/-- The package of a symbol, if it is given one. -/
def Symbol.package? (s : Symbol) : Option String := s.pkg.filter (· ≠ "")

namespace Env

/-- The name by which a position refers to a package of the import table. -/
def aliasAt? (env : Env) : Position → Option String
  | .node (.pkgSym pkg symbol) => Symbol.package? ⟨pkg, symbol⟩
  | .node (.litNum value) => if value.isFinite then none else some "math"
  | .type (.named qualifiedName) => (env.resolve qualifiedName).bind Symbol.package?
  | .embed qualifiedName => (env.resolve qualifiedName).bind Symbol.package?
  | _ => none

/-- A position is written as the marker of a type variable: it is an interface for one, and none of
its members is shown. -/
def isMarker (env : Env) : Position → Bool
  | .type (.interface names methods isTypeVar) =>
    isTypeVar && methods.isEmpty && (names.isEmpty || !env.options.overlappingInterfaces)
  | _ => false

/-- The import that a position demands. -/
def demandAt? (env : Env) (p : Position) : Option Import :=
  if env.isMarker p then
    some (Import.plain env.options.typeVar.packageAlias env.options.typeVar.packagePath)
  else (env.aliasAt? p).map env.module.importFor

/-- The path that a position demands. -/
def pathAt? (env : Env) (p : Position) : Option String :=
  if env.isMarker p then some env.options.typeVar.packagePath
  else (env.aliasAt? p).map env.module.pathOf

theorem path_demandAt? (env : Env) (p : Position) :
    (env.demandAt? p).map Import.path = env.pathAt? p := by
  unfold demandAt? pathAt?
  split
  · rfl
  · rw [Option.map_map]
    congr 1
    funext goName
    exact env.module.path_importFor goName

/-- The imports that are demanded, in the order of the positions. -/
def demands (env : Env) : List Import := env.positions.filterMap env.demandAt?

end Env

/-! ## What the body marks -/

/-- A document marks the import `i` and writes its name, or does neither if there is none. -/
def Doc.Demands (d : Doc) (i : Option Import) : Prop :=
  d.uses = i.toList ∧ d.qualifiers = i.toList.map Import.goName

theorem Doc.Demands.marks {d : Doc} {i : Option Import} (h : d.Demands i) : d.marks.Demands i :=
  ⟨(Doc.uses_marks d).trans h.1, (Doc.qualifiers_marks d).trans h.2⟩

namespace Env

variable (env : Env)

theorem demands_useOf (goName s : String) :
    Doc.Demands (env.useOf goName ++ [.qualifier goName] ++ Doc.str s)
      (some (env.module.importFor goName)) := by
  refine ⟨rfl, ?_⟩
  rw [Option.toList_some, List.map_singleton, Module.goName_importFor]
  rfl

theorem demands_symbol (s : Symbol) :
    (env.symbol s).Demands (s.package?.map env.module.importFor) := by
  obtain ⟨pkg, name⟩ := s
  cases pkg with
  | none => exact ⟨rfl, rfl⟩
  | some pkg =>
    by_cases hpkg : pkg = ""
    · subst hpkg
      exact ⟨rfl, rfl⟩
    · have hsome : Symbol.package? ⟨some pkg, name⟩ = some pkg := by
        simp [Symbol.package?, Option.filter, hpkg]
      show (if pkg = "" then Doc.str name else _ : Doc).Demands _
      rw [hsome, if_neg hpkg]
      exact env.demands_useOf pkg name

theorem demands_typeName (qualifiedName : String) :
    (env.typeName qualifiedName).Demands
      (((env.resolve qualifiedName).bind Symbol.package?).map env.module.importFor) := by
  unfold typeName
  cases env.resolve qualifiedName with
  | none => exact ⟨rfl, rfl⟩
  | some s => exact env.demands_symbol s

theorem demands_number (value : Double) :
    (env.number value).Demands
      ((if value.isFinite then none else some "math").map env.module.importFor) := by
  unfold number
  split
  · exact ⟨rfl, rfl⟩
  · exact env.demands_useOf "math" _

theorem demands_typeVar :
    env.typeVar.Demands
      (some (Import.plain env.options.typeVar.packageAlias env.options.typeVar.packagePath)) :=
  ⟨rfl, rfl⟩

/-- The marker is written exactly for the interfaces that are rendered as empty. -/
theorem isMarker_interface (names : List String) (methods : List Binding) (isTypeVar : Bool) :
    env.isMarker (.type (.interface names methods isTypeVar)) =
      ((env.shownEmbeds names).isEmpty && methods.isEmpty && isTypeVar) := by
  unfold isMarker shownEmbeds
  cases env.options.overlappingInterfaces <;> cases names <;> cases methods <;> cases isTypeVar <;> rfl

/-- Whatever stands at a position is qualified by the import that it marks. -/
theorem demands_marksAt (p : Position) : (env.marksAt p).Demands (env.demandAt? p) := by
  cases p with
  | node n =>
    cases n with
    | litNum value => exact (env.demands_number value).marks
    | pkgSym pkg symbol => exact (env.demands_symbol ⟨pkg, symbol⟩).marks
    | func signature =>
      obtain ⟨_, _, _, type⟩ := signature
      cases type with
      | func _ _ body => cases body <;> exact ⟨rfl, rfl⟩
      | _ => exact ⟨rfl, rfl⟩
    | _ => exact ⟨rfl, rfl⟩
  | type t =>
    cases t with
    | named qualifiedName => exact (env.demands_typeName qualifiedName).marks
    | interface names methods isTypeVar =>
      rw [marksAt, demandAt?, isMarker_interface]
      split
      · exact env.demands_typeVar.marks
      · exact ⟨rfl, rfl⟩
    | _ => exact ⟨rfl, rfl⟩
  | embed qualifiedName => exact (env.demands_typeName qualifiedName).marks
  | method | methodDef | funcDef =>
    rw [marksAt]
    split <;> exact ⟨rfl, rfl⟩

/-- The body marks the demanded imports in order. -/
theorem uses_moduleBody : env.moduleBody.uses = env.demands := by
  rw [Doc.uses, env.filterMap_moduleBody fun _ => rfl, demands, List.filterMap_eq_flatMap_toList]
  apply List.flatMap_congr
  intro p _
  exact (env.demands_marksAt p).1

/-- The body writes the names of the demanded imports in order. -/
theorem qualifiers_moduleBody : env.moduleBody.qualifiers = env.demands.map Import.goName := by
  rw [Doc.qualifiers, env.filterMap_moduleBody fun _ => rfl, demands,
    List.filterMap_eq_flatMap_toList, List.map_flatMap]
  apply List.flatMap_congr
  intro p _
  exact (env.demands_marksAt p).2

/-- An import is demanded before any other one of its path. -/
def IsFirstDemand (i : Import) : Prop := env.demands.find? (·.path == i.path) = some i

instance (i : Import) : Decidable (env.IsFirstDemand i) := inferInstanceAs (Decidable (_ = _))

/-- The imports of a file are the demanded ones that come first for their path. -/
theorem mem_imports_iff {env : Env} {f : GoFile} (h : env.file = .ok f) {i : Import} :
    i ∈ f.imports ↔ env.IsFirstDemand i := by
  rw [(env.file_eq_ok h).1, ImportUsage.mem_sorted, uses_moduleBody, ImportUsage.mem_ofMarks]
  rfl

end Env

/-! ## The imports of a file -/

namespace Module

variable {m : Module} {resolver : Resolver} {options : Options} {f : GoFile}

/-- **Names are declared up to clashes of paths.**  All the package names that are written in the body
are declared by the imports exactly if each of them is the name of an import that is demanded before any
other one of its path. -/
theorem qualifiers_declared_iff (h : m.renderWith resolver options = .ok f) :
    (∀ q ∈ (Env.moduleBody ⟨m, resolver, options⟩).qualifiers, ∃ i ∈ f.imports, i.goName = q) ↔
      ∀ i ∈ Env.demands ⟨m, resolver, options⟩,
        ∃ j, Env.IsFirstDemand ⟨m, resolver, options⟩ j ∧ j.goName = i.goName := by
  rw [Env.qualifiers_moduleBody, List.forall_mem_map]
  simp only [Env.mem_imports_iff h]

/-- A struct with a method, an interface for a type variable, and names from several packages, some of
them in places that are not written. -/
def figures : Module where
  name := "figures"
  sourceName := "Figures"
  imports := [.plain "geo" "lib/geo", .plain "fmt" "fmt", .plain "unused" "lib/unused"]
  decls := [
    .type ⟨"Any", "Any", [], .interface ["unused.Face"] [] true⟩,
    .type ⟨"Box", "Box", [], .struct [] [⟨"corner", "corner", [], .named "geo.Point"⟩] true
      [⟨"area", "area", [], .func [] [⟨"", "", [], .named "float64"⟩]
        (some (.block [.ret (some (.litNum ⟨0x7ff0000000000000⟩))]))⟩]⟩,
    .func ⟨"show", "show", [], .func [] [] (some (.block [
      .var ⟨"p", "p", [], .named "unused.Type"⟩
        (some (.toType (.sym "any") (.named "geo.Point"))) (some ⟨"ok", true⟩),
      .call (.pkgSym (some "fmt") "Println") [.sym "p"]]))⟩]

theorem figures_qualifiers_declared :
    ∃ f, figures.renderWith .importTable {} = .ok f ∧
      ∀ q ∈ (Env.moduleBody ⟨figures, .importTable, {}⟩).qualifiers, ∃ i ∈ f.imports, i.goName = q := by
  have hfile : figures.renderWith .importTable {} = .ok _ := rfl
  refine ⟨_, hfile, (qualifiers_declared_iff hfile).mpr ?_⟩
  intro i hi
  refine ⟨i, ?_, rfl⟩
  revert i
  decide

/-- Two names for one package. -/
def twoNames : Module where
  name := "main"
  sourceName := "Main"
  imports := [.plain "a" "p", .plain "b" "p"]
  decls := [.var ⟨"x", "x", [], .empty⟩ (some (.pkgSym (some "a") "X")) none,
    .var ⟨"y", "y", [], .empty⟩ (some (.pkgSym (some "b") "Y")) none]

/-- The second name of a package is written but not declared. -/
theorem twoNames_undeclared :
    ∃ f, twoNames.renderWith .importTable {} = .ok f ∧
      "b" ∈ (Env.moduleBody ⟨twoNames, .importTable, {}⟩).qualifiers ∧
      ∀ i ∈ f.imports, i.goName ≠ "b" := by
  refine ⟨_, rfl, ?_, ?_⟩
  · decide
  · decide

/-- **The imported paths are exactly the demanded ones.**  Nothing that is not written counts, and
nothing that is written is forgotten. -/
theorem mem_import_paths_iff (h : m.renderWith resolver options = .ok f) (path : String) :
    path ∈ f.imports.map Import.path ↔
      ∃ p ∈ m.positions options.overlappingInterfaces,
        Env.pathAt? ⟨m, resolver, options⟩ p = some path := by
  have hpaths : path ∈ f.imports.map Import.path ↔
      path ∈ (Env.demands ⟨m, resolver, options⟩).map Import.path := by
    rw [(Env.file_eq_ok _ h).1, ← Env.uses_moduleBody]
    refine Iff.trans ?_ ImportUsage.mem_paths_ofMarks
    simp only [List.mem_map, ImportUsage.mem_sorted]
  rw [hpaths, Env.demands, List.map_filterMap, List.mem_filterMap]
  simp only [Env.path_demandAt?]
  rfl

theorem figures_import_paths :
    ∃ f, figures.renderWith .importTable {} = .ok f ∧
      f.imports.map Import.path = ["fmt", "math", "github.com/goemit/-", "lib/geo"] ∧
      ∀ path, path ∈ f.imports.map Import.path ↔
        ∃ p ∈ figures.positions false, Env.pathAt? ⟨figures, .importTable, {}⟩ p = some path := by
  have hfile : figures.renderWith .importTable {} = .ok _ := rfl
  exact ⟨_, hfile, by decide, mem_import_paths_iff hfile⟩

end Module

end GoScribe
