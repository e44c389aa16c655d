import GoScribe.Proofs.ImportOrder
import GoScribe.Proofs.Splitting

/-!
# The names of imported packages

A type name that is found in the import table is written with the alias of its entry, and the import that is marked is
looked up again by that alias.  So the entry and the mark agree exactly if the entry has an alias, and the first entry
of that alias has the same path (`Module.refersTo_iff`).  Every other import that a file lists was looked up by its own
name too, so a name can be declared twice only if one of the two is the marker of type variables
(`Module.import_names_distinct`).
-/

namespace GoScribe

/-- The name by which a file knows the package of an import: the last segment of the path stands in for an alias. -/
def Import.localName (i : Import) : String :=
  if i.goName = "" then i.defaultName else i.goName

/-! ## Names that lead to an entry -/

/-- A type name is written as `name` in the package of `i`, and the path of `i` is marked as used. -/
def Env.RefersTo (env : Env) (qualifiedName : String) (i : Import) (name : String) : Prop :=
  ∀ (indent : Indent) (owner : String),
    (env.type indent owner (.named qualifiedName)).text = i.localName ++ "." ++ name ∧
      (ImportUsage.ofMarks (env.type indent owner (.named qualifiedName)).uses).isUsed i.path

/-- A qualified name that is found in the table is resolved to the alias of its entry. -/
theorem Resolver.importTable_of_found {m : Module} {qualifier name : String} {i : Import}
    (hname : '.' ∉ name.toList) (hown : qualifier ≠ m.sourceName ∧ qualifier ≠ m.name)
    (hfound : (m.importBySource? qualifier <|> m.importByAlias? qualifier) = some i) :
    Resolver.importTable m (qualifier ++ "." ++ name) = some ⟨some i.goName, name⟩ := by
  have hsplit : Text.splitLast? '.' (qualifier ++ "." ++ name).toList = some (qualifier.toList, name.toList) := by
    rw [String.toList_append, String.toList_append, List.append_assoc]
    exact Text.splitLast?_append_cons qualifier.toList hname
  unfold Resolver.importTable
  simp only [hsplit, String.ofList_toList, hown.1, hown.2, hfound, decide_false, Bool.or_self, Bool.false_eq_true,
    if_false]

namespace Env

variable (env : Env) (name : String)

/-- An alias is written in front of the symbol, and its import is marked. -/
theorem symbol_of_ne_empty {pkg : String} (hpkg : pkg ≠ "") :
    (env.symbol ⟨some pkg, name⟩).text = pkg ++ "." ++ name ∧
      (env.symbol ⟨some pkg, name⟩).uses = [env.module.importFor pkg] := by
  simp only [symbol, if_neg hpkg]
  refine ⟨?_, rfl⟩
  rw [← String.toList_inj]
  simp [Doc.text, Doc.chars, useOf, Doc.str, Piece.chars]

/-- Without an alias the symbol is written alone. -/
theorem text_symbol_empty : (env.symbol ⟨some "", name⟩).text = name := by
  simp [symbol, Doc.text]

end Env

/-- A text is not its own end behind a dot. -/
theorem ne_append_dot (s t : String) : t ≠ s ++ "." ++ t := by
  intro h
  have hlength := congrArg String.length h
  simp only [String.length_append] at hlength
  have hdot : ".".length = 1 := rfl
  omega

namespace Module

/-- **The table and the marks agree on all entries that are the first of their alias.**  A type name that is found in
the import table refers to its entry exactly if the entry has an alias, and the first entry of that alias has its
path. -/
theorem refersTo_iff (m : Module) (options : Options) {qualifier name : String} {i : Import}
    (hname : '.' ∉ name.toList) (hown : qualifier ≠ m.sourceName ∧ qualifier ≠ m.name)
    (hfound : (m.importBySource? qualifier <|> m.importByAlias? qualifier) = some i) :
    Env.RefersTo ⟨m, .importTable, options⟩ (qualifier ++ "." ++ name) i name ↔
      i.goName ≠ "" ∧ (m.importFor i.goName).path = i.path := by
  let env : Env := ⟨m, .importTable, options⟩
  have hresolve : env.resolve (qualifier ++ "." ++ name) = some ⟨some i.goName, name⟩ :=
    Resolver.importTable_of_found hname hown hfound
  have htype (indent : Indent) (owner : String) :
      env.type indent owner (.named (qualifier ++ "." ++ name)) = env.symbol ⟨some i.goName, name⟩ := by
    rw [Env.type, Env.typeName, hresolve]
  by_cases halias : i.goName = ""
  · -- The symbol is written without a package, whatever the path is.
    refine iff_of_false ?_ fun h => h.1 halias
    intro h
    have htext := (h .top "").1
    rw [htype, halias, env.text_symbol_empty] at htext
    exact ne_append_dot _ _ htext
  · obtain ⟨htext, huses⟩ := env.symbol_of_ne_empty name halias
    have hlocal : i.localName = i.goName := if_neg halias
    have hused : (ImportUsage.ofMarks [m.importFor i.goName]).isUsed i.path ↔
        (m.importFor i.goName).path = i.path := by
      simp [ImportUsage.isUsed_ofMarks]
    constructor
    · intro h
      have hmark := (h .top "").2
      rw [htype, huses] at hmark
      exact ⟨halias, hused.mp hmark⟩
    · rintro ⟨-, hpath⟩ indent owner
      rw [htype, htext, huses, hlocal]
      exact ⟨rfl, hused.mpr hpath⟩

/-- A source module is found although its name is an alias too. -/
theorem parcels_refersTo :
    parcels.importByAlias? "Data.Maybe" = some (.plain "Data.Maybe" "lib/decoy") ∧
      Env.RefersTo ⟨parcels, .importTable, {}⟩ "Data.Maybe.Maybe" ⟨"maybe", "lib/maybe", some "Data.Maybe"⟩
        "Maybe" := by
  have hown : "Data.Maybe" ≠ parcels.sourceName ∧ "Data.Maybe" ≠ parcels.name := by decide
  have hfound : (parcels.importBySource? "Data.Maybe" <|> parcels.importByAlias? "Data.Maybe") =
      some ⟨"maybe", "lib/maybe", some "Data.Maybe"⟩ := by decide
  have hrefers := (refersTo_iff parcels {} (by decide : '.' ∉ "Maybe".toList) hown hfound).mpr (by decide)
  exact ⟨by decide, hrefers⟩

/-- A package without an alias, and two packages that share one. -/
def homonyms : Module where
  name := "main"
  sourceName := "Main"
  imports := [⟨"", "strings", some "Data.String"⟩, ⟨"list", "one/list", some "One.List"⟩,
    ⟨"list", "two/list", some "Two.List"⟩]
  decls := []

/-- The package without an alias is neither named nor imported, and the first of the two is imported in place of the
second. -/
theorem homonyms_not_refersTo :
    let env : Env := ⟨homonyms, .importTable, {}⟩
    homonyms.importBySource? "Data.String" = some ⟨"", "strings", some "Data.String"⟩ ∧
      (env.type .top "" (.named "Data.String.Pattern")).text = "Pattern" ∧
      (env.type .top "" (.named "Data.String.Pattern")).uses = [] ∧
      ¬env.RefersTo "Data.String.Pattern" ⟨"", "strings", some "Data.String"⟩ "Pattern" ∧
      homonyms.importBySource? "Two.List" = some ⟨"list", "two/list", some "Two.List"⟩ ∧
      (env.type .top "" (.named "Two.List.Cons")).text = "list.Cons" ∧
      (env.type .top "" (.named "Two.List.Cons")).uses = [⟨"list", "one/list", some "One.List"⟩] ∧
      ¬env.RefersTo "Two.List.Cons" ⟨"list", "two/list", some "Two.List"⟩ "Cons" := by
  refine ⟨by decide, by decide, by decide, fun h => ?_, by decide, by decide, by decide, fun h => ?_⟩
  · exact absurd (h .top "").1 (by decide)
  · exact absurd (h .top "").2 (by decide)

end Module

/-! ## Names that are declared -/

/-- The import of the package that holds the marker. -/
def Marker.toImport (marker : Marker) : Import := Import.plain marker.packageAlias marker.packagePath

theorem Symbol.ne_empty_of_package? {s : Symbol} {pkg : String} (h : s.package? = some pkg) : pkg ≠ "" := by
  simpa using (Option.filter_eq_some_iff.mp h).2

namespace Env

variable {env : Env}

/-- A position refers to a package by a name that is not empty. -/
theorem ne_empty_of_aliasAt? {p : Position} {goName : String} (h : env.aliasAt? p = some goName) :
    goName ≠ "" := by
  unfold aliasAt? at h
  split at h
  · exact Symbol.ne_empty_of_package? h
  · split at h
    · cases h
    · cases h
      decide
  · obtain ⟨s, -, hs⟩ := Option.bind_eq_some_iff.mp h
    exact Symbol.ne_empty_of_package? hs
  · obtain ⟨s, -, hs⟩ := Option.bind_eq_some_iff.mp h
    exact Symbol.ne_empty_of_package? hs
  · cases h

/-- A position demands the marker's import, or the one that its own name leads to. -/
theorem demandAt?_eq_some {p : Position} {i : Import} (h : env.demandAt? p = some i) :
    i = env.options.typeVar.toImport ∨ env.module.importFor i.goName = i ∧ i.goName ≠ "" := by
  unfold demandAt? at h
  split at h
  · cases h
    exact .inl rfl
  · obtain ⟨goName, halias, rfl⟩ := Option.map_eq_some_iff.mp h
    rw [Module.goName_importFor]
    exact .inr ⟨rfl, ne_empty_of_aliasAt? halias⟩

end Env

/-- **No package name is declared twice, up to the marker.**  Of two imports of a file that have the same name one belongs
to the marker of type variables.  Every other import is the one that its own name leads to, and that name is not empty. -/
theorem Module.import_names_distinct {m : Module} {resolver : Resolver} {options : Options} {f : GoFile}
    (h : m.renderWith resolver options = .ok f) :
    (∀ k l : Fin f.imports.length, k ≠ l → (f.imports.get k).goName = (f.imports.get l).goName →
        f.imports.get k = options.typeVar.toImport ∨ f.imports.get l = options.typeVar.toImport) ∧
      ∀ i ∈ f.imports, i ≠ options.typeVar.toImport → m.importFor i.goName = i ∧ i.goName ≠ "" := by
  have hlisted : ∀ i ∈ f.imports, i ≠ options.typeVar.toImport → m.importFor i.goName = i ∧ i.goName ≠ "" := by
    intro i hi hmarker
    have hdemand : i ∈ Env.demands ⟨m, resolver, options⟩ :=
      List.mem_of_find?_eq_some ((Env.mem_imports_iff h).mp hi)
    obtain ⟨p, -, hp⟩ := List.mem_filterMap.mp hdemand
    exact (Env.demandAt?_eq_some hp).resolve_left hmarker
  refine ⟨?_, hlisted⟩
  intro k l hne hname
  by_contra hmarker
  rw [not_or] at hmarker
  have hk := (hlisted _ (List.get_mem _ k) hmarker.1).1
  have hl := (hlisted _ (List.get_mem _ l) hmarker.2).1
  have hnodup : f.imports.Nodup := by
    rw [(Env.file_eq_ok _ h).1, (ImportUsage.sorted_perm _).nodup_iff]
    exact (ImportUsage.ordered_ofMarks _).nodup
  refine hne (hnodup.injective_get ?_)
  rw [← hk, ← hl, hname]

/-- A package that has the alias of the marker. -/
def Module.impostor : Module where
  name := "main"
  sourceName := "Main"
  imports := [.plain "𝒈" "lib/generic", .plain "g" "lib/generic", .plain "fmt" "fmt"]
  decls := [
    .type ⟨"Any", "Any", [], .interface [] [] true⟩,
    .var ⟨"x", "x", [], .empty⟩ (some (.pkgSym (some "𝒈") "New")) none,
    .var ⟨"y", "y", [], .empty⟩ (some (.pkgSym (some "g") "New")) none,
    .var ⟨"z", "z", [], .empty⟩ (some (.pkgSym (some "fmt") "Sprint")) none]

theorem Module.impostor_import_names_distinct :
    ∃ f, impostor.render {} = .ok f ∧
      f.imports = [.plain "fmt" "fmt", .plain "𝒈" "github.com/goemit/-", .plain "𝒈" "lib/generic"] ∧
      (∀ k l : Fin f.imports.length, k ≠ l → (f.imports.get k).goName = (f.imports.get l).goName →
        f.imports.get k = .plain "𝒈" "github.com/goemit/-" ∨ f.imports.get l = .plain "𝒈" "github.com/goemit/-") ∧
      ∀ i ∈ f.imports, i ≠ .plain "𝒈" "github.com/goemit/-" → impostor.importFor i.goName = i ∧ i.goName ≠ "" := by
  have hfile : impostor.render {} = .ok _ := rfl
  exact ⟨_, hfile, by decide, import_names_distinct hfile⟩

end GoScribe
