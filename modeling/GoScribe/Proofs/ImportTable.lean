import GoScribe.Proofs.ImportTracking
import GoScribe.Proofs.Locality
import GoScribe.Proofs.Switches
import Mathlib.Data.List.Nodup
import Mathlib.Data.List.Pairwise

/-!
# Import tables as sets

A table in which no local name and no source module comes twice is only ever asked for the one entry
that fits.  So its order makes no difference, and neither do the entries whose path is not imported:
whatever name leads to an entry at a rendered position gets its path imported.  Main statement:
`Module.render_importTable`.
-/

namespace GoScribe

/-- A search finds an element if it can find no other one. -/
theorem find?_eq_some_of_unique {α : Type} {p : α → Bool} {l : List α} {a : α} (ha : a ∈ l)
    (hp : p a) (hunique : ∀ b ∈ l, p b → b = a) : l.find? p = some a := by
  obtain ⟨b, hb⟩ := Option.isSome_iff_exists.mp (List.find?_isSome.mpr ⟨a, ha, hp⟩)
  rw [hb, hunique b (List.mem_of_find?_eq_some hb) (List.find?_some hb)]

/-- A search that can find one element at most finds it wherever it stands. -/
theorem find?_eq_of_perm {α : Type} {p : α → Bool} {l l' : List α} (hperm : l'.Perm l)
    (hunique : ∀ a ∈ l, ∀ b ∈ l, p a → p b → a = b) : l'.find? p = l.find? p := by
  cases h : l.find? p with
  | none =>
    rw [List.find?_eq_none] at h ⊢
    exact fun a ha => h a (hperm.mem_iff.mp ha)
  | some a =>
    have ha : a ∈ l := List.mem_of_find?_eq_some h
    refine find?_eq_some_of_unique (hperm.mem_iff.mpr ha) (List.find?_some h) ?_
    intro b hb hpb
    exact hunique b (hperm.mem_iff.mp hb) a ha hpb (List.find?_some h)

/-- A search does not see the elements that are dropped, if it cannot find them. -/
theorem find?_filter_of_kept {α : Type} {p keep : α → Bool} {l : List α}
    (h : ∀ a ∈ l, p a → keep a) : (l.filter keep).find? p = l.find? p := by
  induction l with
  | nil => rfl
  | cons a l ih =>
    rw [List.forall_mem_cons] at h
    cases hp : p a with
    | true => rw [List.filter_cons_of_pos (h.1 hp), List.find?_cons_of_pos hp, List.find?_cons_of_pos hp]
    | false =>
      rw [List.find?_cons_of_neg (by simp [hp]), ← ih h.2]
      cases hkeep : keep a with
      | true => rw [List.filter_cons_of_pos hkeep, List.find?_cons_of_neg (by simp [hp])]
      | false => rw [List.filter_cons_of_neg (by simp [hkeep])]

/-! ## Tables without clashes -/

/-- The entries of an import table have names, and neither a name nor a source module comes twice. -/
structure Import.Distinct (is : List Import) : Prop where
  named : ∀ i ∈ is, i.goName ≠ ""
  goNames : (is.map Import.goName).Nodup
  sourceModules : (is.filterMap Import.sourceModule).Nodup

namespace Import.Distinct

variable {is : List Import} (h : Import.Distinct is)

include h

theorem eq_of_goName {i j : Import} (hi : i ∈ is) (hj : j ∈ is) (hij : i.goName = j.goName) : i = j :=
  List.inj_on_of_nodup_map h.goNames hi hj hij

theorem eq_of_sourceModule {i j : Import} {name : String} (hi : i ∈ is) (hj : j ∈ is)
    (hiname : i.sourceModule = some name) (hjname : j.sourceModule = some name) : i = j := by
  have hpairs := List.pairwise_filterMap.mp h.sourceModules
  have hsymm : Std.Symm fun a b : Import =>
      ∀ c, a.sourceModule = some c → ∀ d, b.sourceModule = some d → c ≠ d :=
    ⟨fun _ _ hab c hc d hd => (hab d hd c hc).symm⟩
  by_contra hne
  exact hpairs.forall hi hj hne name hiname name hjname rfl

end Import.Distinct

namespace Module

/-- The module with another import table. -/
def withImports (m : Module) (is : List Import) : Module := { m with imports := is }

variable {m : Module} (hm : Import.Distinct m.imports)

/-! ## The order of the table -/

section

variable {is : List Import} (hperm : is.Perm m.imports)

include hm hperm

theorem importByAlias?_of_perm (goName : String) :
    (m.withImports is).importByAlias? goName = m.importByAlias? goName := by
  apply find?_eq_of_perm hperm
  intro i hi j hj hiname hjname
  rw [beq_iff_eq] at hiname hjname
  exact hm.eq_of_goName hi hj (hiname.trans hjname.symm)

theorem importBySource?_of_perm (name : String) :
    (m.withImports is).importBySource? name = m.importBySource? name := by
  apply find?_eq_of_perm hperm
  intro i hi j hj hiname hjname
  rw [beq_iff_eq] at hiname hjname
  exact hm.eq_of_sourceModule hi hj hiname hjname

/-- The order of the table makes no difference. -/
theorem render_of_perm (options : Options) : (m.withImports is).render options = m.render options := by
  have hresolve : Resolver.importTable (m.withImports is) = Resolver.importTable m := by
    funext qualifiedName
    unfold Resolver.importTable
    simp only [importByAlias?_of_perm hm hperm, importBySource?_of_perm hm hperm]
    rfl
  have himport : (m.withImports is).importFor = m.importFor := by
    funext goName
    rw [importFor, importFor, importByAlias?_of_perm hm hperm]
  exact Env.file_congr (Env.moduleBody_congr rfl hresolve himport rfl rfl rfl) rfl rfl rfl rfl

end

/-! ## Entries that are dropped -/

section

variable {keep : Import → Bool}

include hm

theorem importByAlias?_goName {i : Import} (hi : i ∈ m.imports) :
    m.importByAlias? i.goName = some i := by
  refine find?_eq_some_of_unique hi (beq_self_eq_true _) ?_
  intro j hj hname
  exact hm.eq_of_goName hj hi (beq_iff_eq.mp hname)

theorem importBySource?_sourceModule {i : Import} {name : String} (hi : i ∈ m.imports)
    (hname : i.sourceModule = some name) : m.importBySource? name = some i := by
  refine find?_eq_some_of_unique hi (beq_iff_eq.mpr hname) ?_
  intro j hj hjname
  exact hm.eq_of_sourceModule hj hi (beq_iff_eq.mp hjname) hname

theorem importFor_of_kept {goName : String} (hkeep : keep (m.importFor goName)) :
    (m.withImports (m.imports.filter keep)).importFor goName = m.importFor goName := by
  have halias : (m.withImports (m.imports.filter keep)).importByAlias? goName =
      m.importByAlias? goName := by
    apply find?_filter_of_kept
    intro i hi hname
    obtain rfl := beq_iff_eq.mp hname
    rwa [importFor, importByAlias?_goName hm hi] at hkeep
  rw [importFor, importFor, halias]

/-- Looking up a qualifier finds the same entry, if the one it finds is kept. -/
theorem lookup_of_kept {qualifier : String}
    (hkeep : ∀ i, (m.importBySource? qualifier <|> m.importByAlias? qualifier) = some i → keep i) :
    ((m.withImports (m.imports.filter keep)).importBySource? qualifier <|>
        (m.withImports (m.imports.filter keep)).importByAlias? qualifier) =
      (m.importBySource? qualifier <|> m.importByAlias? qualifier) := by
  have hsource : (m.withImports (m.imports.filter keep)).importBySource? qualifier =
      m.importBySource? qualifier := by
    apply find?_filter_of_kept
    intro i hi hname
    apply hkeep
    rw [importBySource?_sourceModule hm hi (beq_iff_eq.mp hname)]
    rfl
  rw [hsource]
  cases hfound : m.importBySource? qualifier with
  | some i => rfl
  | none =>
    -- Only now the local names are looked at, and the entry that has this one is kept.
    rw [hfound] at hkeep
    apply find?_filter_of_kept
    intro i hi hname
    obtain rfl := beq_iff_eq.mp hname
    exact hkeep i (importByAlias?_goName hm hi)

end

end Module

namespace Env

/-- The path of a demanded import is imported. -/
theorem path_mem_imports {env : Env} {f : GoFile} (h : env.file = .ok f) {i : Import}
    (hi : i ∈ env.demands) : i.path ∈ f.imports.map Import.path := by
  obtain ⟨j, hj, hpath⟩ := ImportUsage.exists_first_mark hi
  have hfirst : env.IsFirstDemand j := by rwa [IsFirstDemand, hpath]
  exact List.mem_map.mpr ⟨j, (mem_imports_iff h).mpr hfirst, hpath⟩

/-- A position that names a package demands its import. -/
theorem demandAt?_of_aliasAt? (env : Env) {p : Position} {goName : String}
    (h : env.aliasAt? p = some goName) : env.demandAt? p = some (env.module.importFor goName) := by
  have hmarker : env.isMarker p = false := by
    cases p with
    | type t => cases t <;> first | rfl | cases h
    | _ => rfl
  rw [demandAt?, if_neg (by simp [hmarker]), h, Option.map_some]

section

variable {m : Module} (hm : Import.Distinct m.imports) {options : Options} {keep : Import → Bool}

theorem symbol_of_kept {s : Symbol}
    (himport : ∀ goName, s.package? = some goName →
      (m.withImports (m.imports.filter keep)).importFor goName = m.importFor goName) :
    symbol ⟨m.withImports (m.imports.filter keep), .importTable, options⟩ s =
      symbol ⟨m, .importTable, options⟩ s := by
  obtain ⟨pkg, name⟩ := s
  cases pkg with
  | none => rfl
  | some pkg =>
    by_cases hpkg : pkg = ""
    · simp only [symbol, if_pos hpkg]
    · have hpackage : Symbol.package? ⟨some pkg, name⟩ = some pkg := by
        simp [Symbol.package?, Option.filter, hpkg]
      simp only [symbol, if_neg hpkg, useOf, himport pkg hpackage]

include hm

/-- A name is resolved to the same symbol, if the entry that it leads to is kept. -/
theorem importTable_of_kept {qualifiedName : String}
    (hkeep : ∀ goName, (Resolver.importTable m qualifiedName).bind Symbol.package? = some goName →
      keep (m.importFor goName)) :
    Resolver.importTable (m.withImports (m.imports.filter keep)) qualifiedName =
      Resolver.importTable m qualifiedName := by
  unfold Resolver.importTable at hkeep ⊢
  cases hsplit : Text.splitLast? '.' qualifiedName.toList with
  | none => rfl
  | some parts =>
    obtain ⟨before, after⟩ := parts
    simp only [hsplit] at hkeep ⊢
    by_cases hlocal :
        (String.ofList before = m.sourceName || String.ofList before = m.name) = true
    · rw [if_pos hlocal]
      exact if_pos hlocal
    · rw [if_neg hlocal] at hkeep ⊢
      have hlookup : ∀ i, (m.importBySource? (String.ofList before) <|>
          m.importByAlias? (String.ofList before)) = some i → keep i := by
        intro i hi
        have hmem : i ∈ m.imports := by
          rw [Option.orElse_eq_orElse, Option.orElse_eq_or] at hi
          rcases Option.or_eq_some_iff.mp hi with hsource | ⟨-, halias⟩
          · exact List.mem_of_find?_eq_some hsource
          · exact List.mem_of_find?_eq_some halias
        rw [hi] at hkeep
        have hkept := hkeep i.goName (by
          simp [Symbol.package?, Option.filter, hm.named i hmem])
        rwa [Module.importFor, Module.importByAlias?_goName hm hmem] at hkept
      rw [Module.lookup_of_kept hm hlookup]
      exact if_neg hlocal

theorem typeName_of_kept {qualifiedName : String}
    (hkeep : ∀ goName,
      (resolve ⟨m, .importTable, options⟩ qualifiedName).bind Symbol.package? = some goName →
        keep (m.importFor goName)) :
    typeName ⟨m.withImports (m.imports.filter keep), .importTable, options⟩ qualifiedName =
      typeName ⟨m, .importTable, options⟩ qualifiedName := by
  have hresolve : resolve ⟨m.withImports (m.imports.filter keep), .importTable, options⟩
      qualifiedName = resolve ⟨m, .importTable, options⟩ qualifiedName :=
    importTable_of_kept hm hkeep
  unfold typeName
  rw [hresolve]
  cases hsymbol : resolve ⟨m, .importTable, options⟩ qualifiedName with
  | none => rfl
  | some s =>
    refine symbol_of_kept fun goName hpackage => Module.importFor_of_kept hm (hkeep goName ?_)
    rw [hsymbol]
    exact hpackage

/-- Where all the demanded imports are kept, the names are written in the same way. -/
theorem agreeAt_of_kept {ps : List Position}
    (hkeep : ∀ p ∈ ps, ∀ i ∈ demandAt? ⟨m, .importTable, options⟩ p, keep i) :
    AgreeAt ⟨m, .importTable, options⟩
      ⟨m.withImports (m.imports.filter keep), .importTable, options⟩ ps := by
  intro p hp
  have hname (goName : String) (h : aliasAt? ⟨m, .importTable, options⟩ p = some goName) :
      keep (m.importFor goName) :=
    hkeep p hp _ (demandAt?_of_aliasAt? _ h)
  unfold nameAt
  split
  · unfold number
    split
    · rfl
    · next hfinite =>
      have hmath := Module.importFor_of_kept hm (hname "math" (if_neg hfinite))
      simp only [useOf, hmath]
  · exact symbol_of_kept fun goName h => Module.importFor_of_kept hm (hname goName h)
  · exact typeName_of_kept hm hname
  · exact typeName_of_kept hm hname
  · rfl

end

end Env

namespace Module

/-- **The import table is a set, and entries that are not used cannot be seen.**  A module is rendered
in the same way whatever the order of its table, and also without the entries whose paths are not
imported. -/
theorem render_importTable (m : Module) (hm : Import.Distinct m.imports) (options : Options) :
    (∀ is : List Import, is.Perm m.imports → (m.withImports is).render options = m.render options) ∧
      ∀ f, m.render options = .ok f →
        (m.withImports (m.imports.filter fun i => i.path ∈ f.imports.map Import.path)).render options =
          .ok f := by
  refine ⟨fun is hperm => render_of_perm hm hperm options, ?_⟩
  intro f hf
  have hagree : Env.AgreeAt ⟨m, .importTable, options⟩
      ⟨m.withImports (m.imports.filter fun i => i.path ∈ f.imports.map Import.path), .importTable,
        options⟩ (Env.positions ⟨m, .importTable, options⟩) := by
    apply Env.agreeAt_of_kept hm
    intro p hp i hi
    exact decide_eq_true (Env.path_mem_imports hf (List.mem_filterMap.mpr ⟨p, hp, hi⟩))
  rw [← hf]
  exact Env.file_congr (hagree.moduleBody rfl rfl) rfl rfl rfl rfl

/-- A source module that is also the local name of another package, and a package that nothing refers
to. -/
def parcels : Module where
  name := "parcels"
  sourceName := "Parcels"
  imports := [.plain "Data.Maybe" "lib/decoy", ⟨"list", "lib/list", some "Data.List"⟩,
    ⟨"maybe", "lib/maybe", some "Data.Maybe"⟩, .plain "fmt" "fmt"]
  decls := [
    .type ⟨"Parcel", "Parcel", [], .struct [] [⟨"label", "label", [], .named "Data.Maybe.Maybe"⟩,
      ⟨"note", "note", [], .named "Data.Tuple.Tuple"⟩] false []⟩,
    .var ⟨"show", "show", [], .empty⟩ (some (.pkgSym (some "fmt") "Sprint")) none]

theorem parcels_importTable :
    Import.Distinct parcels.imports ∧
      (parcels.withImports parcels.imports.reverse).render {} = parcels.render {} ∧
      ∃ f, parcels.render {} = .ok f ∧ f.imports.map Import.path = ["fmt", "lib/maybe"] ∧
        (parcels.withImports (parcels.imports.filter
          fun i => i.path ∈ f.imports.map Import.path)).render {} = .ok f := by
  have hdistinct : Import.Distinct parcels.imports := ⟨by decide, by decide, by decide⟩
  have hrender := render_importTable parcels hdistinct {}
  have hfile : parcels.render {} = .ok _ := rfl
  exact ⟨hdistinct, hrender.1 _ (List.reverse_perm _), _, hfile, by decide, hrender.2 _ hfile⟩

end Module

end GoScribe
