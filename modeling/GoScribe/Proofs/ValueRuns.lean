import GoScribe.Proofs.Switches
import GoScribe.Proofs.ValueForms
import Mathlib.Data.List.SplitBy

/-!
# Runs of constants and variables

The constants and variables of a module are cut where the kind changes, whatever stands between them.  There is one
way to cut a list into runs of one kind of which no two neighbours could be joined, and each of these runs is written
as one chunk: the plain declaration if it is alone, a group otherwise.  So the text of a list can be cut where the kind
changes, and the file does not show how the types, the values and the functions of a module are interleaved.  Main
statement: `Decl.values_in_runs`.
-/

namespace GoScribe

namespace ValueDecl

/-! ## Maximal runs -/

/-- The list is cut into runs of one kind, and two neighbouring runs are of different kinds. -/
structure IsMaximalRuns (vs : List ValueDecl) (runs : List (List ValueDecl)) : Prop where
  flatten_eq : runs.flatten = vs
  nil_notMem : [] ∉ runs
  kind_eq : ∀ r ∈ runs, ∀ v ∈ r, ∀ w ∈ r, v.kind = w.kind
  kind_ne : runs.IsChain fun r s => ∀ v ∈ r, ∀ w ∈ s, v.kind ≠ w.kind

/-- A declaration joins the run behind it. -/
theorem IsMaximalRuns.join {v w : ValueDecl} {vs ws : List ValueDecl} {runs : List (List ValueDecl)}
    (h : IsMaximalRuns vs ((w :: ws) :: runs)) (hkind : v.kind = w.kind) :
    IsMaximalRuns (v :: vs) ((v :: w :: ws) :: runs) where
  flatten_eq := congrArg (v :: ·) h.flatten_eq
  nil_notMem := by
    have hnil := h.nil_notMem
    grind
  kind_eq := by
    have hrun := h.kind_eq
    grind
  kind_ne := by
    obtain ⟨hne, hruns⟩ := List.isChain_cons.mp h.kind_ne
    refine List.isChain_cons.mpr ⟨?_, hruns⟩
    intro s hs u hu x hx
    rcases List.mem_cons.mp hu with rfl | hu
    · rw [hkind]
      exact hne s hs w List.mem_cons_self x hx
    · exact hne s hs u hu x hx

/-- A declaration of another kind than the one behind it is a run of its own. -/
theorem IsMaximalRuns.separate {v : ValueDecl} {vs : List ValueDecl} {runs : List (List ValueDecl)}
    (h : IsMaximalRuns vs runs) (hkind : ∀ r ∈ runs.head?, ∀ w ∈ r, v.kind ≠ w.kind) :
    IsMaximalRuns (v :: vs) ([v] :: runs) where
  flatten_eq := congrArg (v :: ·) h.flatten_eq
  nil_notMem := by simp [h.nil_notMem]
  kind_eq := by
    have hrun := h.kind_eq
    grind
  kind_ne := by
    refine List.isChain_cons.mpr ⟨?_, h.kind_ne⟩
    intro s hs u hu w hw
    obtain rfl := List.mem_singleton.mp hu
    exact hkind s hs w hw

theorem isMaximalRuns_runs (vs : List ValueDecl) : IsMaximalRuns vs (runs vs) := by
  induction vs with
  | nil => exact ⟨rfl, List.not_mem_nil, by simp [runs], List.isChain_nil⟩
  | cons v vs ih =>
    unfold runs
    split
    · next w ws rs hruns =>
      rw [hruns] at ih
      split
      · next hkind => exact ih.join hkind
      · next hkind =>
        refine ih.separate ?_
        intro r hr u hu
        obtain rfl := Option.mem_some_iff.mp hr
        rw [ih.kind_eq _ List.mem_cons_self u hu w List.mem_cons_self]
        exact hkind
    · next hruns =>
      refine ih.separate ?_
      -- The first run, if there is one, is not empty, so there is none.
      intro r hr
      cases r with
      | nil => exact absurd (List.mem_of_mem_head? hr) ih.nil_notMem
      | cons w ws =>
        obtain ⟨rs, hrs⟩ := List.head?_eq_some_iff.mp hr
        exact absurd hrs (hruns w ws rs)

/-- Maximal runs are cut exactly where the kind changes. -/
theorem IsMaximalRuns.splitBy_eq {vs : List ValueDecl} {runs : List (List ValueDecl)}
    (h : IsMaximalRuns vs runs) : vs.splitBy (fun v w => v.kind == w.kind) = runs := by
  rw [List.splitBy_eq_iff]
  refine ⟨h.flatten_eq.symm, h.nil_notMem, ?_, ?_⟩
  · intro r hr
    apply List.Pairwise.isChain
    exact List.pairwise_of_forall_mem_list fun v hv w hw => beq_iff_eq.mpr (h.kind_eq r hr v hv w hw)
  · refine h.kind_ne.imp_of_mem_imp ?_
    intro r s hr hs hne
    have hr : r ≠ [] := fun hnil => h.nil_notMem (hnil ▸ hr)
    have hs : s ≠ [] := fun hnil => h.nil_notMem (hnil ▸ hs)
    exact ⟨hr, hs, beq_eq_false_iff_ne.mpr (hne _ (List.getLast_mem hr) _ (List.head_mem hs))⟩

/-- There is one way to cut a list into maximal runs. -/
theorem IsMaximalRuns.eq_runs {vs : List ValueDecl} {rs : List (List ValueDecl)} (h : IsMaximalRuns vs rs) :
    rs = runs vs :=
  h.splitBy_eq.symm.trans (isMaximalRuns_runs vs).splitBy_eq

/-- No run goes over a place where the kind changes. -/
theorem runs_append {vs ws : List ValueDecl} (h : ∀ v ∈ vs.getLast?, ∀ w ∈ ws.head?, v.kind ≠ w.kind) :
    runs (vs ++ ws) = runs vs ++ runs ws := by
  rw [← (isMaximalRuns_runs (vs ++ ws)).splitBy_eq, ← (isMaximalRuns_runs vs).splitBy_eq,
    ← (isMaximalRuns_runs ws).splitBy_eq]
  exact List.splitBy_append fun v hv w hw => beq_eq_false_iff_ne.mpr (h v hv w hw)

end ValueDecl

/-! ## Chunks -/

namespace Env

/-- The entry of a group at position `k`: a blank line stands above its comments, unless it is the first one. -/
def entryAt (env : Env) (k : Nat) (v : ValueDecl) : Doc :=
  (if 0 < k && env.showsAny v.decl.comments then Doc.newline else []) ++ env.groupEntry v

/-- How a run is written: a declaration alone in its plain form, several as entries between the line of their keyword
and a closing line. -/
inductive IsChunk (env : Env) : List ValueDecl → Doc → Prop
  | plain (v : ValueDecl) : IsChunk env [v] (env.plainValue v)
  | group {k : ValueKind} {vs : List ValueDecl} (hlength : 2 ≤ vs.length) (hkind : ∀ v ∈ vs, v.kind = k) :
      IsChunk env vs
        (Doc.str k.keyword ++ Doc.line " (" ++ (vs.mapIdx env.entryAt).flatten ++ Doc.line ")")

theorem entries_eq_flatten (env : Env) (vs : List ValueDecl) :
    env.entries vs = (vs.mapIdx env.entryAt).flatten := by
  cases vs with
  | nil => rfl
  | cons v vs =>
    -- Behind the first entry the position makes no difference.
    have hlater : vs.mapIdx (fun k => env.entryAt (k + 1)) = vs.map env.laterEntry :=
      List.ext_getElem (by simp) (by simp [entryAt, laterEntry])
    rw [entries, List.mapIdx_cons, hlater, List.flatten_cons, List.flatMap_def]
    rfl

theorem exists_isChunk (env : Env) {r : List ValueDecl} (hne : r ≠ [])
    (hkind : ∀ v ∈ r, ∀ w ∈ r, v.kind = w.kind) :
    ∃ chunk, env.IsChunk r chunk ∧ env.run r = chunk ++ Doc.newline := by
  match r with
  | [] => exact absurd rfl hne
  | [v] => exact ⟨_, .plain v, rfl⟩
  | v :: w :: ws =>
    have hall : ∀ u ∈ v :: w :: ws, u.kind = v.kind := fun u hu => hkind u hu v List.mem_cons_self
    refine ⟨_, .group (by simp) hall, ?_⟩
    rw [env.run_eq_group (by simp) fun u hu => hall u (List.mem_of_mem_head? hu), entries_eq_flatten,
      List.append_assoc _ (Doc.line ")")]

theorem exists_chunks (env : Env) {runs : List (List ValueDecl)} (hne : [] ∉ runs)
    (hkind : ∀ r ∈ runs, ∀ v ∈ r, ∀ w ∈ r, v.kind = w.kind) :
    ∃ chunks, List.Forall₂ env.IsChunk runs chunks ∧
      runs.flatMap env.run = chunks.flatMap (· ++ Doc.newline) := by
  induction runs with
  | nil => exact ⟨[], .nil, rfl⟩
  | cons r runs ih =>
    rw [List.mem_cons, not_or] at hne
    rw [List.forall_mem_cons] at hkind
    obtain ⟨chunk, hchunk, hrun⟩ := env.exists_isChunk (Ne.symm hne.1) hkind.1
    obtain ⟨chunks, hchunks, hruns⟩ := ih hne.2 hkind.2
    exact ⟨chunk :: chunks, .cons hchunk hchunks, by rw [List.flatMap_cons, List.flatMap_cons, hrun, hruns]⟩

end Env

/-! ## Interleaving -/

/-- The values of a list are those of its constants and variables. -/
theorem Decl.filterMap_value?_filter (ds : List Decl) :
    (ds.filter Decl.isValue).filterMap Decl.value? = ds.filterMap Decl.value? := by
  rw [List.filterMap_filter]
  congr 1
  funext d
  cases d <;> rfl

/-- Two lists declare the same types, the same values and the same functions, each in the same order. -/
structure Decl.SameSections (ds es : List Decl) : Prop where
  types_eq : es.filterMap Decl.typeDef? = ds.filterMap Decl.typeDef?
  values_eq : es.filter Decl.isValue = ds.filter Decl.isValue
  funcs_eq : es.filterMap Decl.funcDef? = ds.filterMap Decl.funcDef?

/-- The module with other declarations. -/
def Module.withDecls (m : Module) (ds : List Decl) : Module := { m with decls := ds }

namespace Env

theorem values_of_filter_eq (env : Env) {ds es : List Decl}
    (h : es.filter Decl.isValue = ds.filter Decl.isValue) : env.values es = env.values ds := by
  rw [values, values, ← Decl.filterMap_value?_filter es, h, Decl.filterMap_value?_filter]

/-- The body is put together from the types, the values and the functions. -/
theorem moduleBody_of_sameSections {env env' : Env} (h : Decl.SameSections env.module.decls env'.module.decls)
    (hresolve : env'.resolve = env.resolve) (himport : env'.module.importFor = env.module.importFor)
    (hoptions : env'.options = env.options) : env'.moduleBody = env.moduleBody := by
  obtain ⟨htypeDef, hmethodSet, hfuncDef, hvalues⟩ :=
    parts_congr hresolve himport (congrArg _ hoptions) (congrArg _ hoptions) (congrArg _ hoptions)
  rw [moduleBody, moduleBody, Module.typeDefs, Module.typeDefs, Module.funcDefs, Module.funcDefs, h.types_eq,
    h.funcs_eq, htypeDef, hmethodSet, hfuncDef, hvalues, env.values_of_filter_eq h.values_eq]

end Env

/-- The file does not show how the declarations of a module are interleaved. -/
theorem Module.renderWith_of_sameSections {m : Module} {resolver resolver' : Resolver} {ds es : List Decl}
    (h : Decl.SameSections ds es) (hresolver : resolver' (m.withDecls es) = resolver (m.withDecls ds))
    (options : Options) :
    (m.withDecls es).renderWith resolver' options = (m.withDecls ds).renderWith resolver options :=
  Env.file_congr (Env.moduleBody_of_sameSections h hresolver rfl rfl) rfl rfl rfl rfl

/-- **Values are written in maximal runs.**  The constants and variables among the declarations are cut into maximal
runs of one kind, which can be done in one way only and leaves none out; each run is written as one chunk with a blank
line behind it, in order.  So the declarations `ds` and `es` behind them are written one after the other where the kind
changes between them, or one of them has no values.  What is declared beside the values changes nothing about them, and
no file shows how types, values and functions are interleaved. -/
theorem Decl.values_in_runs (ds : List Decl) :
    (∀ env : Env, ∃ runs chunks, ValueDecl.IsMaximalRuns (ds.filterMap Decl.value?) runs ∧
      (∀ runs', ValueDecl.IsMaximalRuns (ds.filterMap Decl.value?) runs' → runs' = runs) ∧
      List.Forall₂ env.IsChunk runs chunks ∧ env.values ds = chunks.flatMap (· ++ Doc.newline)) ∧
    (∀ (env : Env) (es : List Decl),
      (∀ v ∈ (ds.filterMap Decl.value?).getLast?, ∀ w ∈ (es.filterMap Decl.value?).head?, v.kind ≠ w.kind) →
        env.values (ds ++ es) = env.values ds ++ env.values es) ∧
    (∀ (env : Env) (es : List Decl), es.filter Decl.isValue = ds.filter Decl.isValue →
      env.values es = env.values ds) ∧
    ∀ (m : Module) (es : List Decl) (options : Options), Decl.SameSections ds es →
      (m.withDecls es).render options = (m.withDecls ds).render options := by
  refine ⟨?_, ?_, fun env es h => env.values_of_filter_eq h,
    fun m es options h => Module.renderWith_of_sameSections h rfl options⟩
  · intro env
    have hruns := ValueDecl.isMaximalRuns_runs (ds.filterMap Decl.value?)
    obtain ⟨chunks, hchunks, htext⟩ := env.exists_chunks hruns.nil_notMem hruns.kind_eq
    exact ⟨_, chunks, hruns, fun _ h => h.eq_runs, hchunks, htext⟩
  · intro env es hkind
    rw [Env.values, List.filterMap_append, ValueDecl.runs_append hkind, List.flatMap_append]
    rfl

/-- Two constants with a type between them. -/
def gaugeConstants : List Decl :=
  [.const ⟨"x", "x", [], .named "int"⟩ (.litInt 1), .type ⟨"Gauge", "Gauge", [], .struct [] [] false []⟩,
    .const ⟨"y", "y", [], .named "int"⟩ (.litInt 2)]

/-- A variable and a function that could stand behind them. -/
def gaugeVariable : List Decl :=
  [.var ⟨"z", "z", [], .named "int"⟩ (some (.litInt 3)) none,
    .func ⟨"reset", "reset", [], .func [] [] (some (.block []))⟩]

theorem gauge_values_in_runs :
    let env : Env := ⟨.empty "main" "Main", .importTable, {}⟩
    let m := Module.empty "main" "Main"
    (∃ chunk, env.IsChunk (gaugeConstants.filterMap Decl.value?) chunk ∧
        env.values gaugeConstants = chunk ++ Doc.newline) ∧
      env.values (gaugeConstants ++ gaugeVariable) = env.values gaugeConstants ++ env.values gaugeVariable ∧
      (env.values (gaugeConstants ++ gaugeVariable)).text =
        "const (\n\tx int = 1\n\ty int = 2\n)\n\nvar z int = 3\n\n" ∧
      env.values (gaugeConstants.filter Decl.isValue) = env.values gaugeConstants ∧
      (m.withDecls (gaugeConstants.filter Decl.isValue ++ gaugeConstants.filter (!·.isValue))).render {} =
        (m.withDecls gaugeConstants).render {} := by
  intro env m
  obtain ⟨hchunks, happend, hfilter, hrender⟩ := Decl.values_in_runs gaugeConstants
  obtain ⟨runs, chunks, -, hunique, hforall, hvalues⟩ := hchunks env
  have hruns : [gaugeConstants.filterMap Decl.value?] = runs :=
    hunique _ ⟨rfl, by simp [gaugeConstants, Decl.value?], by simp [gaugeConstants, Decl.value?],
      List.isChain_singleton _⟩
  subst hruns
  obtain ⟨chunk, rest, hchunk, hrest, rfl⟩ := List.forall₂_cons_left_iff.mp hforall
  cases hrest
  refine ⟨⟨chunk, hchunk, by simpa using hvalues⟩, happend env _ (by decide), by decide +kernel,
    hfilter env _ rfl, hrender m _ {} ⟨rfl, rfl, rfl⟩⟩

end GoScribe
