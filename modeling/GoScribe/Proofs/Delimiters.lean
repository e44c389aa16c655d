import GoScribe.Proofs.ImportTracking
import GoScribe.Proofs.NodeLayouts

/-!
# Delimiters of a file

Whatever a file is written from, its brackets are nested, and no literal or comment in it is left open,
as long as the texts that are written as they are hold no delimiters.  String literals, import paths and
the header may hold anything.
-/

namespace GoScribe

open Go (Delimited)

/-! ## Layouts are delimited -/

/-- A text of the renderer's own. -/
theorem delimited_fixed (s : String) (hs : s.toList.all fun c => c ∉ Go.codeBreaks) :
    Delimited s.toList := by
  apply Go.delimited_of_plain
  simpa using hs

theorem delimited_of_avoids {cs : List Char} (h : Text.avoids Text.delimiters cs) : Delimited cs := by
  apply Go.delimited_of_plain
  intro c hc hmem
  exact Text.avoids_iff.mp h c hc (List.mem_cons_of_mem _ hmem)

theorem delimited_tabs (i : Indent) : Delimited (Doc.tabs i).chars := by
  apply Go.delimited_of_plain
  intro c hc
  rw [Doc.chars_tabs] at hc
  rw [List.eq_of_mem_replicate hc]
  decide

/-- Each way to put a rendering together keeps its delimiters in order. -/
theorem TextLayout.delimited {loose : Bool} {p : Placement} {D : Indent → List Char}
    (h : TextLayout loose Text.delimiters p D) (i : Indent) : Delimited (D i) := by
  induction h generalizing i with
  | text hs => exact delimited_of_avoids hs
  | quoted s => exact Go.delimited_quote s
  | division => exact Go.delimited_division
  | comment hs => exact Go.delimited_comment (Text.not_mem_of_avoids hs (by decide))
  | bracketed hoc _ ih => exact (ih i).bracketed hoc
  | append _ _ ihD ihE => exact (ihD i).append (ihE i)
  | block _ ih =>
    have hlines := (delimited_fixed "\n" (by decide)).append
      ((ih i.deeper).append (delimited_tabs i))
    have hblock := hlines.bracketed (o := '\x7b') (c := '\x7d') (by decide)
    rw [List.append_assoc, List.append_assoc] at hblock
    exact hblock
  | loosely _ _ ih => exact ih i
  | none => exact .nil
  | more _ _ ihD ihE => exact (ihD i).append (ihE i)
  | row _ ih => exact (delimited_tabs i).append ((ih i).append (delimited_fixed "\n" (by decide)))
  | statement _ ih =>
    have hend : Delimited (Doc.endStatement i).chars := by
      cases i with
      | inline => exact .nil
      | level k => exact delimited_fixed "\n" (by decide)
    exact (delimited_tabs i).append ((ih i).append hend)
  | lineComment hs =>
    exact (delimited_tabs i).append (Go.delimited_lineComment (Text.not_mem_of_avoids hs (by decide)))

/-! ## The texts of a module -/

/-- The texts of a declaration beside those at its positions. -/
def Decl.texts : Decl → List String
  | type d => d.texts
  | const d _ => d.texts
  | var d _ ok => d.texts ++ ok.toList.map OkBinding.okName
  | func _ => []

/-- The texts of a module that are written as they are. -/
def Module.texts (embeds : Bool) (m : Module) : List String :=
  m.name :: (m.decls.flatMap Decl.texts ++ (m.positions embeds).flatMap Position.texts)

/-! ## Declarations -/

section

variable {d e : Doc}

/-- A document behind another one. -/
theorem Go.Delimited.followed (hd : Delimited d.chars) (he : Delimited e.chars) :
    Delimited (Doc.chars (d ++ e)) := by
  rw [Doc.chars_append]
  exact hd.append he

theorem delimited_str {s : String} (hs : Text.avoids Text.delimiters s.toList) :
    Delimited (Doc.str s).chars := by
  rw [Doc.chars_str]
  exact delimited_of_avoids hs

theorem delimited_newline : Delimited Doc.newline.chars :=
  delimited_fixed "\n" (by decide)

theorem delimited_space : Delimited Doc.space.chars :=
  delimited_fixed " " (by decide)

theorem delimited_flatMap {α : Type} {f : α → Doc} {xs : List α}
    (h : ∀ x ∈ xs, Delimited (f x).chars) : Delimited (Doc.chars (xs.flatMap f)) := by
  induction xs with
  | nil => exact .nil
  | cons x xs ih =>
    rw [List.forall_mem_cons] at h
    rw [List.flatMap_cons]
    exact h.1.followed (ih h.2)

end

/-- The two results of an assertion are bound to the names that were asked for. -/
theorem VarShape.topLevel_eq_checked {value : Option Node} {ok : Option OkBinding} {b : OkBinding}
    (h : VarShape.topLevel value ok = .checked b) : ok = some b := by
  unfold VarShape.topLevel at h
  grind

/-- A function type with a body. -/
theorem GoType.eq_func_of_implementation? {t : GoType} {params results : List Binding} {body : Node}
    (h : t.implementation? = some (params, results, body)) : t = .func params results (some body) := by
  unfold implementation? at h
  split at h
  · cases h
    rfl
  · cases h

/-- The texts of a top-level constant or variable hold no delimiters. -/
structure ValueDecl.Fits (embeds : Bool) (v : ValueDecl) : Prop where
  texts : ∀ s ∈ v.decl.texts, Text.avoids Text.delimiters s.toList
  ok : ∀ b ∈ v.ok, Text.avoids Text.delimiters b.okName.toList
  positions : ∀ p ∈ v.positions embeds, p.Fits true Text.delimiters

/-- The constant or variable of a declaration has its texts and positions. -/
theorem Decl.fits_of_value? {embeds : Bool} {d : Decl} {v : ValueDecl} (hv : d.value? = some v)
    (htexts : ∀ s ∈ d.texts, Text.avoids Text.delimiters s.toList)
    (hpositions : ∀ p ∈ d.valuePositions embeds, p.Fits true Text.delimiters) : v.Fits embeds := by
  cases d with
  | const b value =>
    cases hv
    refine ⟨htexts, by simp, ?_⟩
    simpa [valuePositions, ValueDecl.positions, constTypePositions, topTypePositions,
      optionPositions] using hpositions
  | var b value ok =>
    cases hv
    rw [texts, List.forall_mem_append, List.forall_mem_map] at htexts
    refine ⟨htexts.1, ?_, hpositions⟩
    intro b hb
    exact htexts.2 b (Option.mem_toList.mpr hb)
  | type | func => cases hv

theorem Symbol.pkg_eq_of_package? {s : Symbol} {goName : String} (h : s.package? = some goName) :
    s.pkg = some goName :=
  (Option.filter_eq_some_iff.mp h).1

namespace Env

theorem delimited_comments (env : Env) (i : Indent) {cs : List Comment}
    (hcs : ∀ c ∈ cs, Text.avoids Text.delimiters c.text.toList) :
    Delimited (env.comments i cs).chars := by
  have hlayout : TextLayout true Text.delimiters .lines fun i => (env.comments i cs).chars :=
    layout_comments env hcs
  exact hlayout.delimited i

/-- A declaration stands inside a line, whatever its place. -/
theorem layout_valueDoc {env : Env} {loose : Bool} {reserved : List Char}
    (hreserved : reserved ⊆ Text.delimiters) (henv : env.Avoids reserved) {v : ValueDecl}
    (hname : Text.avoids reserved v.decl.name.toList)
    (hok : ∀ b ∈ v.ok, Text.avoids reserved b.okName.toList)
    (hstatement : ∀ n ∈ v.value.toList, loose = false → n.isStatement = false)
    (hpositions : ∀ p ∈ v.positions env.options.overlappingInterfaces, p.Fits loose reserved) :
    TextLayout loose reserved .inside fun i => (env.valueDoc i v).chars := by
  obtain ⟨kind, decl, value, ok⟩ := v
  rw [ValueDecl.positions, List.forall_mem_append] at hpositions
  have hvalue := layout_nodeOpt hreserved henv value hstatement hpositions.2
  have hvalued : ∀ head : Indent → Doc,
      (TextLayout loose reserved .inside fun i => (head i).chars) →
      TextLayout loose reserved .inside fun i =>
        Doc.chars (head i ++ initializer (env.nodeOpt i value)) := by
    intro head hhead
    refine (hhead.append (layout_initializer hreserved hvalue)).of_eq fun i => ?_
    rw [Doc.chars_append]
  have hdeclared : (∀ b, VarShape.topLevel value ok ≠ .checked b) →
      TextLayout loose reserved .inside fun i =>
        Doc.chars (Doc.str decl.name ++ env.declaredType i decl.type value.isSome) := by
    intro hshape
    have htype : TextLayout loose reserved .inside fun i =>
        (env.declaredType i decl.type value.isSome).chars := by
      apply layout_declaredType hreserved henv
      intro hshown
      rw [← topTypePositions_of_not_checked hshape hshown]
      exact hpositions.1
    refine ((TextLayout.text hname).append htype).of_eq fun i => ?_
    rw [Doc.chars_append, Doc.chars_str]
  unfold valueDoc
  cases hshape : VarShape.topLevel value ok with
  | checked b =>
    refine hvalued (fun _ => checkedNames decl.name b) ?_
    exact layout_checkedNames hreserved hname (hok b (VarShape.topLevel_eq_checked hshape))
  | inferred | declared => exact hvalued _ (hdeclared (by simp [hshape]))

variable {env : Env} (henv : env.Avoids Text.delimiters)

include henv

theorem delimited_typeDef {d : Binding} (hd : ∀ s ∈ d.texts, Text.avoids Text.delimiters s.toList)
    (h : ∀ p ∈ d.type.positions env.options.overlappingInterfaces d.sourceName,
      p.Fits true Text.delimiters) : Delimited (env.typeDef d).chars := by
  rw [Binding.texts, List.forall_mem_cons, List.forall_mem_map] at hd
  have htype := (layout_type (List.Subset.refl _) henv d.sourceName d.type h).delimited .top
  exact (((((delimited_comments env .top hd.2).followed (delimited_str (by decide))).followed
    (delimited_str hd.1)).followed delimited_space).followed htype).followed delimited_newline
      |>.followed delimited_newline

theorem delimited_valueDoc {v : ValueDecl} (hv : v.Fits env.options.overlappingInterfaces) (i : Indent) :
    Delimited (env.valueDoc i v).chars := by
  have hlayout := layout_valueDoc (List.Subset.refl _) henv (hv.texts v.decl.name List.mem_cons_self)
    hv.ok (fun _ _ hno => by cases hno) hv.positions
  exact hlayout.delimited i

theorem delimited_plainValue {v : ValueDecl} (hv : v.Fits env.options.overlappingInterfaces) :
    Delimited (env.plainValue v).chars := by
  have htexts := hv.texts
  rw [Binding.texts, List.forall_mem_cons, List.forall_mem_map] at htexts
  have hkeyword : Text.avoids Text.delimiters v.kind.keyword.toList := by
    cases v.kind <;> decide
  exact ((((delimited_comments env .top htexts.2).followed (delimited_str hkeyword)).followed
    delimited_space).followed (delimited_valueDoc henv hv .top)).followed delimited_newline

theorem delimited_groupEntry {v : ValueDecl} (hv : v.Fits env.options.overlappingInterfaces) :
    Delimited (env.groupEntry v).chars := by
  have htexts := hv.texts
  rw [Binding.texts, List.forall_mem_cons, List.forall_mem_map] at htexts
  exact (((delimited_comments env groupIndent htexts.2).followed (delimited_tabs groupIndent)).followed
    (delimited_valueDoc henv hv groupIndent)).followed delimited_newline

theorem delimited_laterEntry {v : ValueDecl} (hv : v.Fits env.options.overlappingInterfaces) :
    Delimited (env.laterEntry v).chars := by
  have hgap : Delimited (Doc.chars (if env.showsAny v.decl.comments then Doc.newline else [])) := by
    split
    · exact delimited_newline
    · exact .nil
  exact hgap.followed (delimited_groupEntry henv hv)

theorem delimited_run {vs : List ValueDecl}
    (hvs : ∀ v ∈ vs, v.Fits env.options.overlappingInterfaces) : Delimited (env.run vs).chars := by
  match vs with
  | [] => exact .nil
  | [v] => exact (delimited_plainValue henv (hvs v List.mem_cons_self)).followed delimited_newline
  | v :: w :: vs =>
    rw [List.forall_mem_cons] at hvs
    have hentries := (delimited_groupEntry henv hvs.1).followed
      (delimited_flatMap fun u hu => delimited_laterEntry henv (hvs.2 u hu))
    have hgroup := ((delimited_fixed "\n" (by decide)).append hentries).bracketed
      (o := '(') (c := ')') (by decide)
    have hkeyword : Delimited v.kind.keyword.toList := by
      cases v.kind <;> exact delimited_fixed _ (by decide)
    have hall := (hkeyword.append (delimited_fixed " " (by decide))).append
      (hgroup.append (delimited_fixed "\n\n" (by decide)))
    show Delimited (Doc.chars (_ ++ _ ++ _ ++ _ ++ _ ++ _))
    simp only [Doc.chars_append, Doc.chars_str, Doc.chars_line, Doc.chars_newline,
      List.append_assoc, List.cons_append] at hall ⊢
    exact hall

theorem delimited_values {ds : List Decl}
    (h : ∀ d ∈ ds, ∀ v, d.value? = some v → v.Fits env.options.overlappingInterfaces) :
    Delimited (env.values ds).chars := by
  apply delimited_flatMap
  intro vs hvs
  apply delimited_run henv
  intro v hv
  -- Runs only divide the declarations, so each of them is one of the module's.
  have hmem : v ∈ ds.filterMap Decl.value? := by
    rw [← ValueDecl.flatten_runs (ds.filterMap Decl.value?)]
    exact List.mem_flatten_of_mem hvs hv
  obtain ⟨d, hd, hvalue⟩ := List.mem_filterMap.mp hmem
  exact h d hd v hvalue

/-! ## Methods and functions -/

/-- The parameters and results of a definition, which shows their names. -/
theorem delimited_signature {params results : List Binding}
    (hnames : ∀ s ∈ (params ++ results).map Binding.name, Text.avoids Text.delimiters s.toList)
    (hparams : ∀ p ∈ bindingPositions env.options.overlappingInterfaces params,
      p.Fits true Text.delimiters)
    (hresults : ∀ p ∈ bindingPositions env.options.overlappingInterfaces results,
      p.Fits true Text.delimiters) :
    Delimited (env.signature .top true params results).chars := by
  rw [List.map_append, List.forall_mem_append] at hnames
  exact (layout_signature (List.Subset.refl _) henv true (fun _ => hnames.1) (fun _ => hnames.2)
    hparams hresults).delimited .top

theorem delimited_body {n : Node}
    (h : ∀ p ∈ n.positions env.options.overlappingInterfaces, p.Fits true Text.delimiters) :
    Delimited (env.body .top n).chars :=
  (layout_bodyDoc (layout_node (List.Subset.refl _) henv n h)).delimited .top

theorem delimited_method {d m : Binding} (byPointer : Bool)
    (hd : Text.avoids Text.delimiters d.name.toList)
    (h : ∀ p ∈ implementationPositions env.options.overlappingInterfaces
      (.methodDef d.sourceName m) m.type, p.Fits true Text.delimiters) :
    Delimited (env.method d byPointer m).chars := by
  unfold method
  split
  · exact .nil
  · next params results body himpl =>
    simp only [implementationPositions, himpl, List.forall_mem_cons, List.forall_mem_append] at h
    obtain ⟨hfits, ⟨hparams, hresults⟩, hbody⟩ := h
    have htexts := hfits.texts
    rw [Position.texts, List.forall_mem_append, Binding.texts, List.forall_mem_cons,
      List.forall_mem_map, GoType.eq_func_of_implementation? himpl] at htexts
    obtain ⟨⟨hname, hcomments⟩, hnames⟩ := htexts
    have hstar : Delimited (if byPointer then "*" else "").toList := by
      split <;> exact delimited_fixed _ (by decide)
    have hreceiver := ((delimited_fixed "_ " (by decide)).append
      (hstar.append (delimited_of_avoids hd))).bracketed (o := '(') (c := ')') (by decide)
    have hsignature := delimited_signature henv hnames hparams hresults
    have hall := (delimited_comments env .top hcomments).append
      (((delimited_fixed "func " (by decide)).append (hreceiver.append
        ((delimited_fixed " " (by decide)).append (delimited_of_avoids hname)))).append
          (hsignature.append ((delimited_fixed " " (by decide)).append
            ((delimited_body henv hbody).append (delimited_fixed "\n" (by decide))))))
    simp only [Doc.chars_append, Doc.chars_str, Doc.chars_space, Doc.chars_newline,
      List.append_assoc, List.cons_append] at hall ⊢
    exact hall

theorem delimited_methodSet {d : Binding} (hd : Text.avoids Text.delimiters d.name.toList)
    (h : ∀ p ∈ (Decl.type d).methodPositions env.options.overlappingInterfaces,
      p.Fits true Text.delimiters) : Delimited (env.methodSet d).chars := by
  obtain ⟨name, sourceName, comments, type⟩ := d
  cases type with
  | struct embeds fields byPointer methods =>
    simp only [Decl.methodPositions, List.mem_flatMap] at h
    unfold methodSet
    dsimp only
    split
    · exact .nil
    · refine Go.Delimited.followed (delimited_flatMap fun m hm => ?_) delimited_newline
      exact delimited_method henv byPointer hd fun p hp => h p ⟨m, hm, hp⟩
  | _ => exact .nil

theorem delimited_funcDef {d : Binding}
    (h : ∀ p ∈ implementationPositions env.options.overlappingInterfaces (.funcDef d) d.type,
      p.Fits true Text.delimiters) : Delimited (env.funcDef d).chars := by
  unfold funcDef
  split
  · exact .nil
  · next params results body himpl =>
    simp only [implementationPositions, himpl, List.forall_mem_cons, List.forall_mem_append] at h
    obtain ⟨hfits, ⟨hparams, hresults⟩, hbody⟩ := h
    have htexts := hfits.texts
    rw [Position.texts, List.forall_mem_append, Binding.texts, List.forall_mem_cons,
      List.forall_mem_map, GoType.eq_func_of_implementation? himpl] at htexts
    obtain ⟨⟨hname, hcomments⟩, hnames⟩ := htexts
    have hhead := (layout_funcHead (List.Subset.refl _) henv true hname hnames hparams
      hresults).delimited .top
    exact ((((delimited_comments env .top hcomments).followed hhead).followed delimited_space).followed
      (delimited_body henv hbody)).followed delimited_newline |>.followed delimited_newline

/-! ## The body of a file -/

/-- Everything below the import block. -/
theorem delimited_moduleBody
    (htexts : ∀ d ∈ env.module.decls, ∀ s ∈ d.texts, Text.avoids Text.delimiters s.toList)
    (hpositions : ∀ p ∈ env.positions, p.Fits true Text.delimiters) :
    Delimited env.moduleBody.chars := by
  simp only [positions, Module.positions, List.forall_mem_append, List.forall_mem_flatMap]
    at hpositions
  obtain ⟨⟨⟨htypes, hvalues⟩, hmethods⟩, hfuncs⟩ := hpositions
  have hmem : ∀ d ∈ env.module.typeDefs, Decl.type d ∈ env.module.decls := by
    intro d hd
    obtain ⟨e, he, hdef⟩ := List.mem_filterMap.mp hd
    cases e <;> cases hdef
    exact he
  have htypeDefs : ∀ d ∈ env.module.typeDefs, Delimited (env.typeDef d).chars := by
    intro d hd
    exact delimited_typeDef henv (htexts _ (hmem d hd)) (htypes _ (hmem d hd))
  have hmethodSets : ∀ d ∈ env.module.typeDefs, Delimited (env.methodSet d).chars := by
    intro d hd
    have hname := htexts _ (hmem d hd) d.name List.mem_cons_self
    exact delimited_methodSet henv hname (hmethods _ (hmem d hd))
  have hfuncDefs : ∀ d ∈ env.module.funcDefs, Delimited (env.funcDef d).chars := by
    intro d hd
    obtain ⟨e, he, hdef⟩ := List.mem_filterMap.mp hd
    cases e <;> cases hdef
    exact delimited_funcDef henv (hfuncs _ he)
  have hvalueDecls : Delimited (env.values env.module.decls).chars := by
    apply delimited_values henv
    intro d hd v hv
    exact Decl.fits_of_value? hv (htexts d hd) (hvalues d hd)
  exact (((delimited_flatMap htypeDefs).followed hvalueDecls).followed
    (delimited_flatMap hmethodSets)).followed (delimited_flatMap hfuncDefs)

/-! ## The import block -/

/-- A package name that a position writes is one of its texts, or comes from the resolver. -/
theorem avoids_aliasAt? {p : Position} (hp : ∀ s ∈ p.texts, Text.avoids Text.delimiters s.toList)
    {goName : String} (h : env.aliasAt? p = some goName) :
    Text.avoids Text.delimiters goName.toList := by
  have hresolved : ∀ q, Text.avoids Text.delimiters q.toList →
      (env.resolve q).bind Symbol.package? = some goName →
        Text.avoids Text.delimiters goName.toList := by
    intro q hq hbind
    obtain ⟨s, hs, hpackage⟩ := Option.bind_eq_some_iff.mp hbind
    exact henv.pkg q s hq hs goName (Symbol.pkg_eq_of_package? hpackage)
  unfold aliasAt? at h
  split at h
  · next pkg symbol =>
    have hpkg : pkg = some goName := Symbol.pkg_eq_of_package? h
    subst hpkg
    exact hp goName (List.mem_cons_of_mem _ List.mem_cons_self)
  · split at h
    · cases h
    · cases h
      decide
  · next q => exact hresolved q (hp q List.mem_cons_self) h
  · next q => exact hresolved q (hp q List.mem_cons_self) h
  · cases h

theorem avoids_demandAt? {p : Position} (hp : ∀ s ∈ p.texts, Text.avoids Text.delimiters s.toList)
    {i : Import} (h : env.demandAt? p = some i) : Text.avoids Text.delimiters i.goName.toList := by
  unfold demandAt? at h
  split at h
  · cases h
    exact henv.markerAlias
  · obtain ⟨goName, halias, rfl⟩ := Option.map_eq_some_iff.mp h
    rw [Module.goName_importFor]
    exact avoids_aliasAt? henv hp halias

end Env

namespace ImportUsage

theorem delimited_importLine {i : Import} (hi : Text.avoids Text.delimiters i.goName.toList) :
    Delimited (importLine i).chars := by
  have hname : Delimited (Doc.chars (if i.needsAlias then Doc.str i.goName ++ Doc.space else [])) := by
    split
    · exact (delimited_str hi).followed delimited_space
    · exact .nil
  have hpath : Delimited (Doc.line (String.ofList (Text.quote i.path.toList))).chars := by
    rw [Doc.chars_line, String.toList_ofList]
    exact (Go.delimited_quote _).append (delimited_fixed "\n" (by decide))
  exact ((delimited_str (by decide)).followed hname).followed hpath

theorem delimited_block {u : ImportUsage}
    (h : ∀ i ∈ u.used, Text.avoids Text.delimiters i.goName.toList) : Delimited u.block.chars := by
  unfold block
  split
  · exact .nil
  · have hlines : ∀ is : List Import, is ⊆ u.used → Delimited (Doc.chars (is.flatMap importLine)) :=
      fun is his => delimited_flatMap fun i hi => delimited_importLine (h i (his hi))
    have hgap : Delimited (Doc.chars
        (if u.shortNames.isEmpty || u.fullPaths.isEmpty then [] else Doc.newline)) := by
      split
      · exact .nil
      · exact delimited_newline
    have hentries := ((hlines u.shortNames (List.filter_subset_self _)).append hgap).append
      (hlines u.fullPaths (List.filter_subset_self _))
    have hgroup := ((delimited_fixed "\n" (by decide)).append hentries).bracketed
      (o := '(') (c := ')') (by decide)
    have hall := (delimited_fixed "import " (by decide)).append
      (hgroup.append (delimited_fixed "\n\n" (by decide)))
    simp only [Doc.chars_append, Doc.chars_line, Doc.chars_newline, List.append_assoc,
      List.cons_append] at hall ⊢
    exact hall

end ImportUsage

/-! ## The head of a file -/

theorem Text.dropCarriageReturn_subset (cs : List Char) : dropCarriageReturn cs ⊆ cs := by
  intro c hc
  unfold dropCarriageReturn at hc
  split at hc
  · next rest hcs =>
    rw [← List.mem_reverse, hcs]
    exact List.mem_cons_of_mem _ (List.mem_reverse.mp hc)
  · exact hc

/-- A line has no line feed in it. -/
theorem Text.not_mem_of_mem_lines {cs l : List Char} (hl : l ∈ lines cs) : '\n' ∉ l := by
  have hpieces : ∀ ps : List (List Char), (∀ p ∈ ps, '\n' ∉ p) → ∀ l ∈ linesOfPieces ps, '\n' ∉ l := by
    intro ps
    fun_induction linesOfPieces ps with
    | case1 => simp
    | case2 => simp
    | case3 last hlast => exact id
    | case4 p q ps ih =>
      intro h
      rw [List.forall_mem_cons] at h ⊢
      exact ⟨fun hmem => h.1 (dropCarriageReturn_subset p hmem), ih h.2⟩
  exact hpieces _ (fun p hp => not_mem_of_mem_splitOn hp) l hl

namespace Env

/-- The lines of the header are comments, whatever they say. -/
theorem delimited_headerDoc (header : Option String) : Delimited (headerDoc header).chars := by
  cases header with
  | none => exact .nil
  | some s =>
    refine Go.Delimited.followed (delimited_flatMap fun l hl => ?_) delimited_newline
    have hline := Text.not_mem_of_mem_lines hl
    cases l with
    | nil => exact Go.delimited_lineComment List.not_mem_nil
    | cons c l =>
      have hspaced : '\n' ∉ ' ' :: c :: l := by
        rw [List.mem_cons, not_or]
        exact ⟨by decide, hline⟩
      have hcomment := Go.delimited_lineComment hspaced
      simp only [List.isEmpty_cons, Bool.false_eq_true, ↓reduceIte, Doc.chars_append, Doc.chars_str,
        Doc.chars_space, Doc.chars_newline, String.toList_ofList]
      exact hcomment

theorem delimited_packageDoc {m : Module} (hname : Text.avoids Text.delimiters m.name.toList) :
    Delimited (packageDoc m).chars := by
  have hclause : Text.avoids Text.delimiters ("package " ++ m.name).toList := by
    rw [String.toList_append]
    exact Text.avoids_append (by decide) hname
  refine Go.Delimited.followed ?_ delimited_newline
  rw [Doc.chars_line]
  exact (delimited_of_avoids hclause).append (delimited_fixed "\n" (by decide))

end Env

/-! ## The end of a file -/

namespace Text

/-- Trimming takes away white space only. -/
theorem exists_eq_trimEnd_append (cs : List Char) :
    ∃ ws, cs = trimEnd cs ++ ws ∧ ∀ c ∈ ws, isBlank c := by
  induction cs with
  | nil => exact ⟨[], rfl, by simp⟩
  | cons c cs ih =>
    obtain ⟨ws, hcs, hws⟩ := ih
    rw [trimEnd]
    split
    · next hnil =>
      rw [hnil, List.nil_append] at hcs
      subst hcs
      split
      · next hc =>
        refine ⟨c :: cs, rfl, ?_⟩
        rw [List.forall_mem_cons]
        exact ⟨hc, hws⟩
      · exact ⟨cs, rfl, hws⟩
    · next d ds hcons =>
      rw [hcons] at hcs
      refine ⟨ws, ?_, hws⟩
      rw [List.cons_append, ← hcs]

/-- A trimmed text does not end in white space. -/
theorem trimEnd_eq_nil_or (cs : List Char) :
    trimEnd cs = [] ∨ ∃ ds c, trimEnd cs = ds ++ [c] ∧ isBlank c = false := by
  induction cs with
  | nil => exact .inl rfl
  | cons c cs ih =>
    rw [trimEnd]
    rcases ih with hnil | ⟨ds, d, hds, hd⟩
    · rw [hnil]
      cases hc : isBlank c with
      | true => exact .inl rfl
      | false => exact .inr ⟨[], c, rfl, hc⟩
    · refine .inr ⟨c :: ds, d, ?_, hd⟩
      rw [hds]
      cases ds <;> rfl

end Text

/-- A text with something in it beside white space keeps its delimiters in order when it is trimmed, and
ends in one line feed. -/
theorem Go.Delimited.trimEnd {cs : List Char} (h : Delimited cs) {c : Char} (hc : c ∈ cs)
    (hblank : Text.isBlank c = false) :
    Delimited (Text.trimEnd cs ++ ['\n']) ∧
      ∃ ds d, Text.trimEnd cs ++ ['\n'] = ds ++ [d, '\n'] ∧ d ≠ '\n' := by
  obtain ⟨ws, hcs, hws⟩ := Text.exists_eq_trimEnd_append cs
  have hdelimited : Delimited (Text.trimEnd cs ++ ['\n']) := by
    rw [hcs] at h
    exact h.trimmed hws
  refine ⟨hdelimited, ?_⟩
  rcases Text.trimEnd_eq_nil_or cs with hnil | ⟨ds, d, hds, hd⟩
  · -- Nothing would be left only if everything were white space.
    rw [hnil, List.nil_append] at hcs
    rw [hcs] at hc
    rw [hws c hc] at hblank
    cases hblank
  · refine ⟨ds, d, ?_, ?_⟩
    · rw [hds, List.append_assoc]
      rfl
    · rintro rfl
      exact absurd hd (by decide)

/-! ## The file -/

namespace Module

/-- **Delimiters balance.**  If the texts of a module, the symbols that its names resolve to and the
marker of type variables hold no delimiters, then no bracket, literal or comment of its file is left
open, and the file ends in a single line feed.  String literals, import paths and the header may hold
anything. -/
theorem renderWith_delimited {m : Module} {resolver : Resolver} {options : Options} {f : GoFile}
    (htexts : ∀ s ∈ m.texts options.overlappingInterfaces, Text.avoids Text.delimiters s.toList)
    (henv : Env.Avoids ⟨m, resolver, options⟩ Text.delimiters)
    (h : m.renderWith resolver options = .ok f) :
    Delimited f.source.toList ∧ ∃ cs c, f.source.toList = cs ++ [c, '\n'] ∧ c ≠ '\n' := by
  rw [texts, List.forall_mem_cons, List.forall_mem_append, List.forall_mem_flatMap,
    List.forall_mem_flatMap] at htexts
  obtain ⟨hname, hdecls, hpositions⟩ := htexts
  have hbody : Delimited (Env.moduleBody ⟨m, resolver, options⟩).chars :=
    Env.delimited_moduleBody henv hdecls fun p hp => ⟨hpositions p hp, fun hno => by cases hno⟩
  have hblock : Delimited
      (ImportUsage.ofMarks (Env.moduleBody ⟨m, resolver, options⟩).uses).block.chars := by
    apply ImportUsage.delimited_block
    intro i hi
    -- An import that is written was demanded at some position.
    have hmem := List.mem_of_find?_eq_some (ImportUsage.mem_ofMarks.mp hi)
    rw [Env.uses_moduleBody] at hmem
    obtain ⟨p, hp, hdemand⟩ := List.mem_filterMap.mp hmem
    exact Env.avoids_demandAt? henv (hpositions p hp) hdemand
  have hall := (((Env.delimited_headerDoc options.header).followed
    (Env.delimited_packageDoc hname)).followed hblock).followed hbody
  rw [Env.eq_of_file_eq_ok _ h, Env.assemble, String.toList_ofList]
  refine hall.trimEnd (c := 'p') ?_ (by decide)
  have hletter : 'p' ∈ (Env.packageDoc m).chars := by
    simp [Env.packageDoc, Doc.chars_append, Doc.chars_line]
  simp only [Doc.chars_append, List.mem_append]
  exact .inl (.inl (.inr hletter))

/-- A module with delimiters in a string literal and in an import path. -/
def punctuated : Module where
  name := "main"
  sourceName := "Main"
  imports := [.plain "open" "lib/(open\"\x7b"]
  decls := [
    .type ⟨"Shape", "Shape", [.block " a *"], .interface [] [] true⟩,
    .const ⟨"left", "left", [], .empty⟩ (.litStr "[(\x7b\" // /*"),
    .const ⟨"right", "right", [.line " see left"], .empty⟩ (.litStr "\x60\n"),
    .func ⟨"run", "run", [], .func [] [⟨"", "", [], .named "open.Door"⟩]
      (some (.block [.ret (some (.litObj ⟨"", "", [], .named "open.Door"⟩ []))]))⟩]

theorem punctuated_delimited :
    ∃ f, punctuated.renderWith .importTable { header := some "Never \x7bclosed.\n\n\"" } = .ok f ∧
      Delimited f.source.toList ∧ ∃ cs c, f.source.toList = cs ++ [c, '\n'] ∧ c ≠ '\n' := by
  have hfile :
      punctuated.renderWith .importTable { header := some "Never \x7bclosed.\n\n\"" } = .ok _ := rfl
  have henv : Env.Avoids ⟨punctuated, .importTable, { header := some "Never \x7bclosed.\n\n\"" }⟩
      Text.delimiters :=
    Env.avoids_importTable (by decide) (by decide) (by decide)
  exact ⟨_, hfile, renderWith_delimited (by decide) henv hfile⟩

end Module

end GoScribe
