import GoScribe.Proofs.Marks

/-!
# Refusals

A module is refused for one of three reasons: an interface that is written has a method that is no
function, a method of a struct definition comes without a body, or a function does.  The first one may
hide anywhere in a tree, so it is told through the rendered positions: a method is refused among the
positions of a tree exactly if an interface with such a method is among them.
-/

namespace GoScribe

/-! ## What is refused -/

namespace GoType

/-- An interface with a method that is no function. -/
def hasStrayMethod : GoType → Bool
  | interface _ methods _ => methods.any (!·.type.isFunc)
  | _ => false

/-- A struct with a method that does not come with a body. -/
def lacksMethodBody : GoType → Bool
  | struct _ _ _ methods => methods.any (·.type.implementation?.isNone)
  | _ => false

end GoType

namespace Position

/-- Rendering fails at this position. -/
def isRefused : Position → Bool
  | method _ m => !m.type.isFunc
  | methodDef _ m => m.type.implementation?.isNone
  | funcDef d => d.type.implementation?.isNone
  | _ => false

/-- An interface with a method that is no function stands at this position. -/
def isStray : Position → Bool
  | type t => t.hasStrayMethod
  | _ => false

/-! ## Refused positions of a tree -/

mutual

/-- A position of a type is refused exactly if one of them is an interface with a stray method. -/
theorem any_isRefused_type (embeds : Bool) (owner : String) : (t : GoType) →
    (t.positions embeds owner).any isRefused = (t.positions embeds owner).any isStray
  | .empty | .named _ | .unresolved _ => rfl
  | .array elem => any_isRefused_type embeds "" elem
  | .pointer target => any_isRefused_type embeds "" target
  | .interface names methods isTypeVar => by
    have hnames (p : Position → Bool) (hp : ∀ s, p (.embed s) = false) :
        (if embeds then names.map Position.embed else []).any p = false := by
      split <;> simp [hp]
    rw [GoType.positions, List.any_cons, List.any_cons, List.any_append, List.any_append,
      hnames isRefused fun _ => rfl, hnames isStray fun _ => rfl, any_isRefused_methods embeds owner methods]
    rfl
  | .struct names fields byPointer methods => any_isRefused_bindings embeds fields
  | .func params results body => by
    rw [GoType.positions, List.any_cons, List.any_cons, List.any_append, List.any_append,
      any_isRefused_bindings embeds params, any_isRefused_bindings embeds results]
    rfl

/-- The same for parameters, results or fields. -/
theorem any_isRefused_bindings (embeds : Bool) : (bs : List Binding) →
    (bindingPositions embeds bs).any isRefused = (bindingPositions embeds bs).any isStray
  | [] => rfl
  | ⟨_, sourceName, _, t⟩ :: bs => by
    rw [bindingPositions, List.any_append, List.any_append, any_isRefused_type embeds sourceName t,
      any_isRefused_bindings embeds bs]

/-- Among the methods of an interface those are refused that are no functions. -/
theorem any_isRefused_methods (embeds : Bool) (owner : String) : (bs : List Binding) →
    (methodPositions embeds owner bs).any isRefused =
      (bs.any (!·.type.isFunc) || (methodPositions embeds owner bs).any isStray)
  | [] => rfl
  | ⟨name, sourceName, comments, .func params results body⟩ :: bs => by
    simp only [methodPositions, List.any_cons, List.any_append, any_isRefused_bindings embeds params,
      any_isRefused_bindings embeds results, any_isRefused_methods embeds owner bs, isRefused, isStray,
      GoType.isFunc, Bool.not_true, Bool.false_or]
    exact Bool.or_left_comm _ _ _
  | ⟨_, _, _, .empty⟩ :: bs | ⟨_, _, _, .named _⟩ :: bs | ⟨_, _, _, .unresolved _⟩ :: bs
  | ⟨_, _, _, .array _⟩ :: bs | ⟨_, _, _, .pointer _⟩ :: bs | ⟨_, _, _, .interface ..⟩ :: bs
  | ⟨_, _, _, .struct ..⟩ :: bs => rfl

end

/-- Outside of definitions, only interfaces with a stray method are refused. -/
theorem compositional_isRefused (embeds : Bool) :
    Compositional embeds fun ps => ps.any isRefused = ps.any isStray where
  nil := rfl
  append hps hqs := by rw [List.any_append, List.any_append, hps, hqs]
  node _ := rfl
  type owner t := any_isRefused_type embeds owner t

theorem exists_isStray_iff {ps : List Position} :
    ps.any isStray ↔ ∃ t, .type t ∈ ps ∧ t.hasStrayMethod := by
  rw [List.any_eq_true]
  constructor
  · rintro ⟨p, hp, hstray⟩
    cases p with
    | type t => exact ⟨t, hp, hstray⟩
    | _ => cases hstray
  · rintro ⟨t, ht, hstray⟩
    exact ⟨.type t, ht, hstray⟩

end Position

open Position (isRefused isStray compositional_isRefused)

/-! ## Refused positions of a module -/

namespace Decl

/-- The positions of a declaration, from all parts of the file. -/
def positions (embeds : Bool) (d : Decl) : List Position :=
  d.typePositions embeds ++ d.valuePositions embeds ++ d.methodPositions embeds ++
    d.funcPositions embeds

/-- The declaration needs a body that is missing. -/
def lacksBody : Decl → Bool
  | type d => d.type.lacksMethodBody
  | func d => d.type.implementation?.isNone
  | _ => false

/-- A definition that has to come with a body is refused if it does not. -/
theorem any_isRefused_implementation (embeds : Bool) (p : Position) (type : GoType)
    (hrefused : p.isRefused = type.implementation?.isNone) (hstray : p.isStray = false) :
    (implementationPositions embeds p type).any isRefused =
      (type.implementation?.isNone || (implementationPositions embeds p type).any isStray) := by
  unfold implementationPositions
  split
  · next himpl => simp [hrefused, himpl]
  · next params results body himpl =>
    have h := compositional_isRefused embeds
    have hparts := h.append (h.append (h.bindings params) (h.bindings results)) (h.positions body)
    rw [List.any_cons, List.any_cons, hrefused, hstray, himpl, hparts]
    rfl

/-- Among the methods of a struct those are refused that come without a body. -/
theorem any_isRefused_methodDefs (embeds : Bool) (owner : String) (methods : List Binding) :
    let ps := methods.flatMap fun m => implementationPositions embeds (.methodDef owner m) m.type
    ps.any isRefused = (methods.any (·.type.implementation?.isNone) || ps.any isStray) := by
  induction methods with
  | nil => rfl
  | cons m methods ih =>
    have hm := any_isRefused_implementation embeds (.methodDef owner m) m.type rfl rfl
    simp only [List.flatMap_cons, List.any_append, List.any_cons, hm] at ih ⊢
    rw [ih]
    ac_rfl

theorem any_isRefused_methodPositions (embeds : Bool) (d : Binding) :
    ((type d).methodPositions embeds).any isRefused =
      (d.type.lacksMethodBody || ((type d).methodPositions embeds).any isStray) := by
  obtain ⟨_, sourceName, _, t⟩ := d
  cases t with
  | struct _ _ _ methods => exact any_isRefused_methodDefs embeds sourceName methods
  | _ => rfl

/-- A declaration is refused if it lacks a body or an interface with a stray method is written in it. -/
theorem any_isRefused_positions (embeds : Bool) (d : Decl) :
    (d.positions embeds).any isRefused = (d.lacksBody || (d.positions embeds).any isStray) := by
  have h := compositional_isRefused embeds
  cases d with
  | type d =>
    have htype := h.type d.sourceName d.type
    simp only [positions, typePositions, valuePositions, funcPositions, List.append_nil,
      List.any_append, htype, any_isRefused_methodPositions, lacksBody]
    exact Bool.or_left_comm _ _ _
  | const d value =>
    have hvalue := h.append (h.constType d.type) (h.positions value)
    simpa [positions, typePositions, valuePositions, methodPositions, funcPositions, lacksBody]
      using hvalue
  | var d value ok =>
    have hvalue := h.append (h.topType d.type value ok) (h.option value)
    simpa [positions, typePositions, valuePositions, methodPositions, funcPositions, lacksBody]
      using hvalue
  | func d => exact any_isRefused_implementation embeds (.funcDef d) d.type rfl rfl

end Decl

/-- The positions of a module are those of its declarations, in another order. -/
theorem Module.mem_positions {embeds : Bool} {m : Module} {p : Position} :
    p ∈ m.positions embeds ↔ ∃ d ∈ m.decls, p ∈ d.positions embeds := by
  simp only [positions, Decl.positions, List.mem_append, List.mem_flatMap]
  grind

/-- A module is refused for a declaration that lacks a body or for a stray method. -/
theorem Module.any_isRefused_positions (embeds : Bool) (m : Module) :
    (m.positions embeds).any isRefused ↔
      (m.positions embeds).any isStray ∨ ∃ d ∈ m.decls, d.lacksBody := by
  have hdecl (p : Position → Bool) : (m.positions embeds).any p ↔
      ∃ d ∈ m.decls, (d.positions embeds).any p := by
    simp only [List.any_eq_true, mem_positions]
    grind
  rw [hdecl, hdecl]
  simp only [Decl.any_isRefused_positions, Bool.or_eq_true]
  grind

/-! ## Where rendering fails -/

namespace Env

variable (env : Env)

theorem refusal?_symbol (s : Symbol) : (env.symbol s).refusal? = none := by
  unfold symbol
  split
  · rfl
  · split <;> rfl

theorem refusal?_typeName (qualifiedName : String) : (env.typeName qualifiedName).refusal? = none := by
  unfold typeName
  split
  · exact env.refusal?_symbol _
  · rfl

theorem refusal?_number (value : Double) : (env.number value).refusal? = none := by
  unfold number
  split <;> rfl

/-- A refusal is marked at the refused positions and at no other. -/
theorem isSome_refusal?_marksAt (p : Position) : (env.marksAt p).refusal?.isSome = p.isRefused := by
  cases p with
  | node n =>
    cases n with
    | litNum value => rw [marksAt, Doc.refusal?_marks, refusal?_number]; rfl
    | pkgSym pkg symbol => rw [marksAt, Doc.refusal?_marks, refusal?_symbol]; rfl
    | func signature =>
      obtain ⟨_, _, _, type⟩ := signature
      cases type with
      | func _ _ body => cases body <;> rfl
      | _ => rfl
    | _ => rfl
  | type t =>
    cases t with
    | named qualifiedName => rw [marksAt, Doc.refusal?_marks, refusal?_typeName]; rfl
    | interface names methods isTypeVar =>
      rw [marksAt]
      split <;> rfl
    | _ => rfl
  | embed qualifiedName => rw [marksAt, Doc.refusal?_marks, refusal?_typeName]; rfl
  | method owner m =>
    rw [marksAt, isRefused]
    cases m.type.isFunc <;> rfl
  | methodDef owner m =>
    rw [marksAt, isRefused]
    cases m.type.implementation? <;> rfl
  | funcDef d =>
    rw [marksAt, isRefused]
    cases d.type.implementation? <;> rfl

/-- The body is refused exactly if one of its positions is. -/
theorem isSome_refusal?_moduleBody : env.moduleBody.refusal?.isSome = env.positions.any isRefused := by
  have hat (p : Position) : (env.marksAt p).any (·.refusal?.isSome) = p.isRefused := by
    rw [← List.isSome_findSome?]
    exact env.isSome_refusal?_marksAt p
  rw [← Doc.refusal?_marks, marks_moduleBody, Doc.refusal?, List.isSome_findSome?, marksOf,
    List.any_flatMap]
  simp only [hat]

/-- Without strictness only a refusal makes rendering fail. -/
theorem file_fails_iff (h : env.options.strict = false) :
    (∃ e, env.file = .error e) ↔ env.moduleBody.refusal?.isSome := by
  unfold file
  simp only [h, Bool.false_and]
  cases env.moduleBody.refusal? <;> simp

end Env

/-- **Rendering fails for three reasons only.**  If placeholders are allowed, a module is refused exactly
if an interface with a method that is no function stands at a rendered position, a struct definition has
a method that does not come with a body, or a function does not come with one. -/
theorem Module.render_fails_iff (m : Module) (resolver : Resolver) (options : Options) :
    (∃ e, m.renderWith resolver { options with strict := false } = .error e) ↔
      (∃ t, .type t ∈ m.positions options.overlappingInterfaces ∧ t.hasStrayMethod) ∨
        (∃ d, .type d ∈ m.decls ∧ d.type.lacksMethodBody) ∨
        ∃ d, .func d ∈ m.decls ∧ d.type.implementation? = none := by
  rw [renderWith, Env.file_fails_iff _ rfl, Env.isSome_refusal?_moduleBody, Env.positions,
    any_isRefused_positions, Position.exists_isStray_iff]
  apply or_congr_right
  constructor
  · rintro ⟨d, hd, hlacks⟩
    cases d with
    | type d => exact .inl ⟨d, hd, hlacks⟩
    | func d => exact .inr ⟨d, hd, Option.isNone_iff_eq_none.mp hlacks⟩
    | _ => cases hlacks
  · rintro (⟨d, hd, hlacks⟩ | ⟨d, hd, hlacks⟩)
    · exact ⟨.type d, hd, hlacks⟩
    · exact ⟨.func d, hd, Option.isNone_iff_eq_none.mpr hlacks⟩

end GoScribe
