import GoScribe.Json.Encode
import GoScribe.Json.Shape
import Mathlib.Data.List.Forall2
import Mathlib.Data.List.Nodup

/-!
# What a JSON document says

One content can be written as a document in several ways: a record as an object with its members in any
order and others between them, or as an array of its fields; and a field that holds its default may be
left out, in an array only at the end.  `Content` is what is said, `Content.toJson` writes it in full, and
`Content.WrittenAs` gives all the ways to write it.

Main statement: `Content.WrittenAs.fields`, by which a reader of records finds every field, however the
record is written.
-/

namespace GoScribe

namespace Json

/-! ## Nesting -/

mutual

/-- How many levels of objects and arrays there are in a value. -/
def nesting : Json → Nat
  | arr elems => elemsNesting elems + 1
  | obj members => membersNesting members + 1
  | _ => 0

/-- The nesting of the elements of an array. -/
def elemsNesting : List Json → Nat
  | [] => 0
  | j :: js => max j.nesting (elemsNesting js)

/-- The nesting of the members of an object. -/
def membersNesting : List (String × Json) → Nat
  | [] => 0
  | (_, j) :: ms => max j.nesting (membersNesting ms)

end

/-! ## Contents -/

mutual

/-- What a document says. -/
inductive Content where
  /-- A value that is written in one way only. -/
  | scalar (value : Json)
  | list (elems : List Content)
  /-- An alternative with data. -/
  | choice (tag : String) (data : Content)
  | record (fields : List Field)

/-- A field of a record. -/
structure Field where
  name : String
  /-- The field has a default, and this is it. -/
  holdsDefault : Bool
  content : Content

end

namespace Content

mutual

/-- The document that leaves nothing out. -/
def toJson : Content → Json
  | scalar value => value
  | list elems => arr (toJsons elems)
  | choice tag data => tagged tag data.toJson
  | record fields => obj (toMembers fields)

/-- The documents of several contents. -/
def toJsons : List Content → List Json
  | [] => []
  | c :: cs => c.toJson :: toJsons cs

/-- The members of a record. -/
def toMembers : List Field → List (String × Json)
  | [] => []
  | ⟨name, _, content⟩ :: fs => (name, content.toJson) :: toMembers fs

end

mutual

/-- A document says this content. -/
inductive WrittenAs : Content → Json → Prop where
  | scalar (value : Json) : WrittenAs (.scalar value) value
  | list {elems : List Content} {js : List Json} : AllWrittenAs elems js →
      WrittenAs (.list elems) (.arr js)
  | choice {tag : String} {data : Content} {j : Json} : WrittenAs data j →
      WrittenAs (.choice tag data) (.obj [(tag, j)])
  /-- The fields in order, where those at the end may be left out. -/
  | positional {fields : List Field} {js : List Json} : FirstWrittenAs fields js →
      WrittenAs (.record fields) (.arr js)
  /-- The fields by their names, in any order and among other members. -/
  | named {fields : List Field} {known unknown members : List (String × Json)} :
      SomeWrittenAs fields known → (∀ m ∈ unknown, m.1 ∉ fields.map Field.name) →
      members.Perm (known ++ unknown) → WrittenAs (.record fields) (.obj members)

/-- Documents say these contents, one by one. -/
inductive AllWrittenAs : List Content → List Json → Prop where
  | nil : AllWrittenAs [] []
  | cons {c : Content} {cs : List Content} {j : Json} {js : List Json} : WrittenAs c j →
      AllWrittenAs cs js → AllWrittenAs (c :: cs) (j :: js)

/-- Documents say the first of these fields, and the rest hold their defaults. -/
inductive FirstWrittenAs : List Field → List Json → Prop where
  | rest {fields : List Field} : (∀ f ∈ fields, f.holdsDefault) → FirstWrittenAs fields []
  | cons {f : Field} {fs : List Field} {j : Json} {js : List Json} : WrittenAs f.content j →
      FirstWrittenAs fs js → FirstWrittenAs (f :: fs) (j :: js)

/-- Members say some of these fields, and the others hold their defaults. -/
inductive SomeWrittenAs : List Field → List (String × Json) → Prop where
  | nil : SomeWrittenAs [] []
  | skip {f : Field} {fs : List Field} {ms : List (String × Json)} : f.holdsDefault →
      SomeWrittenAs fs ms → SomeWrittenAs (f :: fs) ms
  | cons {f : Field} {fs : List Field} {j : Json} {ms : List (String × Json)} :
      WrittenAs f.content j → SomeWrittenAs fs ms → SomeWrittenAs (f :: fs) ((f.name, j) :: ms)

end

/-! ## The full document is one of them -/

mutual

theorem writtenAs_toJson : (c : Content) → c.WrittenAs c.toJson
  | .scalar value => .scalar value
  | .list elems => .list (allWrittenAs_toJsons elems)
  | .choice _ data => .choice (writtenAs_toJson data)
  | .record fields => by
    have hperm : (toMembers fields).Perm (toMembers fields ++ []) := by rw [List.append_nil]
    exact .named (someWrittenAs_toMembers fields) (by simp) hperm

theorem allWrittenAs_toJsons : (cs : List Content) → AllWrittenAs cs (toJsons cs)
  | [] => .nil
  | c :: cs => .cons (writtenAs_toJson c) (allWrittenAs_toJsons cs)

theorem someWrittenAs_toMembers : (fs : List Field) → SomeWrittenAs fs (toMembers fs)
  | [] => .nil
  | ⟨_, _, content⟩ :: fs => .cons (writtenAs_toJson content) (someWrittenAs_toMembers fs)

end

/-! ## Nesting of the parts -/

theorem nesting_choice {tag : String} {data : Content} {n : Nat}
    (h : (choice tag data).toJson.nesting ≤ n) : ∃ k, n = k + 1 ∧ data.toJson.nesting ≤ k := by
  simp only [toJson, tagged, nesting, membersNesting] at h
  exact ⟨n - 1, by omega, by omega⟩

theorem nesting_le_elemsNesting {c : Content} {cs : List Content} (hc : c ∈ cs) :
    c.toJson.nesting ≤ elemsNesting (toJsons cs) := by
  induction cs with
  | nil => cases hc
  | cons d cs ih =>
    rw [toJsons, elemsNesting]
    rcases List.mem_cons.mp hc with rfl | hc
    · exact Nat.le_max_left _ _
    · exact Nat.le_trans (ih hc) (Nat.le_max_right _ _)

theorem nesting_list {elems : List Content} {n : Nat} (h : (list elems).toJson.nesting ≤ n) :
    ∃ k, n = k + 1 ∧ ∀ c ∈ elems, c.toJson.nesting ≤ k := by
  simp only [toJson, nesting] at h
  refine ⟨n - 1, by omega, ?_⟩
  intro c hc
  have := nesting_le_elemsNesting hc
  omega

theorem nesting_le_membersNesting {f : Field} {fs : List Field} (hf : f ∈ fs) :
    f.content.toJson.nesting ≤ membersNesting (toMembers fs) := by
  induction fs with
  | nil => cases hf
  | cons g fs ih =>
    obtain ⟨name, holdsDefault, content⟩ := g
    rw [toMembers, membersNesting]
    rcases List.mem_cons.mp hf with rfl | hf
    · exact Nat.le_max_left _ _
    · exact Nat.le_trans (ih hf) (Nat.le_max_right _ _)

theorem nesting_record {fields : List Field} {n : Nat} (h : (record fields).toJson.nesting ≤ n) :
    ∃ k, n = k + 1 ∧ ∀ f ∈ fields, f.content.toJson.nesting ≤ k := by
  simp only [toJson, nesting] at h
  refine ⟨n - 1, by omega, ?_⟩
  intro f hf
  have := nesting_le_membersNesting hf
  omega

theorem nesting_choiceRecord {tag : String} {fields : List Field} {n : Nat}
    (h : (choice tag (record fields)).toJson.nesting ≤ n) :
    ∃ k, n = k + 2 ∧ ∀ f ∈ fields, f.content.toJson.nesting ≤ k := by
  obtain ⟨m, rfl, hm⟩ := nesting_choice h
  obtain ⟨k, rfl, hk⟩ := nesting_record hm
  exact ⟨k, rfl, hk⟩

end Content

/-! ## Finding the fields of a record -/

/-- What is found of a field: a document that says it, or nothing if it holds its default. -/
def Field.FoundAs (f : Field) : Option Json → Prop
  | some j => f.content.WrittenAs j
  | none => f.holdsDefault

theorem valuesOf_eq_nil {members : List (String × Json)} {name : String}
    (h : name ∉ members.map Prod.fst) : valuesOf members name = [] := by
  rw [valuesOf, List.filterMap_eq_nil_iff]
  rintro ⟨key, j⟩ hm
  refine if_neg ?_
  rintro rfl
  exact h (List.mem_map_of_mem hm)

theorem valuesOf_cons_self (name : String) (j : Json) (members : List (String × Json)) :
    valuesOf ((name, j) :: members) name = j :: valuesOf members name := by
  simp [valuesOf]

theorem valuesOf_cons_ne {key name : String} (h : key ≠ name) (j : Json)
    (members : List (String × Json)) :
    valuesOf ((key, j) :: members) name = valuesOf members name := by
  simp [valuesOf, h]

theorem valuesOf_append (ms ns : List (String × Json)) (name : String) :
    valuesOf (ms ++ ns) name = valuesOf ms name ++ valuesOf ns name :=
  List.filterMap_append

/-- A field is found if there is one value of its name at most, wherever it stands. -/
theorem field?_of_perm {members ms : List (String × Json)} {name : String} {v : Option Json}
    (hperm : members.Perm ms) (h : valuesOf ms name = v.toList) : field? members name = some v := by
  have hvalues : (valuesOf members name).Perm v.toList := h ▸ hperm.filterMap _
  unfold field?
  cases v with
  | none => rw [List.perm_nil.mp hvalues]
  | some j => rw [List.perm_singleton.mp hvalues]

namespace Content

theorem FirstWrittenAs.positional? {fields : List Field} {js : List Json}
    (h : FirstWrittenAs fields js) :
    ∃ vs, Json.positional? fields.length js = some vs ∧ List.Forall₂ Field.FoundAs fields vs := by
  induction fields generalizing js with
  | nil =>
    cases h
    exact ⟨[], rfl, .nil⟩
  | cons f fs ih =>
    cases h with
    | rest hdefault =>
      rw [List.forall_mem_cons] at hdefault
      obtain ⟨vs, hvs, hfound⟩ := ih (.rest hdefault.2)
      exact ⟨none :: vs, congrArg (Option.map _) hvs, .cons hdefault.1 hfound⟩
    | cons hj hjs =>
      obtain ⟨vs, hvs, hfound⟩ := ih hjs
      exact ⟨some _ :: vs, congrArg (Option.map _) hvs, .cons hj hfound⟩

theorem SomeWrittenAs.names_subset {fields : List Field} {members : List (String × Json)}
    (h : SomeWrittenAs fields members) : members.map Prod.fst ⊆ fields.map Field.name := by
  induction fields generalizing members with
  | nil =>
    cases h
    exact List.Subset.refl _
  | cons f fs ih =>
    cases h with
    | skip _ hms => exact List.Subset.trans (ih hms) (List.subset_cons_self _ _)
    | cons _ hms => exact List.cons_subset_cons _ (ih hms)

/-- Each field has one value among the members, or holds its default and has none. -/
theorem SomeWrittenAs.foundAs {fields : List Field} {members : List (String × Json)}
    (hnames : (fields.map Field.name).Nodup) (h : SomeWrittenAs fields members) {f : Field}
    (hf : f ∈ fields) : ∃ v, f.FoundAs v ∧ valuesOf members f.name = v.toList := by
  induction fields generalizing members with
  | nil => cases hf
  | cons g gs ih =>
    rw [List.map_cons, List.nodup_cons] at hnames
    have hnone {ms : List (String × Json)} (hms : SomeWrittenAs gs ms) : valuesOf ms g.name = [] :=
      valuesOf_eq_nil fun hmem => hnames.1 (hms.names_subset hmem)
    cases h with
    | skip hdefault hms =>
      rcases List.mem_cons.mp hf with rfl | hf
      · exact ⟨none, hdefault, hnone hms⟩
      · exact ih hnames.2 hms hf
    | @cons _ _ j ms hj hms =>
      rcases List.mem_cons.mp hf with rfl | hf
      · refine ⟨some j, hj, ?_⟩
        rw [valuesOf_cons_self, hnone hms]
        rfl
      · have hne : g.name ≠ f.name := fun heq => hnames.1 (heq ▸ List.mem_map_of_mem hf)
        rw [valuesOf_cons_ne hne]
        exact ih hnames.2 hms hf

/-- However a record is written, all its fields are found. -/
theorem WrittenAs.fields {fields : List Field} {j : Json} (h : (record fields).WrittenAs j)
    (hnames : (fields.map Field.name).Nodup) :
    ∃ vs, fields? (fields.map Field.name) j = some vs ∧ List.Forall₂ Field.FoundAs fields vs := by
  cases h with
  | positional hjs =>
    rw [fields?, List.length_map]
    exact hjs.positional?
  | @named _ known unknown members hknown hunknown hperm =>
    have hfound (f : Field) (hf : f ∈ fields) :
        ∃ v, f.FoundAs v ∧ field? members f.name = some v := by
      obtain ⟨v, hv, hvalues⟩ := hknown.foundAs hnames hf
      refine ⟨v, hv, field?_of_perm hperm ?_⟩
      have hnone : valuesOf unknown f.name = [] := by
        apply valuesOf_eq_nil
        intro hmem
        obtain ⟨m, hm, hname⟩ := List.mem_map.mp hmem
        exact hunknown m hm (hname ▸ List.mem_map_of_mem hf)
      rw [valuesOf_append, hvalues, hnone, List.append_nil]
    rw [fields?]
    clear hknown hunknown hperm hnames
    induction fields with
    | nil => exact ⟨[], rfl, .nil⟩
    | cons f fs ih =>
      rw [List.forall_mem_cons] at hfound
      obtain ⟨v, hv, hfield⟩ := hfound.1
      obtain ⟨vs, hvs, hall⟩ := ih hfound.2
      refine ⟨v :: vs, ?_, .cons hv hall⟩
      rw [List.map_cons, List.mapM_cons, hfield, hvs]
      rfl

/-! ## Readers -/

/-- A reader takes every document that says the content for the value. -/
def ReadBy {α : Type} (c : Content) (decode : Json → Option α) (a : α) : Prop :=
  ∀ j, c.WrittenAs j → decode j = some a

section

variable {α β : Type} {decode : Json → Option α} {a : α}

theorem readBy_scalar {value : Json} (h : decode value = some a) : (scalar value).ReadBy decode a := by
  rintro j ⟨⟩
  exact h

theorem readBy_null : (scalar null).ReadBy (nullable decode) none :=
  readBy_scalar rfl

/-- A value that is not null is read as if it had to be given. -/
theorem ReadBy.nullable {c : Content} (h : c.ReadBy decode a) (hnull : decode null = none) :
    c.ReadBy (Json.nullable decode) (some a) := by
  intro j hj
  have hread := h j hj
  unfold Json.nullable
  split
  · rw [hnull] at hread
    cases hread
  · rw [hread]
    rfl

/-- The elements of a list are read one by one. -/
theorem AllWrittenAs.mapM {cs : List Content} {js : List Json} {as : List α}
    (h : AllWrittenAs cs js) (hread : List.Forall₂ (fun c a => c.ReadBy decode a) cs as) :
    js.mapM decode = some as := by
  induction hread generalizing js with
  | nil =>
    cases h
    rfl
  | cons hc _ ih =>
    cases h with
    | cons hj hjs =>
      rw [List.mapM_cons, hc _ hj, ih hjs]
      rfl

variable {f : Field} {v : Option Json}

/-- A field without a default is given. -/
theorem ReadBy.required (h : f.content.ReadBy decode a) (hf : f.holdsDefault = false)
    (hv : f.FoundAs v) : Json.required decode v = some a := by
  cases v with
  | none => exact absurd hv (by simp [Field.FoundAs, hf])
  | some j => exact h j hv

/-- A field that is left out holds its default. -/
theorem ReadBy.withDefault {default : α} (h : f.content.ReadBy decode a)
    (hf : f.holdsDefault → a = default) (hv : f.FoundAs v) :
    Json.withDefault default decode v = some a := by
  cases v with
  | none => rw [hf hv, Json.withDefault]
  | some j => exact h j hv

/-- What is read first is what the rest of a reader goes on with. -/
theorem andThen {o : Option α} {next : α → Option β} {b : β} (h : o = some a)
    (hnext : next a = some b) : (o >>= next) = some b := by
  rw [h]
  exact hnext

end

end Content

end Json

end GoScribe
