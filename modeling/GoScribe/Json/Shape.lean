import GoScribe.Json.Reader

/-!
# Shapes of JSON values

How the data of this library appear in JSON.  A record is an object, or an array of its fields in
order.  A choice is a string for an alternative without data, and an object with one member
otherwise.

Every object or array that is decoded counts as a level of nesting, and decoders take the number of
levels that they may still open; what is passed over does not count.
-/

namespace GoScribe

namespace Json

/-- How many levels of nesting a decoded text may have. -/
def nestingLimit : Nat := 127

/-- The values in `members` of the key `name`. -/
def valuesOf (members : List (String × Json)) (name : String) : List Json :=
  members.filterMap fun (k, v) => if k = name then some v else none

/-- The field `name` of an object: `some none` if it is missing, `none` if it is given twice. -/
def field? (members : List (String × Json)) (name : String) : Option (Option Json) :=
  match valuesOf members name with
  | [] => some none
  | [v] => some (some v)
  | _ => none

/-- The elements of an array as `count` fields, of which the last may be missing. -/
def positional? : (count : Nat) → List Json → Option (List (Option Json))
  | 0, [] => some []
  | 0, _ :: _ => none
  | n + 1, [] => (positional? n []).map (none :: ·)
  | n + 1, v :: vs => (positional? n vs).map (some v :: ·)

/-- The fields of a record with the given names; other members of an object are passed over. -/
def fields? (names : List String) : Json → Option (List (Option Json))
  | obj members => names.mapM (field? members)
  | arr elems => positional? names.length elems
  | _ => none

/-- The fields of a record with the given names, which may have no others. -/
def closedFields? (names : List String) (j : Json) : Option (List (Option Json)) :=
  match j with
  | obj members => if members.all fun (k, _) => names.contains k then fields? names j else none
  | _ => fields? names j

/-- The value is null. -/
def isNull : Json → Bool
  | null => true
  | _ => false

/-! ## Fields -/

/-- A field that has to be given. -/
def required {α : Type} (decode : Json → Option α) : Option Json → Option α
  | none => none
  | some v => decode v

/-- A field with a default. -/
def withDefault {α : Type} (default : α) (decode : Json → Option α) : Option Json → Option α
  | none => some default
  | some v => decode v

/-- A value that may be null. -/
def nullable {α : Type} (decode : Json → Option α) : Json → Option (Option α)
  | null => some none
  | v => (decode v).map some

/-- A field that may be missing or null. -/
def optionalField {α : Type} (decode : Json → Option α) : Option Json → Option (Option α) :=
  withDefault none (nullable decode)

/-! ## Leaves -/

/-- A string. -/
def asString? : Json → Option String
  | str s => some s
  | _ => none

/-- A truth value. -/
def asBool? : Json → Option Bool
  | bool b => some b
  | _ => none

/-- A signed 64-bit integer. -/
def asInt64? : Json → Option Int64
  | int i =>
    if Int64.minValue.toInt ≤ i && i ≤ Int64.maxValue.toInt then some (Int64.ofInt i) else none
  | _ => none

/-- An unsigned 64-bit integer. -/
def asUInt64? : Json → Option UInt64
  | int i => if 0 ≤ i && i.toNat < UInt64.size then some (UInt64.ofNat i.toNat) else none
  | _ => none

/-- A double; an integer is rounded to one. -/
def asDouble? : Json → Option Double
  | float d => some d
  | int i => some (if i < 0 then (Double.ofNat i.natAbs).negate else Double.ofNat i.natAbs)
  | _ => none

/-- A list, given a decoder of its elements for the levels inside it. -/
def listOf {α : Type} (decode : Json → Option α) (levels : Nat) (j : Json) : Option (List α) :=
  match levels, j with
  | _ + 1, arr elems => elems.mapM decode
  | _, _ => none

/-- An alternative without data, given as a string or as an object with a null. -/
def unitChoice? {α : Type} (ofTag : String → Option α) (levels : Nat) (j : Json) : Option α :=
  match levels, j with
  | _, str tag => ofTag tag
  | _ + 1, obj [(tag, null)] => ofTag tag
  | _, _ => none

end Json

end GoScribe
