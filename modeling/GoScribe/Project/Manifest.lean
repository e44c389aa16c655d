import GoScribe.Json.Shape

/-!
# Manifests

The file that names a package and the packages it depends on.
-/

namespace GoScribe

/-- A map from texts to texts, its keys in ascending order. -/
abbrev TextMap := List (String × String)

/-- The map with `value` at `key`. -/
def TextMap.insert (key value : String) : TextMap → TextMap
  | [] => [(key, value)]
  | (k, v) :: rest =>
    if key < k then (key, value) :: (k, v) :: rest
    else if key = k then (key, value) :: rest
    else (k, v) :: TextMap.insert key value rest

/-- The map of pairs, where the last pair of a key counts. -/
def TextMap.ofPairs (pairs : List (String × String)) : TextMap :=
  pairs.foldl (fun m (k, v) => m.insert k v) []

/-- What a manifest says about its package. -/
structure Manifest where
  name : String
  version : Option String
  dependencies : TextMap
  devDependencies : TextMap
deriving DecidableEq, Repr

open Json

/-- A map from texts to texts. -/
def TextMap.ofJson? : (levels : Nat) → Json → Option TextMap
  | _ + 1, .obj members => do
    return TextMap.ofPairs (← members.mapM fun (k, v) => (asString? v).map (k, ·))
  | _, _ => none

/-- A manifest.  Every field has a default, and others are passed over. -/
def Manifest.ofJson? : (levels : Nat) → Json → Option Manifest
  | 0, _ => none
  | n + 1, v => do
    match ← fields? ["name", "version", "dependencies", "devDependencies"] v with
    | [name, version, dependencies, devDependencies] =>
      return {
        name := ← withDefault "" asString? name
        version := ← optionalField asString? version
        dependencies := ← withDefault [] (TextMap.ofJson? n) dependencies
        devDependencies := ← withDefault [] (TextMap.ofJson? n) devDependencies }
    | _ => none

/-- The manifest that a text holds. -/
def Manifest.parse? (text : String) : Option Manifest :=
  (Json.parse? text).bind (Manifest.ofJson? nestingLimit)

end GoScribe
