import GoScribe.Render.Options
import GoScribe.Toml.Reader

/-!
# Rendering options in TOML

Every option has a default, and unknown keys are refused.
-/

namespace GoScribe

namespace Toml

/-- A string. -/
def asString? : Toml → Option String
  | str s => some s
  | _ => none

/-- A truth value. -/
def asBool? : Toml → Option Bool
  | bool b => some b
  | _ => none

/-- The value of a key, or a default. -/
def memberOr {α : Type} (default : α) (decode : Toml → Option α) (members : Members) (key : String) :
    Option α :=
  match members.lookup key with
  | none => some default
  | some v => decode v

/-- The element at an index, or a default. -/
def elemOr {α : Type} (default : α) (decode : Toml → Option α) (elems : List Toml) (index : Nat) :
    Option α :=
  match elems[index]? with
  | none => some default
  | some v => decode v

/-- All keys are among `names`. -/
def isClosed (names : List String) (members : Members) : Bool :=
  members.all fun (k, _) => names.contains k

end Toml

open Toml

/-- A marker: a table, or an array of its fields in order, where elements behind them mean nothing. -/
def Marker.ofToml? (v : Toml) : Option Marker := do
  let default := Options.typeVar {}
  match v with
  | .table _ members =>
    if isClosed ["package_alias", "package_path", "symbol"] members then
      return {
        packageAlias := ← memberOr default.packageAlias Toml.asString? members "package_alias"
        packagePath := ← memberOr default.packagePath Toml.asString? members "package_path"
        symbol := ← memberOr default.symbol Toml.asString? members "symbol" }
    else none
  | .arr elems =>
    return {
      packageAlias := ← elemOr default.packageAlias Toml.asString? elems 0
      packagePath := ← elemOr default.packagePath Toml.asString? elems 1
      symbol := ← elemOr default.symbol Toml.asString? elems 2 }
  | _ => none

/-- Rendering options. -/
def Options.ofToml? (members : Members) : Option Options := do
  let default : Options := {}
  if isClosed ["include_comments", "header", "overlapping_interfaces", "strict", "type_var"] members then
    return {
      includeComments := ← memberOr default.includeComments Toml.asBool? members "include_comments"
      header := ← memberOr none (fun v => (Toml.asString? v).map some) members "header"
      overlappingInterfaces :=
        ← memberOr default.overlappingInterfaces Toml.asBool? members "overlapping_interfaces"
      strict := ← memberOr default.strict Toml.asBool? members "strict"
      typeVar := ← memberOr default.typeVar Marker.ofToml? members "type_var" }
  else none

/-- The rendering options that a TOML text holds. -/
def Options.parse? (text : String) : Option Options :=
  (Toml.parse? text).bind Options.ofToml?

end GoScribe
