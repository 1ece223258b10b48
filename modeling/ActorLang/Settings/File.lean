import ActorLang.Settings
import ActorLang.Toml.Document

/-!
# Settings files

A settings file is a TOML document with the groups `parser` and `format`. A group is a table with
the names of its settings, or an array with their values in the order of the group; an array may
be shorter, and what it holds beyond the group does not count.
-/

namespace ActorLang

def Toml.Value.natural? : Toml.Value → Option Nat
  | .integer n => if 0 ≤ n then some n.toNat else none
  | _ => none

/-- The settings in a group whose settings have the given names in order. -/
def Toml.Value.settings? (names : List String) : Toml.Value → Option (List Setting)
  | .table _ entries => some (entries.map fun (name, value) => (name, value.natural?))
  | .array items => some (names.zip (items.map Toml.Value.natural?))
  | _ => none

namespace Settings

def set? (settings : Settings) (group : String × Toml.Value) : Option Settings :=
  match group.1 with
  | "parser" => do
    let limits ← Limits.ofSettings? (← group.2.settings? Limits.settingNames)
    some { settings with limits := limits }
  | "format" => do
    let layout ← Layout.ofSettings? (← group.2.settings? Layout.settingNames)
    some { settings with layout := layout }
  | _ => none

def ofText? (text : String) : Option Settings := do
  (← Toml.document? text).foldlM set? {}

/-- The settings that a settings file describes, or why it describes none. -/
def ofText (text : String) : Except String Settings :=
  match ofText? text with
  | some s => .ok s
  | none => .error "not a settings file"

end Settings

end ActorLang
