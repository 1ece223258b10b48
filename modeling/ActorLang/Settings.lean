import ActorLang.Parser.Basic
import ActorLang.Tree.Printer

/-!
# Settings

The limits of the parser and the layout of the printer can be set by name. A group of settings is
a list of names with values; a name that the group does not have, or a value that is not a whole
number of 64 bits, refuses the group.
-/

namespace ActorLang

/-- A name with the value given for it, if that is a whole number. -/
abbrev Setting := String × Option Nat

def settingValue? (value : Option Nat) : Option Nat :=
  value.filter (· < UInt64.size)

def Limits.set? (limits : Limits) (setting : Setting) : Option Limits := do
  let n ← settingValue? setting.2
  match setting.1 with
  | "max_lookahead" => some { limits with lookahead := n }
  | "max_depth" => some { limits with depth := n }
  | _ => none

def Limits.settingNames : List String :=
  ["max_lookahead", "max_depth"]

/-- The limits that a group of settings describes; those not named keep their defaults. -/
def Limits.ofSettings? (group : List Setting) : Option Limits :=
  group.foldlM Limits.set? {}

def Layout.set? (layout : Layout) (setting : Setting) : Option Layout := do
  let n ← settingValue? setting.2
  match setting.1 with
  | "indent" => some { layout with indent := n }
  | _ => none

def Layout.settingNames : List String :=
  ["indent"]

def Layout.ofSettings? (group : List Setting) : Option Layout :=
  group.foldlM Layout.set? {}

structure Settings where
  limits : Limits := {}
  layout : Layout := {}
deriving DecidableEq

end ActorLang
