/-!
# TOML documents

A document is a table of named values. Of the values only whole numbers, arrays and tables keep
their content; texts, floats, truth values and dates are read, but nothing asks what they are. A
table is written out once: by a header, by braces, or name by name with dotted names, and only a
table of the last sort takes further entries from elsewhere.
-/

namespace ActorLang.Toml

inductive Value
  | integer (n : Int)
  /-- A text, a float, a truth value, a date or a time. -/
  | atom
  | array (items : List Value)
  /-- A table; `dotted` tells whether dotted names have built it. -/
  | table (dotted : Bool) (entries : List (String × Value))

/-- The entries of a table, in the order in which they were written. -/
abbrev Entries := List (String × Value)

namespace Entries

def has (entries : Entries) (name : String) : Bool :=
  entries.any (·.1 == name)

def replace (entries : Entries) (name : String) (value : Value) : Entries :=
  entries.map fun entry => if entry.1 == name then (name, value) else entry

/-- The entries with one more at the end of a path of names. No name is given twice, and a path
leads only through tables that dotted names have built. -/
def insert? : List String → Value → Entries → Option Entries
  | [], _, _ => none
  | [name], value, entries =>
    if has entries name then none else some (entries ++ [(name, value)])
  | name :: path, value, entries =>
    match entries.lookup name with
    | none => (insert? path value []).map fun inner => entries ++ [(name, .table true inner)]
    | some (.table true inner) =>
      (insert? path value inner).map fun inner => replace entries name (.table true inner)
    | some _ => none

def ofPairs? (pairs : List (List String × Value)) : Option Entries :=
  pairs.foldlM (fun entries pair => insert? pair.1 pair.2 entries) []

end Entries

structure Draft where
  /-- The entries outside the table that is open. -/
  root : Entries := []
  /-- The table whose header came last, with its entries. -/
  current : Option (String × Entries) := none

namespace Draft

def entries (draft : Draft) : Entries :=
  draft.root ++ (draft.current.map fun (name, inner) => (name, Value.table false inner)).toList

def openTable? (draft : Draft) (name : String) : Option Draft :=
  if Entries.has draft.entries name then none else some ⟨draft.entries, some (name, [])⟩

/-- Sets a value in the table that is open, or outside of all before the first header. -/
def set? (draft : Draft) (path : List String) (value : Value) : Option Draft :=
  match draft.current with
  | none => (Entries.insert? path value draft.root).map fun root => ⟨root, none⟩
  | some (name, inner) =>
    (Entries.insert? path value inner).map fun inner => ⟨draft.root, some (name, inner)⟩

end Draft

end ActorLang.Toml
