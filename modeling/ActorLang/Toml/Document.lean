import ActorLang.Toml.Scalar

/-!
# Reading TOML documents

Arrays may run over several lines and end with a comma; tables in braces may do neither. Arrays and
tables are nested, and names chained, at most `depthLimit` deep. Headers with several names and
arrays of tables are not read.
-/

namespace ActorLang.Toml

/-- How deep arrays and tables in braces may be nested, and how many names a dotted name has. -/
def depthLimit : Nat := 79

abbrev Reader := List Char → Option (Value × List Char)

/-- At most `n` items of an array up to its closing bracket, and the text behind it. -/
def items? (value : Reader) : Nat → List Char → Option (List Value × List Char)
  | 0, _ => none
  | n + 1, text =>
    match skipLayout false text with
    | ']' :: rest => some ([], rest)
    | text => do
      let (first, rest) ← value text
      match skipLayout false rest with
      | ',' :: rest =>
        let (others, rest) ← items? value n rest
        some (first :: others, rest)
      | ']' :: rest => some ([first], rest)
      | _ => none

def pair? (value : Reader) (text : List Char) :
    Option ((List String × Value) × List Char) := do
  let (path, rest) ← path? depthLimit text
  match rest with
  | '=' :: rest =>
    let (v, rest) ← value (skipBlanks rest)
    some ((path, v), skipBlanks rest)
  | _ => none

def pairs? (value : Reader) : Nat → List Char → Option (List (List String × Value) × List Char)
  | 0, _ => none
  | n + 1, text => do
    let (first, rest) ← pair? value text
    match rest with
    | ',' :: rest =>
      let (others, rest) ← pairs? value n rest
      some (first :: others, rest)
    | '\x7d' :: rest => some ([first], rest)
    | _ => none

def array? (value : Reader) (text : List Char) : Option (Value × List Char) :=
  (items? value text.length text).map fun (items, rest) => (.array items, rest)

def table? (value : Reader) (text : List Char) : Option (Value × List Char) :=
  match skipBlanks text with
  | '\x7d' :: rest => some (.table false [], rest)
  | _ => do
    let (pairs, rest) ← pairs? value text.length text
    some (.table false (← Entries.ofPairs? pairs), rest)

/-- A value in which arrays and tables are nested at most `room` deep, and the text behind it. -/
def value? : (room : Nat) → List Char → Option (Value × List Char)
  | 0, text => scalar? text
  | room + 1, text =>
    match text with
    | '[' :: rest => array? (value? room) rest
    | '\x7b' :: rest => table? (value? room) rest
    | _ => scalar? text

/-- The draft with what at most `n` lines or entries describe. -/
def readFrom? : Nat → Draft → List Char → Option Draft
  | _, draft, [] => some draft
  | 0, _, _ => none
  | n + 1, draft, text =>
    match nextLine? text, skipBlanks text with
    | some rest, _ => readFrom? n draft rest
    | none, '[' :: rest => do
      let (name, rest) ← name? (skipBlanks rest)
      match skipBlanks rest with
      | ']' :: rest => readFrom? n (← draft.openTable? name) (← nextLine? rest)
      | _ => none
    | none, text => do
      let ((path, v), rest) ← pair? (value? depthLimit) text
      readFrom? n (← draft.set? path v) (← nextLine? rest)

def withoutMark : List Char → List Char
  | '\ufeff' :: rest => rest
  | text => text

def document? (source : String) : Option Entries :=
  let text := withoutMark source.toList
  (readFrom? text.length {} text).map Draft.entries

end ActorLang.Toml
