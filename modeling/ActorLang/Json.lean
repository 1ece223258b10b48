/-!
# JSON texts

JSON values with whole numbers, whose objects keep their fields in order, and two ways to write
them: on one line, and with each item on a line of its own, two blanks deeper than its parent.
-/

namespace ActorLang

inductive Json
  | null
  | bool (b : Bool)
  | num (n : Nat)
  | str (text : String)
  | arr (items : List Json)
  | obj (fields : List (String × Json))

namespace Json

/-- A character inside a JSON string. Control characters are escaped, all others stand for
themselves. -/
def escape (c : Char) : String :=
  match c with
  | '"' => "\\\""
  | '\\' => "\\\\"
  | '\n' => "\\n"
  | '\r' => "\\r"
  | '\t' => "\\t"
  | '\x08' => "\\b"
  | '\x0c' => "\\f"
  | _ =>
    if c.toNat < 0x20 then
      "\\u00" ++ String.ofList [Nat.digitChar (c.toNat / 16), Nat.digitChar (c.toNat % 16)]
    else String.ofList [c]

def quote (text : String) : String :=
  "\"" ++ String.join (text.toList.map escape) ++ "\""

mutual

def compact : Json → String
  | null => "null"
  | bool b => if b then "true" else "false"
  | num n => toString n
  | str text => quote text
  | arr items => "[" ++ ",".intercalate (compactItems items) ++ "]"
  | obj fields => "\x7b" ++ ",".intercalate (compactFields fields) ++ "\x7d"

def compactItems : List Json → List String
  | [] => []
  | v :: rest => compact v :: compactItems rest

def compactFields : List (String × Json) → List String
  | [] => []
  | (key, v) :: rest => (quote key ++ ":" ++ compact v) :: compactFields rest

end

def margin (depth : Nat) : String :=
  String.ofList (List.replicate (2 * depth) ' ')

/-- Lines between an opening and a closing bracket at a depth; none leaves the brackets together. -/
def bracketed (first last : String) (depth : Nat) (lines : List String) : String :=
  match lines with
  | [] => first ++ last
  | _ =>
    first ++ "\n" ++ ",\n".intercalate (lines.map (margin (depth + 1) ++ ·)) ++ "\n" ++
      margin depth ++ last

mutual

def pretty (depth : Nat) : Json → String
  | null => "null"
  | bool b => if b then "true" else "false"
  | num n => toString n
  | str text => quote text
  | arr items => bracketed "[" "]" depth (prettyItems (depth + 1) items)
  | obj fields => bracketed "\x7b" "\x7d" depth (prettyFields (depth + 1) fields)

def prettyItems (depth : Nat) : List Json → List String
  | [] => []
  | v :: rest => pretty depth v :: prettyItems depth rest

def prettyFields (depth : Nat) : List (String × Json) → List String
  | [] => []
  | (key, v) :: rest => (quote key ++ ": " ++ pretty depth v) :: prettyFields depth rest

end

end Json

end ActorLang
