/-!
# Blanks, comments, names and texts in TOML

Readers return the text behind what they have read. Control characters stand nowhere but in line
ends; a carriage return is part of a line end only.
-/

namespace ActorLang.Toml

/-- The characters that may stand in comments and texts: tabs and all that is no control
character. -/
def isTextChar (c : Char) : Bool :=
  c == '\t' || (0x20 ≤ c.toNat && c.toNat != 0x7f)

def skipBlanks (text : List Char) : List Char :=
  text.dropWhile fun c => c == ' ' || c == '\t'

/-- A text without the blanks, line ends and comments at its head; `comment` tells whether the
head belongs to a comment. A character that fits no comment stays. -/
def skipLayout (comment : Bool) : List Char → List Char
  | [] => []
  | '\n' :: rest => skipLayout false rest
  | '\r' :: '\n' :: rest => skipLayout false rest
  | c :: rest =>
    if comment then if isTextChar c then skipLayout true rest else c :: rest
    else if c == ' ' || c == '\t' then skipLayout false rest
    else if c == '#' then skipLayout true rest
    else c :: rest

def nextLine? (text : List Char) : Option (List Char) :=
  let text := skipBlanks text
  let rest := if text.head? == some '#' then text.dropWhile isTextChar else text
  match rest with
  | [] => some []
  | '\n' :: rest => some rest
  | '\r' :: '\n' :: rest => some rest
  | _ => none

def digitValue? (base : Nat) (c : Char) : Option Nat :=
  let value :=
    if c.isDigit then some (c.toNat - '0'.toNat)
    else if 'a' ≤ c ∧ c ≤ 'f' then some (c.toNat - 'a'.toNat + 10)
    else if 'A' ≤ c ∧ c ≤ 'F' then some (c.toNat - 'A'.toNat + 10)
    else none
  value.filter (· < base)

def hexChar? (count : Nat) (text : List Char) : Option Char := do
  let digits := text.take count
  if digits.length != count then none
  let n ← digits.foldlM (fun n c => (digitValue? 16 c).map (n * 16 + ·)) 0
  if n.isValidChar then some (Char.ofNat n) else none

/-- The character that an escape stands for, and the number of characters behind the backslash
that belong to it. -/
def escape? : List Char → Option (Char × Nat)
  | 'b' :: _ => some ('\x08', 1)
  | 't' :: _ => some ('\t', 1)
  | 'n' :: _ => some ('\n', 1)
  | 'f' :: _ => some ('\x0c', 1)
  | 'r' :: _ => some ('\r', 1)
  | '"' :: _ => some ('"', 1)
  | '\\' :: _ => some ('\\', 1)
  | 'u' :: rest => (hexChar? 4 rest).map (·, 5)
  | 'U' :: rest => (hexChar? 8 rest).map (·, 9)
  | _ => none

/-- The content of a text in double quotes behind the first of them, and the text behind the last.
The first `skip` characters belong to an escape already read. -/
def basicString (skip : Nat) : List Char → Option (List Char × List Char)
  | [] => none
  | c :: rest =>
    match skip with
    | skip + 1 => basicString skip rest
    | 0 =>
      if c == '"' then some ([], rest)
      else if c == '\\' then
        match escape? rest with
        | some (d, used) => (basicString used rest).map fun (text, rest) => (d :: text, rest)
        | none => none
      else if isTextChar c then (basicString 0 rest).map fun (text, rest) => (c :: text, rest)
      else none

def literalString (text : List Char) : Option (List Char × List Char) :=
  match text.span fun c => c != '\x27' && isTextChar c with
  | (content, '\x27' :: rest) => some (content, rest)
  | _ => none

/-- The number of blanks and line ends at the head of a text, if a line end comes before anything
but blanks; a backslash before them continues the line. -/
def continuation? (text : List Char) : Option Nat :=
  let line := skipBlanks text
  match line with
  | '\n' :: _ | '\r' :: '\n' :: _ => some (text.length - (blankLines line).length)
  | _ => none
where
  /-- A text without the blanks and line ends at its head. -/
  blankLines : List Char → List Char
    | '\r' :: '\n' :: rest => blankLines rest
    | c :: rest => if c == ' ' || c == '\t' || c == '\n' then blankLines rest else c :: rest
    | [] => []

/-- The text behind the three quotes that close a text over several lines. Up to two quotes more
belong to it. With double quotes as `mark`, backslashes escape. The first `skip` characters have
been read. -/
def afterMultiline? (mark : Char) (skip : Nat) : List Char → Option (List Char)
  | [] => none
  | c :: rest =>
    match skip with
    | skip + 1 => afterMultiline? mark skip rest
    | 0 =>
      if c == mark then
        let marks := (rest.takeWhile (· == mark)).length
        if marks < 2 then afterMultiline? mark 0 rest
        else some (rest.drop (if marks < 4 then marks else 4))
      else if c == '\\' && mark == '"' then
        match continuation? rest, escape? rest with
        | some used, _ => afterMultiline? mark used rest
        | none, some (_, used) => afterMultiline? mark used rest
        | none, none => none
      else if c == '\n' || isTextChar c then afterMultiline? mark 0 rest
      else if c == '\r' && rest.head? == some '\n' then afterMultiline? mark 0 rest
      else none

def isNameChar (c : Char) : Bool :=
  c.isAlphanum || c == '_' || c == '-'

def name? (text : List Char) : Option (String × List Char) :=
  match text with
  | '"' :: rest => (basicString 0 rest).map fun (name, rest) => (String.ofList name, rest)
  | '\x27' :: rest => (literalString rest).map fun (name, rest) => (String.ofList name, rest)
  | _ =>
    let (name, rest) := text.span isNameChar
    if name.isEmpty then none else some (String.ofList name, rest)

def path? : Nat → List Char → Option (List String × List Char)
  | 0, _ => none
  | n + 1, text => do
    let (first, rest) ← name? (skipBlanks text)
    match skipBlanks rest with
    | '.' :: rest =>
      let (others, rest) ← path? n rest
      some (first :: others, rest)
    | rest => some ([first], rest)

end ActorLang.Toml
