import ActorLang.Error

/-!
# From text to tokens

A source text is a row of pieces: blanks, comments and lexemes. `pieceAt` reads the piece at the
head of a text; `scan` lays the pieces end to end, gives each lexeme its place, and closes the row
with an end-of-input token. White space and comments only separate lexemes.
-/

namespace ActorLang

namespace Lexer

/-- The characters with the Unicode property White_Space. -/
def isBlank (c : Char) : Bool :=
  let n := c.toNat
  (9 ≤ n && n ≤ 13) || n == 0x20 || n == 0x85 || n == 0xa0 || n == 0x1680 ||
    (0x2000 ≤ n && n ≤ 0x200a) || n == 0x2028 || n == 0x2029 || n == 0x202f || n == 0x205f ||
    n == 0x3000

def isWordStart (c : Char) : Bool :=
  c.isAlpha || c == '_'

def isWordChar (c : Char) : Bool :=
  c.isAlphanum || c == '_'

def punctuatedKeywords : List (String × TokenKind) :=
  [("ActorFactory.create(", .actorFactory), ("ArtifactFactory.create(", .artifactFactory),
    ("TestSpecToSpec()", .testSpecToSpec), ("SpecToTestSpec()", .specToTestSpec),
    ("execute(", .execute), ("print(", .print)]

def wordKind (word : String) : TokenKind :=
  match word with
  | "fun" => .func
  | "return" => .ret
  | "SEQUENCE" => .sequence
  | "ITE" => .ite
  | "REPEAT" => .iterate
  | "PARALLEL" => .parallel
  | "Joiner" => .joiner
  | "Copy" => .copy
  | "Rename" => .rename
  | "Identity" => .identity
  | "NOT" => .not
  | "INSTANCEOF" => .instanceOf
  | "ELEMENTOF" => .elementOf
  | "TRUE" | "FALSE" | "UNKNOWN" | "ERROR" => .verdict
  | "AND" | "OR" => .binOp
  | _ => if word.toList.head?.any Char.isUpper then .typeName else .ident

def punctuationKind? (c : Char) : Option TokenKind :=
  match c with
  | '(' => some .lparen
  | ')' => some .rparen
  | '\x7b' => some .lbrace
  | '\x7d' => some .rbrace
  | ',' => some .comma
  | ':' => some .colon
  | ';' => some .delimiter
  | '\x27' => some .quote
  | _ => none

/-- A nonempty stretch of text, with a class if it is a lexeme. -/
structure Piece where
  kind : Option TokenKind
  text : List Char
deriving DecidableEq

def commentBody? : List Char → Option (List Char)
  | '*' :: '/' :: _ => some ['*', '/']
  | c :: rest => (commentBody? rest).map (c :: ·)
  | [] => none

/-- A string literal behind its opening quote, up to and including the closing quote. A backslash
takes the character behind it along, whichever it is. -/
def stringBody : List Char → Except LexicalFault (List Char)
  | [] => .error .unclosedString
  | ['\\'] => .error .unclosedEscape
  | '\\' :: c :: rest => (stringBody rest).map ('\\' :: c :: ·)
  | c :: rest =>
    if c = '"' then .ok ['"']
    else if c = '\n' then .error .unclosedString
    else (stringBody rest).map (c :: ·)

/-- The word at the head of a text, or the punctuated keyword that begins with it and is longer. -/
def wordPiece (text : List Char) : Piece :=
  let word := text.takeWhile isWordChar
  match punctuatedKeywords.find? fun (keyword, _) =>
      word.length < keyword.toList.length && keyword.toList.isPrefixOf text with
  | some (keyword, kind) => ⟨some kind, keyword.toList⟩
  | none => ⟨some (wordKind (String.ofList word)), word⟩

def pieceAt (c : Char) (rest : List Char) : Except LexicalFault Piece :=
  if isBlank c then .ok ⟨none, [c]⟩
  else if isWordStart c then .ok (wordPiece (c :: rest))
  else if c.isDigit then .ok ⟨some .str, c :: rest.takeWhile Char.isDigit⟩
  else
    match c, rest with
    | '/', '/' :: text => .ok ⟨none, '/' :: '/' :: text.takeWhile (· != '\n')⟩
    | '/', '*' :: text =>
      match commentBody? text with
      | some body => .ok ⟨none, '/' :: '*' :: body⟩
      | none => .error .unclosedComment
    | '"', text => (stringBody text).map fun body => ⟨some .str, '"' :: body⟩
    | '=', '=' :: _ => .ok ⟨some .binOp, ['=', '=']⟩
    | '=', _ => .ok ⟨some .assign, ['=']⟩
    | '!', '=' :: _ => .ok ⟨some .binOp, ['!', '=']⟩
    | '!', _ => .error .loneBang
    | _, _ =>
      match punctuationKind? c with
      | some kind => .ok ⟨some kind, [c]⟩
      | none => .error (.stray c)

/-- The tokens of a text that begins at `pos`, of which the first `skip` characters belong to a
piece already read. -/
def scan (skip : Nat) (pos : Position) :
    List Char → Except (ParseError Position) (List (Token Position))
  | [] => .ok [⟨.eof, "", pos⟩]
  | c :: rest =>
    match skip with
    | skip + 1 => scan skip (pos.step c) rest
    | 0 =>
      match pieceAt c rest with
      | .error fault => .error ⟨.lexical fault.message, pos⟩
      | .ok piece =>
        match piece.kind with
        | none => scan (piece.text.length - 1) (pos.step c) rest
        | some kind =>
          (scan (piece.text.length - 1) (pos.step c) rest).map
            (⟨kind, String.ofList piece.text, pos⟩ :: ·)

end Lexer

def tokenize (source : String) : Except (ParseError Position) (List (Token Position)) :=
  Lexer.scan 0 .start source.toList

end ActorLang
