/-!
# Tokens

The terminal classes of the language, in the order in which expectations are listed, and tokens:
a class, the text it was read from, and a place of any type.
-/

namespace ActorLang

/-- The terminal classes. Keywords that contain punctuation, such as `print(`, are one token. -/
inductive TokenKind
  | func
  | ret
  | print
  | execute
  | actorFactory
  | artifactFactory
  | sequence
  | ite
  | iterate
  | parallel
  | joiner
  | copy
  | rename
  | testSpecToSpec
  | specToTestSpec
  | identity
  | not
  | instanceOf
  | elementOf
  | lparen
  | rparen
  | lbrace
  | rbrace
  | comma
  | assign
  | colon
  | delimiter
  | quote
  | verdict
  | binOp
  | ident
  | str
  | typeName
  | eof
deriving DecidableEq, Inhabited

namespace TokenKind

def all : List TokenKind :=
  [func, ret, print, execute, actorFactory, artifactFactory, sequence, ite, iterate, parallel,
    joiner, copy, rename, testSpecToSpec, specToTestSpec, identity, not, instanceOf, elementOf,
    lparen, rparen, lbrace, rbrace, comma, assign, colon, delimiter, quote, verdict, binOp, ident,
    str, typeName, eof]

theorem mem_all (k : TokenKind) : k ∈ all := by
  cases k <;> decide

def rank (k : TokenKind) : Nat :=
  all.idxOf k

/-- The members of a collection of classes in listing order, each once. -/
def listed (ks : List TokenKind) : List TokenKind :=
  all.filter (ks.contains ·)

theorem mem_listed {k : TokenKind} {ks : List TokenKind} : k ∈ listed ks ↔ k ∈ ks := by
  simp [listed, mem_all]

def tag : TokenKind → String
  | func => "FUN"
  | ret => "RETURN"
  | print => "PRINT"
  | execute => "EXECUTE"
  | actorFactory => "ACTOR_FACTORY"
  | artifactFactory => "ARTIFACT_FACTORY"
  | sequence => "SEQUENCE"
  | ite => "ITE"
  | iterate => "REPEAT"
  | parallel => "PARALLEL"
  | joiner => "JOINER"
  | copy => "COPY"
  | rename => "RENAME"
  | testSpecToSpec => "TEST_SPEC_TO_SPEC"
  | specToTestSpec => "SPEC_TO_TEST_SPEC"
  | identity => "IDENTITY"
  | not => "NOT"
  | instanceOf => "INSTANCEOF"
  | elementOf => "ELEMENTOF"
  | lparen => "LPAREN"
  | rparen => "RPAREN"
  | lbrace => "LBRACE"
  | rbrace => "RBRACE"
  | comma => "COMMA"
  | assign => "ASSIGN"
  | colon => "COLON"
  | delimiter => "DELIMITER"
  | quote => "QUOTE"
  | verdict => "VERDICT"
  | binOp => "BIN_OP"
  | ident => "ID"
  | str => "STRING"
  | typeName => "TYPE_NAME"
  | eof => "EOF"

def ofTag? (name : String) : Option TokenKind :=
  all.find? (·.tag = name)

theorem ofTag?_tag (k : TokenKind) : ofTag? k.tag = some k := by
  cases k <;> decide

def describe : TokenKind → String
  | func => "'fun'"
  | ret => "'return'"
  | print => "'print('"
  | execute => "'execute('"
  | actorFactory => "'ActorFactory.create('"
  | artifactFactory => "'ArtifactFactory.create('"
  | sequence => "'SEQUENCE'"
  | ite => "'ITE'"
  | iterate => "'REPEAT'"
  | parallel => "'PARALLEL'"
  | joiner => "'Joiner'"
  | copy => "'Copy'"
  | rename => "'Rename'"
  | testSpecToSpec => "'TestSpecToSpec()'"
  | specToTestSpec => "'SpecToTestSpec()'"
  | identity => "'Identity'"
  | not => "'NOT'"
  | instanceOf => "'INSTANCEOF'"
  | elementOf => "'ELEMENTOF'"
  | lparen => "'('"
  | rparen => "')'"
  | lbrace => "'\x7b'"
  | rbrace => "'\x7d'"
  | comma => "','"
  | assign => "'='"
  | colon => "':'"
  | delimiter => "';'"
  | quote => "quote (')"
  | verdict => "verdict"
  | binOp => "binary operator"
  | ident => "identifier"
  | str => "string literal"
  | typeName => "type name"
  | eof => "end of input"

/-- The class that closes what a token of this class opens. -/
def closer : TokenKind → Option TokenKind
  | lparen | print | execute | actorFactory | artifactFactory => some rparen
  | lbrace => some rbrace
  | _ => none

end TokenKind

structure Token (P : Type) where
  kind : TokenKind
  text : String
  pos : P
deriving DecidableEq

def Token.map {P Q : Type} (f : P → Q) (t : Token P) : Token Q :=
  ⟨t.kind, t.text, f t.pos⟩

end ActorLang
