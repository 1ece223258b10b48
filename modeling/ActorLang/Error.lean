import ActorLang.Position
import ActorLang.Token

/-!
# Parse errors

Why a text or a token sequence is refused, where, and how that is worded. The wording lives here
and nowhere else.
-/

namespace ActorLang

inductive LexicalFault
  | unclosedComment
  | unclosedString
  | unclosedEscape
  | loneBang
  | stray (c : Char)
deriving DecidableEq

def LexicalFault.message : LexicalFault → String
  | unclosedComment => "unterminated block comment"
  | unclosedString => "unterminated string literal"
  | unclosedEscape => "unterminated escape in string"
  | loneBang => "expected '=' after '!'"
  | stray c => "unexpected character '" ++ c.toString ++ "'"

/-- What no text can cause, only a token sequence made by hand or limits that are too tight. -/
inductive InternalFault
  | missingEnd
  | shortLookahead (limit : Nat)
  | unknownOperator (text : String)
  | unknownVerdict (text : String)
deriving DecidableEq

def InternalFault.message : InternalFault → String
  | missingEnd => "token stream does not end with end of input"
  | shortLookahead limit => "assignment lookahead exceeded " ++ toString limit ++ " tokens"
  | unknownOperator text => "unknown binary operator '" ++ text ++ "'"
  | unknownVerdict text => "unknown verdict '" ++ text ++ "'"

inductive Cause
  /-- The text at this place begins no token. -/
  | lexical (message : String)
  /-- The token at this place fits no rule; `expected` lists the classes that would. -/
  | unexpected (expected : List TokenKind) (found : TokenKind) (lexeme : String)
  /-- A fault that no source text can cause. -/
  | internal (message : String)
  /-- Actors or expressions are nested beyond the limit. -/
  | nesting (limit : Nat)
deriving DecidableEq

namespace Cause

def name : Cause → String
  | lexical _ => "lex"
  | unexpected .. => "syntax"
  | internal _ => "internal"
  | nesting _ => "nesting"

/-- Whether the refusal is a fault of the parser's input rather than of a source text. -/
def isInternal : Cause → Bool
  | internal _ => true
  | _ => false

/-- The classes in a row, the last one after `or`. -/
def alternatives : List TokenKind → String
  | [] => "nothing"
  | [k] => k.describe
  | [k, l] => k.describe ++ " or " ++ l.describe
  | k :: rest => k.describe ++ ", " ++ alternatives rest

/-- The class of the offending token, with its text where the class does not give it. -/
def offender (found : TokenKind) (lexeme : String) : String :=
  match found with
  | .ident | .typeName | .str => found.describe ++ " '" ++ lexeme ++ "'"
  | _ => found.describe

def message : Cause → String
  | lexical text => text
  | unexpected expected found lexeme =>
    "expected " ++ alternatives expected ++ ", found " ++ offender found lexeme
  | internal text => text
  | nesting limit => "nesting deeper than " ++ toString limit ++ " levels"

end Cause

structure ParseError (P : Type) where
  cause : Cause
  pos : P
deriving DecidableEq

namespace ParseError

def map {P Q : Type} (f : P → Q) (e : ParseError P) : ParseError Q :=
  ⟨e.cause, f e.pos⟩

def render (e : ParseError Position) : String :=
  match e.cause with
  | .lexical text => "lexical error at " ++ e.pos.render ++ ": " ++ text
  | .unexpected .. => "syntax error at " ++ e.pos.render ++ ": " ++ e.cause.message
  | .internal text => "internal parser error at " ++ e.pos.render ++ ": " ++ text
  | .nesting _ => e.cause.message ++ " at " ++ e.pos.render

end ParseError

end ActorLang
