import ActorLang.Grammar
import ActorLang.Token.Stream

/-!
# Parsers

A parser reads a tree from the front of a token stream, or refuses the stream with an error. The
first refusal ends the parse. Loops are bounded by the number of tokens ahead, which suffices
because every round takes a token.
-/

namespace ActorLang

structure Limits where
  /-- The number of tokens on which the choice of an assignment's form may depend. -/
  lookahead : Nat := 64
  /-- The number of actors and expressions that may be nested in each other. -/
  depth : Nat := 256
deriving DecidableEq

abbrev Parser (P : Type) :=
  StateT (TokenStream P) (Except (ParseError P))

namespace Parser

variable {P α : Type}

def fail (cause : Cause) : Parser P α := fun s =>
  .error ⟨cause, s.current.pos⟩

/-- Refuses the token at the cursor where only the given classes fit. -/
def unexpected (expected : List TokenKind) : Parser P α := fun s =>
  .error (s.mismatch expected)

def peek : Parser P (Token P) := fun s =>
  .ok (s.current, s)

def nextIs (kind : TokenKind) : Parser P Bool := fun s =>
  .ok (s.current.kind == kind, s)

def aheadIs (n : Nat) (kind : TokenKind) : Parser P Bool := fun s =>
  .ok (s.kindAt n == kind, s)

/-- The number of tokens that can still be taken. -/
def remaining : Parser P Nat := fun s =>
  .ok (s.ahead.length, s)

def take : Parser P (Token P) := fun s =>
  .ok s.next

/-- Checks that the input ends here; what was read could also go on with one of `others`. -/
def expectEnd (others : List TokenKind) : Parser P Unit := do
  if ← nextIs .eof then pure () else unexpected (others ++ [.eof])

/-- Reads something that spans its input and could also go on with one of `others`. -/
def spanning (others : List TokenKind) (p : Parser P α) : Parser P α := do
  let a ← p
  expectEnd others
  pure a

def tooDeep (limit : Nat) : Parser P α :=
  fail (.nesting limit)

/-- Reads at most `n` items, as long as the class of the next token satisfies `go`. -/
def rounds (go : TokenKind → Bool) (item : Parser P α) : Nat → Parser P (List α)
  | 0 => pure []
  | n + 1 => do
    if go (← peek).kind then
      let first ← item
      let rest ← rounds go item n
      pure (first :: rest)
    else pure []

def repeated (go : TokenKind → Bool) (item : Parser P α) : Parser P (List α) :=
  remaining >>= rounds go item

/-! ## Rules over the way in which tokens are taken

A rule changes its stream only by taking the token at the cursor. Each one is therefore written over
a parser that does so, and the rule of the grammar is the one over `Parser.take`.
-/

namespace Stepwise

variable (take : Parser P (Token P))

/-- Takes a token of a class; the construct before it could also go on with one of `others`. -/
def expectOr (others : List TokenKind) (kind : TokenKind) : Parser P (Token P) := do
  if ← nextIs kind then take else unexpected (others ++ [kind])

def expect (kind : TokenKind) : Parser P (Token P) :=
  expectOr take [] kind

/-- At most `n` further items, each behind a comma. -/
def itemsAfterComma (item : Parser P α) : Nat → Parser P (List α)
  | 0 => pure []
  | n + 1 => do
    if ← nextIs .comma then
      let _ ← take
      let first ← item
      let rest ← itemsAfterComma item n
      pure (first :: rest)
    else pure []

def commaSeparated (item : Parser P α) : Parser P (List α) := do
  let first ← item
  let rest ← itemsAfterComma take item (← remaining)
  pure (first :: rest)

end Stepwise

abbrev expectOr (others : List TokenKind) (kind : TokenKind) : Parser P (Token P) :=
  Stepwise.expectOr take others kind

abbrev expect (kind : TokenKind) : Parser P (Token P) :=
  Stepwise.expect take kind

abbrev itemsAfterComma (item : Parser P α) : Nat → Parser P (List α) :=
  Stepwise.itemsAfterComma take item

abbrev commaSeparated (item : Parser P α) : Parser P (List α) :=
  Stepwise.commaSeparated take item

/-! ## Whole inputs -/

def run [Inhabited P] (p : Parser P α) (tokens : List (Token P)) : Except (ParseError P) α := do
  let stream ← TokenStream.ofTokens tokens
  let (result, _) ← p stream
  pure result

end Parser

end ActorLang
