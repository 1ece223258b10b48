import ActorLang.Error

/-!
# Token streams

What a parser sees: the tokens still ahead, and behind them an end-of-input token that is never
taken. The stream also remembers the delimiters that were opened and not yet closed, because they
are among the classes expected at the end of the input.
-/

namespace ActorLang

structure TokenStream (P : Type) where
  /-- The tokens that can be taken, nearest first. -/
  ahead : List (Token P)
  /-- The token seen when nothing is ahead. -/
  final : Token P
  /-- The closers of the delimiters that are still open, innermost first. -/
  unclosed : List TokenKind
  final_kind : final.kind = .eof

namespace TokenStream

variable {P : Type}

/-- A sequence of tokens as a stream; it must end with an end-of-input token. -/
def ofTokens [Inhabited P] (tokens : List (Token P)) : Except (ParseError P) (TokenStream P) :=
  match tokens.getLast? with
  | none => .error ⟨.internal InternalFault.missingEnd.message, default⟩
  | some last =>
    if h : last.kind = .eof then .ok ⟨tokens.dropLast, last, [], h⟩
    else .error ⟨.internal InternalFault.missingEnd.message, last.pos⟩

def map {Q : Type} (f : P → Q) (s : TokenStream P) : TokenStream Q :=
  ⟨s.ahead.map (Token.map f), s.final.map f, s.unclosed, s.final_kind⟩

def current (s : TokenStream P) : Token P :=
  s.ahead.headD s.final

def kindAt (s : TokenStream P) (n : Nat) : TokenKind :=
  ((s.ahead.drop n).headD s.final).kind

def openAfter (kind : TokenKind) (unclosed : List TokenKind) : List TokenKind :=
  match kind with
  | .rparen | .rbrace => unclosed.tail
  | _ => kind.closer.toList ++ unclosed

/-- Takes the token at the cursor. At the final token the cursor stays. -/
def next (s : TokenStream P) : Token P × TokenStream P :=
  match s.ahead with
  | [] => (s.final, s)
  | t :: rest => (t, { s with ahead := rest, unclosed := openAfter t.kind s.unclosed })

@[simp] theorem kindAt_zero (s : TokenStream P) : s.kindAt 0 = s.current.kind := rfl

theorem ahead_next (s : TokenStream P) : s.next.2.ahead = s.ahead.tail := by
  rcases s with ⟨_ | _, _, _, _⟩ <;> rfl

theorem fst_next (s : TokenStream P) : s.next.1 = s.current := by
  rcases s with ⟨_ | _, _, _, _⟩ <;> rfl

/-- The refusal of the token at the cursor where only the given classes fit. At the end of the
input the closers of open delimiters are expected too. -/
def mismatch (s : TokenStream P) (expected : List TokenKind) : ParseError P :=
  let found := s.current
  let closers := if found.kind = .eof then s.unclosed else []
  ⟨.unexpected (TokenKind.listed (expected ++ closers)) found.kind found.text, found.pos⟩

end TokenStream

end ActorLang
