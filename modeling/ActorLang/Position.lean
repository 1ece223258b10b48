/-!
# Source positions

A position names a character of a source text by line, column and byte offset. Lines and columns
count from one, columns count characters, and only a line feed ends a line. Both are words of 32
bits, so that the line behind the last one that fits is line zero. An offset is never too large: no
text has that many bytes.
-/

namespace ActorLang

structure Position where
  /-- One plus the number of line feeds before the place. -/
  line : Nat
  /-- One plus the number of characters between the start of the line and the place. -/
  column : Nat
  /-- The number of bytes before the place in the UTF-8 form of the text. -/
  offset : Nat
deriving DecidableEq

namespace Position

/-- The place that stands for no place at all: before the first line. -/
instance : Inhabited Position := ⟨⟨0, 0, 0⟩⟩

/-- Positions are ordered by line, then column, then offset. -/
instance : LE Position where
  le p q := p.line < q.line ∨ p.line = q.line ∧
    (p.column < q.column ∨ p.column = q.column ∧ p.offset ≤ q.offset)

instance (p q : Position) : Decidable (p ≤ q) :=
  inferInstanceAs (Decidable (_ ∨ _))

def start : Position := ⟨1, 1, 0⟩

/-- The place right behind a character. The counters start again at zero when 32 bits are full. -/
def step (p : Position) (c : Char) : Position :=
  if c = '\n' then ⟨(p.line + 1) % UInt32.size, 1, p.offset + c.utf8Size⟩
  else ⟨p.line, (p.column + 1) % UInt32.size, p.offset + c.utf8Size⟩

def advance (p : Position) (text : List Char) : Position :=
  text.foldl step p

def render (p : Position) : String :=
  toString p.line ++ ":" ++ toString p.column

@[simp] theorem advance_nil (p : Position) : p.advance [] = p := rfl

@[simp] theorem advance_cons (p : Position) (c : Char) (text : List Char) :
    p.advance (c :: text) = (p.step c).advance text := rfl

theorem advance_append (p : Position) (text rest : List Char) :
    p.advance (text ++ rest) = (p.advance text).advance rest :=
  List.foldl_append

end Position

end ActorLang
