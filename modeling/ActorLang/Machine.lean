import ActorLang.Tree.Outline

/-!
# What can be built

The printed form of a program and its outline are built as one text each before they are written,
and the printed form needs the blanks before the statements of a function as a text of their own.
Such a text need not exist: a size has 63 bits, memory may be short, and a line is filled up to a
limited width only. Which texts can be built is therefore a matter of the machine.
-/

namespace ActorLang

structure Machine where
  /-- Whether a text of this many bytes can be built. -/
  builds : Nat → Bool
  builds_lt : ∀ n, builds n = true → n < UInt64.size / 2
  /-- The number of blanks that a line can be filled up with. -/
  width : Nat

variable {P : Type}

/-- Whether the lines of an outline can be filled up, from a depth on. -/
def outlineFits (width depth : Nat) : List (Event P) → Bool
  | [] => true
  | .enter _ :: rest => decide (2 * depth ≤ width) && outlineFits width (depth + 1) rest
  | .exit _ :: rest => outlineFits width (depth - 1) rest

namespace Machine

/-- A machine with addresses of 47 bits, which keeps widths in 16 bits. -/
def standard : Machine where
  builds n := decide (n < 0x800000000000)
  builds_lt n h := Nat.lt_trans (of_decide_eq_true h) (by decide)
  width := UInt16.size - 1

def prints (m : Machine) (layout : Layout) (p : Program P) : Bool :=
  -- the blanks are built for a body without statements, too
  (p.functions.isEmpty || m.builds layout.indent) && m.builds (p.render layout).utf8ByteSize

def outlines (m : Machine) (p : Program P) : Bool :=
  outlineFits m.width 0 p.events && m.builds p.outline.utf8ByteSize

def print? (m : Machine) (layout : Layout) (p : Program P) : Option String :=
  if m.prints layout p then some (p.render layout) else none

def outline? (m : Machine) (p : Program P) : Option String :=
  if m.outlines p then some p.outline else none

end Machine

end ActorLang
