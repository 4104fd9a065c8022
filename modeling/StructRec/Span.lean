/-!
# StructRec — spans of source text

A `Span` is the region of the source a node came from. Generated nodes carry the span of all zeros,
which `merge` treats as "no region": it never widens a real one.
-/

namespace StructRec

/-- A region of source text, from a line and column to a line and column. -/
structure Span where
  startLine : UInt64 := 0
  startCol : UInt64 := 0
  endLine : UInt64 := 0
  endCol : UInt64 := 0
deriving DecidableEq

namespace Span

/-- The span of nodes that no source text stands for. -/
def generated : Span := {}

def isGenerated (s : Span) : Bool := s == generated

/-- Positions are ordered by line, then by column. -/
def positionLe (line col line' col' : UInt64) : Bool :=
  line < line' || (line == line' && col ≤ col')

/-- The smallest span that covers both regions; a generated side leaves the other as it is. -/
def merge (a b : Span) : Span :=
  if a.isGenerated then b
  else if b.isGenerated then a
  else
    let first := if positionLe a.startLine a.startCol b.startLine b.startCol then a else b
    let last := if positionLe b.endLine b.endCol a.endLine a.endCol then a else b
    { startLine := first.startLine, startCol := first.startCol
      endLine := last.endLine, endCol := last.endCol }

/-- `line:col..col` inside one line, `line:col..line:col` across lines. -/
def render (s : Span) : String :=
  let start := Nat.repr s.startLine.toNat ++ ":" ++ Nat.repr s.startCol.toNat ++ ".."
  if s.startLine = s.endLine then start ++ Nat.repr s.endCol.toNat
  else start ++ Nat.repr s.endLine.toNat ++ ":" ++ Nat.repr s.endCol.toNat

@[simp]
theorem merge_generated (a : Span) : a.merge generated = a := by
  unfold merge
  by_cases h : a = generated <;> simp [isGenerated, h]

@[simp]
theorem generated_merge (b : Span) : generated.merge b = b := by
  simp [merge, isGenerated]

end Span

end StructRec
