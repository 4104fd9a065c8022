/-!
# StructRec — sets of characters given by runs of code points
-/

namespace StructRec.Text

/-- A set of characters: the lengths of the runs of code points that are outside and inside of it in
turn, from zero on. What comes after the last run is outside. -/
abbrev CodeRuns := List Nat

/-- Whether the code point that comes after `skip` others is inside, where the first run is or is
not. -/
def CodeRuns.holds (inside : Bool) (skip : Nat) : CodeRuns → Bool
  | [] => false
  | run :: rest => if skip < run then inside else CodeRuns.holds (!inside) (skip - run) rest

def CodeRuns.contains (runs : CodeRuns) (c : Char) : Bool := runs.holds false c.toNat

end StructRec.Text
