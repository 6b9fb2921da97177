namespace FiniteAutomata.Text

/-- Where the text stands in a wider field. -/
inductive Side where
  | left | right | center
  deriving DecidableEq, Repr

/-- Without a side of its own a field takes the one that suits what is set into it. -/
structure Field where
  fill : Char := ' '
  side : Option Side := none
  width : Nat := 0
  precision : Option Nat := none

namespace Field

def plain : Field := {}

def filler (f : Field) (n : Nat) : String := String.ofList (List.replicate n f.fill)

/-- Fills up to the width; in the centre an odd filler goes to the right. -/
def pad (f : Field) (natural : Side) (s : String) : String :=
  let room := f.width - s.length
  match f.side.getD natural with
  | .left => s ++ f.filler room
  | .right => f.filler room ++ s
  | .center => f.filler (room / 2) ++ s ++ f.filler (room - room / 2)

/-- Keeps as many characters as the precision allows. -/
def cut (f : Field) (s : String) : String :=
  match f.precision with
  | none => s
  | some n => String.ofList (s.toList.take n)

/-- Text is cut and stands on the left. -/
def setText (f : Field) (s : String) : String := f.pad .left (f.cut s)

/-- A whole number is never cut and stands on the right. -/
def setInt (f : Field) (i : Int) : String := f.pad .right (Int.repr i)

end Field
end FiniteAutomata.Text
