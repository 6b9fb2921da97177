import FiniteAutomata.Label
import FiniteAutomata.Text.Field
import FiniteAutomata.Text.Quoted

namespace FiniteAutomata
open Text

class Symbol (α : Type) where
  /-- A form that tells any two symbols apart. -/
  quoted : α → String
  setInto : Field → α → String

instance : Symbol Char := ⟨quotedChar, fun f c => f.setText (String.singleton c)⟩

instance : Symbol String := ⟨quotedString, Field.setText⟩

instance : Symbol Int := ⟨Int.repr, Field.setInt⟩

namespace Label
variable {α : Type} [Symbol α]

/-- Only a symbol is set into the field; the sign for epsilon always stands alone. -/
def setInto (f : Field) : Label α → String
  | epsilon => "ε"
  | literal a => Symbol.setInto f a

/-- The label as it is written without a field. -/
def text (x : Label α) : String := x.setInto .plain

def constructorForm : Label α → String
  | epsilon => "Epsilon"
  | literal a => "Literal(" ++ Symbol.quoted a ++ ")"

end Label
end FiniteAutomata
