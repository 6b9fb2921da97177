import FiniteAutomata.Regular
import FiniteAutomata.Subset.Determinize

namespace FiniteAutomata

/-- Words, and the operations on automata that are applied to them. -/
inductive Expression (α : Type) where
  | word (symbols w : List α)
  | concat (first second : Expression α)
  | union (first second : Expression α)
  | star (operand : Expression α)
  | toDfa (operand : Expression α)
  deriving DecidableEq, Repr

namespace Expression
variable {α : Type} [DecidableEq α]

/-- Carries the operations out from the leaves up, as far as the first fault. -/
def build : Expression α → Except (Fault α) (Automaton α)
  | word symbols w => Automaton.ofWord (.ofList symbols) w
  | concat e f => do
    let a ← e.build
    let b ← f.build
    a.concat b
  | union e f => do
    let a ← e.build
    let b ← f.build
    a.union b
  | star e => do
    let a ← e.build
    a.star
  | toDfa e => do
    let a ← e.build
    a.toDfa

end Expression
end FiniteAutomata
