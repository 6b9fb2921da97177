import FiniteAutomata.StateSet

namespace FiniteAutomata

/-- The causes, each with what is needed to report it. -/
inductive Fault (α : Type) where
  | invalidSymbol (symbol : α)
  | noInitialState
  | missingFinalState (id : StateId)
  | unknownState (id : StateId)
  | alphabetMismatch
  | stateLimitExceeded (states max : Nat)
  deriving DecidableEq, Repr

namespace Fault
variable {α β : Type}

def map (f : α → β) : Fault α → Fault β
  | invalidSymbol a => invalidSymbol (f a)
  | noInitialState => noInitialState
  | missingFinalState q => missingFinalState q
  | unknownState q => unknownState q
  | alphabetMismatch => alphabetMismatch
  | stateLimitExceeded n max => stateLimitExceeded n max

def kind : Fault α → String
  | invalidSymbol _ => "InvalidSymbol"
  | noInitialState => "NoInitialState"
  | missingFinalState _ => "MissingFinalState"
  | unknownState _ => "UnknownState"
  | alphabetMismatch => "AlphabetMismatch"
  | stateLimitExceeded _ _ => "StateLimitExceeded"

/-- One sentence, in which `text` writes the symbol. -/
def message (text : α → String) : Fault α → String
  | invalidSymbol a => "symbol " ++ text a ++ " not in the defined alphabet"
  | noInitialState => "automaton has no initial state"
  | missingFinalState q => "state " ++ decimalName q ++ " is not a final state"
  | unknownState q => "state " ++ decimalName q ++ " does not exist"
  | alphabetMismatch => "alphabets of the combined automata differ"
  | stateLimitExceeded n max =>
    "DFA state limit exceeded: " ++ Nat.repr n ++ " states (max: " ++ Nat.repr max ++ ")"

def constructorForm (text : α → String) (fault : Fault α) : String :=
  fault.kind ++ match fault with
  | invalidSymbol a => " \x7b symbol: " ++ text a ++ " \x7d"
  | missingFinalState q | unknownState q => "(" ++ decimalName q ++ ")"
  | stateLimitExceeded n max =>
    " \x7b states: " ++ Nat.repr n ++ ", max: " ++ Nat.repr max ++ " \x7d"
  | noInitialState | alphabetMismatch => ""

end Fault
end FiniteAutomata
