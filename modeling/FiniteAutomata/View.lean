import FiniteAutomata.Automaton.Edit

namespace FiniteAutomata

/-- The visible content of an automaton. -/
structure View (α : Type) where
  alphabet : List α
  states : List (StateId × String)
  initial : Option StateId
  finals : StateSet
  edges : List (Edge α)
  deriving DecidableEq

variable {α : Type} [DecidableEq α]

/-- The entries of a table in the order of the labels. -/
def Transitions.inOrder (t : Transitions α) (alphabet : Alphabet α) : List (Label α × StateSet) :=
  alphabet.labels.filterMap fun x => (t.find? x).map fun d => (x, d)

namespace Automaton

/-- Every edge once, in the order of the view. -/
def edgesInOrder (m : Automaton α) : List (Edge α) :=
  m.liveStates.flatMap fun s => (s.2.transitions.inOrder m.alphabet).flatMap fun e =>
    e.2.toList.map fun q => ⟨s.1, e.1, q⟩

def view (m : Automaton α) : View α :=
  ⟨m.alphabet.symbols, m.states, m.initial, m.finals, m.edgesInOrder⟩

end Automaton
end FiniteAutomata
