import FiniteAutomata.Automaton.Edit

/-! All constructions are written as diagrams: the states by position, the edges, and the mark of
the initial state. `build` reports the first edge that does not fit. -/
namespace FiniteAutomata

/-- A state of a diagram. Its number is its place in the list; without a name it is called by that
number. -/
structure Node where
  name : Option String
  isFinal : Bool

/-- What an automaton is to hold. Edges and the mark name states by their place among the nodes. -/
structure Diagram (α : Type) where
  alphabet : Alphabet α
  nodes : List Node
  initial : Option StateId
  edges : List (Edge α)

namespace Diagram
variable {α : Type}

/-- The states of the diagram, and no edge. -/
def withNodes (alphabet : Alphabet α) (nodes : List Node) : Automaton α :=
  nodes.foldl (fun m node => m.addState false node.isFinal node.name) (.empty alphabet)

def setInitial (m : Automaton α) : Option StateId → Except (Fault α) (Automaton α)
  | none => .ok m
  | some q => m.setInitial q

variable [DecidableEq α]

/-- Adds edges one by one, up to the first that is refused. -/
def addEdges (m : Automaton α) (edges : List (Edge α)) : Except (Fault α) (Automaton α) :=
  edges.foldlM (fun m e => m.addTransition e.source e.label e.target) m

/-- The automaton that holds what the diagram lists. -/
def build (d : Diagram α) : Except (Fault α) (Automaton α) := do
  let m ← addEdges (withNodes d.alphabet d.nodes) d.edges
  setInitial m d.initial

end Diagram
end FiniteAutomata
