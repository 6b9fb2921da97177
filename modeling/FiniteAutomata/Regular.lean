import FiniteAutomata.Diagram

namespace FiniteAutomata

def Edge.renumber {α : Type} (f : StateId → StateId) (e : Edge α) : Edge α :=
  ⟨f e.source, e.label, f e.target⟩

namespace Automaton
variable {α : Type}

/-- The number of a state in a copy whose first state has the number `offset`. -/
def renumbered (m : Automaton α) (offset : Nat) (q : StateId) : StateId :=
  UInt32.ofNat (offset + m.stateIds.idxOf q)

def nodes (m : Automaton α) : List Node := m.states.map fun s => ⟨some s.2, m.isFinal s.1⟩

/-- The states of a copy, none of them final. -/
def innerNodes (m : Automaton α) : List Node := m.states.map fun s => ⟨some s.2, false⟩

def copiedEdges (m : Automaton α) (offset : Nat) : List (Edge α) :=
  m.transitions.map (·.renumber (m.renumbered offset))

/-- The diagram of exactly one word: a chain with one edge for each symbol. -/
def wordDiagram (alphabet : Alphabet α) (w : List α) : Diagram α where
  alphabet := alphabet
  nodes := w.map (fun _ => ⟨none, false⟩) ++ [⟨none, true⟩]
  initial := some 0
  edges := w.zipIdx.map fun c => ⟨UInt32.ofNat c.2, .literal c.1, UInt32.ofNat (c.2 + 1)⟩

/-- From the final states of `a`, which are final no more, into the initial state `j` of `b`. -/
def concatDiagram (a b : Automaton α) (i j : StateId) : Diagram α where
  alphabet := a.alphabet
  nodes := a.innerNodes ++ b.nodes
  initial := some (a.renumbered 0 i)
  edges := a.copiedEdges 0 ++ b.copiedEdges a.stateCount ++
    a.finals.toList.map fun p => Edge.epsilon (a.renumbered 0 p) (b.renumbered a.stateCount j)

/-- From a new start into both initial states, and from all final states to a new accepting one. -/
def unionDiagram (a b : Automaton α) (i j : StateId) : Diagram α :=
  let start := UInt32.ofNat (a.stateCount + b.stateCount)
  let accept := UInt32.ofNat (a.stateCount + b.stateCount + 1)
  { alphabet := a.alphabet
    nodes := a.innerNodes ++ b.innerNodes ++ [⟨none, false⟩, ⟨none, true⟩]
    initial := some start
    edges := a.copiedEdges 0 ++ b.copiedEdges a.stateCount ++
      [Edge.epsilon start (a.renumbered 0 i), Edge.epsilon start (b.renumbered a.stateCount j)] ++
      a.finals.toList.map (fun p => Edge.epsilon (a.renumbered 0 p) accept) ++
      b.finals.toList.map (fun p => Edge.epsilon (b.renumbered a.stateCount p) accept) }

/-- From a new start to the initial state or straight to a new accepting one, and from each final
state back to the initial state or on to the accepting one. -/
def starDiagram (a : Automaton α) (i : StateId) : Diagram α :=
  let start := UInt32.ofNat a.stateCount
  let accept := UInt32.ofNat (a.stateCount + 1)
  let head := a.renumbered 0 i
  { alphabet := a.alphabet
    nodes := a.innerNodes ++ [⟨none, false⟩, ⟨none, true⟩]
    initial := some start
    edges := a.copiedEdges 0 ++ [Edge.epsilon start head, Edge.epsilon start accept] ++
      a.finals.toList.flatMap fun p =>
        [Edge.epsilon (a.renumbered 0 p) head, Edge.epsilon (a.renumbered 0 p) accept] }

variable [DecidableEq α]

/-- The initial states of two operands, which must have the same symbols. -/
def findOperands (a b : Automaton α) : Except (Fault α) (StateId × StateId) := do
  if !a.alphabet.sameSymbols b.alphabet then throw .alphabetMismatch
  return (← a.findInitial, ← b.findInitial)

/-- Accepts one word only. -/
def ofWord (alphabet : Alphabet α) (w : List α) : Except (Fault α) (Automaton α) :=
  (wordDiagram alphabet w).build

/-- Accepts a word of `a` followed by a word of `b`. -/
def concat (a b : Automaton α) : Except (Fault α) (Automaton α) := do
  let (i, j) ← a.findOperands b
  (a.concatDiagram b i j).build

/-- Accepts the words of `a` and the words of `b`. -/
def union (a b : Automaton α) : Except (Fault α) (Automaton α) := do
  let (i, j) ← a.findOperands b
  (a.unionDiagram b i j).build

/-- Accepts any number of words of `a`, one after the other. -/
def star (a : Automaton α) : Except (Fault α) (Automaton α) := do
  let i ← a.findInitial
  (a.starDiagram i).build

end Automaton
end FiniteAutomata
