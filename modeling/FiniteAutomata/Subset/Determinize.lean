import FiniteAutomata.Diagram
import FiniteAutomata.Subset.Discovery

namespace FiniteAutomata

/-- For instance `{0,4,7}`, and `{}` for the empty list. -/
def subsetName (ids : List StateId) : String :=
  "\x7b" ++ ",".intercalate (ids.map decimalName) ++ "\x7d"

/-- A deterministic automaton and what its states stand for. -/
structure Determinized (α : Type) where
  dfa : Automaton α
  /-- The subset at place `k` is the one that state `k` stands for. -/
  subsets : List StateSet

/-- Each state of the deterministic automaton with the subset that it stands for. -/
def Determinized.stateMapping {α : Type} (d : Determinized α) : List (StateId × StateSet) :=
  d.subsets.zipIdx.map fun s => (UInt32.ofNat s.2, s.1)

namespace Automaton
variable {α : Type} [DecidableEq α]

def subsetEdges (m : Automaton α) (found : List StateSet) (s : StateSet) (k : Nat) :
    List (Edge α) :=
  m.alphabet.symbols.map fun a =>
    ⟨UInt32.ofNat k, .literal a, UInt32.ofNat (found.idxOf (m.step s a))⟩

/-- One node for each subset that is listed, the first one being initial. -/
def subsetDiagram (m : Automaton α) (found : List StateSet) : Diagram α where
  alphabet := m.alphabet
  nodes := found.map fun s => ⟨some (subsetName s.toList), s.meets m.finals⟩
  initial := some 0
  edges := found.zipIdx.flatMap fun s => m.subsetEdges found s.1 s.2

/-- Refuses to make more than `limit` states, unless the limit is zero. -/
def determinize (m : Automaton α) (limit : Nat) : Except (Fault α) (Determinized α) := do
  let found ← m.reachedSubsets limit
  return ⟨← (m.subsetDiagram found).build, found⟩

def toDfa (m : Automaton α) : Except (Fault α) (Automaton α) := do
  return (← m.determinize 0).dfa

end Automaton
end FiniteAutomata
