import FiniteAutomata.Alphabet
import FiniteAutomata.Fault
import FiniteAutomata.Transitions

/-! States live in numbered slots; a removed state leaves its slot empty, so that its number is
never given to another state. `destinations` is the edge relation, for any number and any label;
every other query is described by it. -/
namespace FiniteAutomata

/-- A state: what it is called, and the edges that leave it. -/
structure State (α : Type) where
  name : String
  transitions : Transitions α

structure Edge (α : Type) where
  source : StateId
  label : Label α
  target : StateId
  deriving DecidableEq, Repr

def Edge.epsilon {α : Type} (p q : StateId) : Edge α := ⟨p, .epsilon, q⟩

/-- The slot at place `k` holds the state of number `k`, and nothing once that state is removed. -/
structure Automaton (α : Type) where
  alphabet : Alphabet α
  slots : Array (Option (State α))
  initial : Option StateId
  finals : StateSet

namespace Automaton
variable {α : Type}

def empty (alphabet : Alphabet α) : Automaton α := ⟨alphabet, #[], none, ∅⟩

instance : Inhabited (Automaton α) := ⟨empty ∅⟩

def state? (m : Automaton α) (q : StateId) : Option (State α) := m.slots[q.toNat]?.join

def contains (m : Automaton α) (q : StateId) : Bool := (m.state? q).isSome

def name? (m : Automaton α) (q : StateId) : Option String := (m.state? q).map (·.name)

/-- The states that are there, in ascending order. -/
def liveStates (m : Automaton α) : List (StateId × State α) :=
  m.slots.toList.zipIdx.filterMap fun slot => slot.1.map fun s => (UInt32.ofNat slot.2, s)

def stateIds (m : Automaton α) : List StateId := m.liveStates.map (·.1)

def states (m : Automaton α) : List (StateId × String) := m.liveStates.map fun s => (s.1, s.2.name)

/-- The number of states, removed ones not counted. -/
def stateCount (m : Automaton α) : Nat := m.liveStates.length

/-- Whether a state is final; a state that is not there is not. -/
def isFinal (m : Automaton α) (q : StateId) : Bool := q ∈ m.finals

/-- Every edge once, grouped by source and label. -/
def transitions (m : Automaton α) : List (Edge α) :=
  m.liveStates.flatMap fun s => s.2.transitions.entries.flatMap fun e =>
    e.2.toList.map fun q => ⟨s.1, e.1, q⟩

/-- Some edge leads from one state to the other, epsilon included. -/
def hasAnyTransition (m : Automaton α) (p q : StateId) : Bool :=
  (m.state? p).any (·.transitions.pointsTo q)

def targets (m : Automaton α) : StateSet := .ofList (m.transitions.map (·.target))

def findState (m : Automaton α) (q : StateId) : Except (Fault α) (State α) :=
  match m.state? q with
  | some s => .ok s
  | none => .error (.unknownState q)

/-- The edges that leave a state, with a target on each label that is listed. -/
def transitionsFrom (m : Automaton α) (p : StateId) : Except (Fault α) (Transitions α) := do
  return (← m.findState p).transitions

variable [DecidableEq α]

/-- The states to which edges with this label lead: none, where there is no such state. -/
def destinations (m : Automaton α) (p : StateId) (x : Label α) : StateSet :=
  match m.state? p with
  | some s => s.transitions.destinations x
  | none => ∅

/-- Whether the edge is there. It is not where an end of it is no state or its symbol is foreign. -/
def hasTransition (m : Automaton α) (p : StateId) (x : Label α) (q : StateId) : Bool :=
  q ∈ m.destinations p x

def checkSymbol (m : Automaton α) (a : α) : Except (Fault α) Unit :=
  if a ∈ m.alphabet then .ok () else .error (.invalidSymbol a)

/-- Epsilon may label an edge whatever the alphabet is. -/
def checkLabel (m : Automaton α) : Label α → Except (Fault α) Unit
  | .epsilon => .ok ()
  | .literal a => m.checkSymbol a

/-- The targets of the edges that leave a state on a label. A foreign label is reported before an
unknown state. -/
def delta (m : Automaton α) (p : StateId) (x : Label α) : Except (Fault α) StateSet := do
  m.checkLabel x
  return (← m.findState p).transitions.destinations x

/-- The edges with one label, by source in ascending order; states without such an edge are not
listed. -/
def transitionsOn (m : Automaton α) (x : Label α) :
    Except (Fault α) (List (StateId × StateSet)) := do
  m.checkLabel x
  return m.liveStates.filterMap fun s => (s.2.transitions.find? x).map fun d => (s.1, d)

/-- No epsilon edge, and at most one target for each state and symbol. -/
def isDeterministic (m : Automaton α) : Bool :=
  m.liveStates.all fun s => s.2.transitions.entries.all fun e => !e.1.isEpsilon && e.2.size ≤ 1

def findInitial (m : Automaton α) : Except (Fault α) StateId :=
  match m.initial with
  | some q => .ok q
  | none => .error .noInitialState

omit [DecidableEq α] in
theorem mem_liveStates {m : Automaton α} {q : StateId} {s : State α} (h : m.state? q = some s) :
    (q, s) ∈ m.liveStates := by
  refine List.mem_filterMap.2 ⟨(some s, q.toNat), ?_, by simp⟩
  rw [List.mem_zipIdx_iff_getElem?, Array.getElem?_toList]
  simpa [state?, Option.join_eq_some_iff] using h

theorem mem_destinations_iff {m : Automaton α} {p q : StateId} {x : Label α} :
    q ∈ m.destinations p x ↔ ∃ s, m.state? p = some s ∧ q ∈ s.transitions.destinations x := by
  unfold destinations
  cases m.state? p <;> simp

theorem mem_transitions {m : Automaton α} {p q : StateId} {x : Label α}
    (h : q ∈ m.destinations p x) : ⟨p, x, q⟩ ∈ m.transitions := by
  obtain ⟨s, hs, hq⟩ := mem_destinations_iff.1 h
  obtain ⟨d, hd, hqd⟩ := Transitions.mem_destinations_iff.1 hq
  exact List.mem_flatMap.2 ⟨(p, s), mem_liveStates hs,
    List.mem_flatMap.2 ⟨(x, d), hd, List.mem_map.2 ⟨q, hqd, rfl⟩⟩⟩

theorem mem_targets {m : Automaton α} {p q : StateId} {x : Label α}
    (h : q ∈ m.destinations p x) : q ∈ m.targets :=
  StateSet.mem_ofList.2 (List.mem_map.2 ⟨_, mem_transitions h, rfl⟩)

end Automaton
end FiniteAutomata
