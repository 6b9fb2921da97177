import FiniteAutomata.Automaton.Basic

namespace FiniteAutomata.Automaton
variable {α : Type}

/-- The number that the next state gets. -/
def nextId (m : Automaton α) : StateId := UInt32.ofNat m.slots.size

/-- Adds a state without edges. A new initial state takes the mark from the old one; a state without
a name is called by its number. -/
def addState (m : Automaton α) (isInitial isFinal : Bool) (name : Option String) : Automaton α :=
  let q := m.nextId
  { m with
    slots := m.slots.push (some ⟨name.getD (decimalName q), ∅⟩)
    initial := if isInitial then some q else m.initial
    finals := if isFinal then m.finals.insert q else m.finals }

/-- Removes a state with the edges that leave it and the edges that lead to it. -/
def removeState (m : Automaton α) (q : StateId) : Except (Fault α) (Automaton α) := do
  let _ ← m.findState q
  return { m with
    slots := (m.slots.setIfInBounds q.toNat none).map
      (·.map fun s => { s with transitions := s.transitions.forget q })
    initial := if m.initial = some q then none else m.initial
    finals := m.finals.erase q }

/-- Marks a state as the initial one; the mark leaves the state that had it. -/
def setInitial (m : Automaton α) (q : StateId) : Except (Fault α) (Automaton α) := do
  let _ ← m.findState q
  return { m with initial := some q }

def markFinal (m : Automaton α) (q : StateId) : Except (Fault α) (Automaton α) := do
  let _ ← m.findState q
  return { m with finals := m.finals.insert q }

/-- Makes a state plain again. A number that is not among the final ones is refused as such, whether
or not there is a state of that number. -/
def unmarkFinal (m : Automaton α) (q : StateId) : Except (Fault α) (Automaton α) :=
  if q ∈ m.finals then .ok { m with finals := m.finals.erase q }
  else .error (.missingFinalState q)

def modifyTransitions (m : Automaton α) (p : StateId) (f : Transitions α → Transitions α) :
    Automaton α :=
  { m with
    slots := m.slots.modify p.toNat (·.map fun s => { s with transitions := f s.transitions }) }

variable [DecidableEq α]

/-- Adds an edge. An edge that is there already stays one edge. Where several things are wrong, the
symbol is reported before the target, and the target before the source. -/
def addTransition (m : Automaton α) (p : StateId) (x : Label α) (q : StateId) :
    Except (Fault α) (Automaton α) := do
  m.checkLabel x
  let _ ← m.findState q
  let _ ← m.findState p
  return m.modifyTransitions p (·.insert x q)

def addEpsilon (m : Automaton α) (p q : StateId) : Except (Fault α) (Automaton α) :=
  m.addTransition p .epsilon q

def addTransitionSet (m : Automaton α) (p : StateId) (x : Label α) (qs : List StateId) :
    Except (Fault α) (Automaton α) := do
  m.checkLabel x
  qs.forM fun q => do let _ ← m.findState q
  let _ ← m.findState p
  return m.modifyTransitions p fun t => qs.foldl (·.insert x ·) t

def addMultiple (m : Automaton α) (p : StateId) (es : List (Label α × StateId)) :
    Except (Fault α) (Automaton α) := do
  es.forM fun e => do
    m.checkLabel e.1
    let _ ← m.findState e.2
  let _ ← m.findState p
  return m.modifyTransitions p fun t => es.foldl (fun t e => t.insert e.1 e.2) t

end FiniteAutomata.Automaton
