import FiniteAutomata.Automaton.Edit

/-! The three edits that add edges, carried out on an automaton that changes while they run: what is
in when a fault occurs stays in. Only the order of the steps keeps a refused edit from leaving a
part of itself behind. -/
namespace FiniteAutomata

/-- A computation that changes an automaton as it runs. A fault ends it and undoes nothing. -/
abbrev Editing (α β : Type) := EStateM (Fault α) (Automaton α) β

namespace Editing
variable {α β : Type}

/-- Asks the automaton something. The computation ends if the answer is a fault. -/
def ask (query : Automaton α → Except (Fault α) β) : Editing α β := do
  MonadExcept.ofExcept (query (← get))

def needState (q : StateId) : Editing α Unit := ask fun m => do let _ ← m.findState q

variable [DecidableEq α]

def needLabel (x : Label α) : Editing α Unit := ask (·.checkLabel x)

/-- Inserts edges that leave one state, which has to be there even for no edges. -/
def insertEdges (p : StateId) (es : List (Label α × StateId)) : Editing α Unit := do
  needState p
  es.forM fun e => modify (·.modifyTransitions p (·.insert e.1 e.2))

def addTransition (p : StateId) (x : Label α) (q : StateId) : Editing α Unit := do
  needLabel x
  needState q
  insertEdges p [(x, q)]

def addTransitionSet (p : StateId) (x : Label α) (qs : List StateId) : Editing α Unit := do
  needLabel x
  qs.forM needState
  insertEdges p (qs.map (x, ·))

def addMultiple (p : StateId) (es : List (Label α × StateId)) : Editing α Unit := do
  es.forM fun e => do
    needLabel e.1
    needState e.2
  insertEdges p es

/-- The same edges, each by an edit of its own. -/
def addEach (p : StateId) (es : List (Label α × StateId)) : Editing α Unit :=
  es.forM fun e => addTransition p e.1 e.2

end Editing
end FiniteAutomata
