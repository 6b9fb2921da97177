import FiniteAutomata.Session.Answer
import FiniteAutomata.Simulation

namespace FiniteAutomata.Session

inductive Query (α : Type) where
  | initial
  | finals
  | isFinal (id : StateId)
  | contains (id : StateId)
  | stateCount
  | stateName (id : StateId)
  | states
  | alphabet
  | hasSymbol (symbol : α)
  | hasTransition (source : StateId) (label : Label α) (target : StateId)
  | hasAnyTransition (source target : StateId)
  | delta (id : StateId) (label : Label α)
  | transitionsFrom (id : StateId)
  | transitionsOn (label : Label α)
  | transitions
  | isDeterministic
  | closure (states : StateSet)
  | closureOf (id : StateId)
  | moveOn (states : StateSet) (symbol : α)
  | run (word : List α)
  | accepts (word : List α)
  | acceptsMany (words : List (List α))
  | language (bound : Nat)
  | dump

def Query.ask {α : Type} [DecidableEq α] (m : Automaton α) : Query α → Outcome α
  | initial => .answer (.state m.initial)
  | finals => .answer (.set m.finals)
  | isFinal q => .answer (.truth (m.isFinal q))
  | contains q => .answer (.truth (m.contains q))
  | stateCount => .answer (.count m.stateCount)
  | stateName q => .answer (.name (m.name? q))
  | states => .answer (.names m.states)
  | alphabet => .answer (.symbols m.alphabet.symbols)
  | hasSymbol a => .answer (.truth (a ∈ m.alphabet))
  | hasTransition p x q => .answer (.truth (m.hasTransition p x q))
  | hasAnyTransition p q => .answer (.truth (m.hasAnyTransition p q))
  | delta q x => .ofExcept .set (m.delta q x)
  | transitionsFrom q => .ofExcept (fun t => .byLabel (t.inOrder m.alphabet)) (m.transitionsFrom q)
  | transitionsOn x => .ofExcept .byState (m.transitionsOn x)
  | transitions => .answer (.edges m.edgesInOrder)
  | isDeterministic => .answer (.truth m.isDeterministic)
  | closure s => .answer (.set (m.closure s))
  | closureOf q => .answer (.set (m.closureOf q))
  | moveOn s a => .ofExcept .set (m.moveOn s a)
  | run w => .ofExcept .set (m.run w)
  | accepts w => .ofExcept .truth (m.accepts w)
  | acceptsMany ws => .answer (.verdicts (ws.map m.accepts))
  | language bound => .ofExcept .profile (m.languageProfile bound)
  | dump => .answer (.snapshot (.take m))

end FiniteAutomata.Session
