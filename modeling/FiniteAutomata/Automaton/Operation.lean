import FiniteAutomata.Automaton.Edit

namespace FiniteAutomata

inductive Operation (α : Type) where
  | addState (isInitial isFinal : Bool) (name : Option String)
  | removeState (id : StateId)
  | setInitial (id : StateId)
  | markFinal (id : StateId)
  | unmarkFinal (id : StateId)
  | addTransition (source : StateId) (label : Label α) (target : StateId)
  | addEpsilon (source target : StateId)
  | addTransitionSet (source : StateId) (label : Label α) (targets : List StateId)
  | addMultiple (source : StateId) (edges : List (Label α × StateId))
  deriving DecidableEq, Repr

/-- Only a new state takes up a number. -/
def Operation.addsState {α : Type} : Operation α → Bool
  | addState _ _ _ => true
  | _ => false

namespace Automaton
variable {α : Type} [DecidableEq α]

def perform (m : Automaton α) : Operation α → Except (Fault α) (Automaton α)
  | .addState isInitial isFinal name => .ok (m.addState isInitial isFinal name)
  | .removeState q => m.removeState q
  | .setInitial q => m.setInitial q
  | .markFinal q => m.markFinal q
  | .unmarkFinal q => m.unmarkFinal q
  | .addTransition p x q => m.addTransition p x q
  | .addEpsilon p q => m.addEpsilon p q
  | .addTransitionSet p x qs => m.addTransitionSet p x qs
  | .addMultiple p es => m.addMultiple p es

/-- The automaton after an edit, which is the same one if the edit is refused. -/
def after (m : Automaton α) (op : Operation α) : Automaton α :=
  match m.perform op with
  | .ok m' => m'
  | .error _ => m

def afterAll (m : Automaton α) (ops : List (Operation α)) : Automaton α := ops.foldl after m

end Automaton
end FiniteAutomata
