import FiniteAutomata.Automaton.Operation
import FiniteAutomata.Session.Answer

namespace FiniteAutomata.Session

inductive Change (α : Type) where
  | edit (op : Operation α)
  | addStates (count : Nat)
  /-- Edges on one label from each of `count` states, beginning with `first`, to the next one. -/
  | chain (first : StateId) (count : Nat) (label : Label α)

variable {α : Type} [DecidableEq α]

/-- The number of a new state, the initial state that was replaced, and otherwise nothing. -/
def answerTo (m : Automaton α) : Operation α → Answer α
  | .addState _ _ _ => .state (some m.nextId)
  | .setInitial _ => .state m.initial
  | _ => .done

/-- Adds plain states and gives the number of the last. -/
def addStates (m : Automaton α) (count : Nat) : Automaton α × Option StateId :=
  (List.range count).foldl (fun r _ => (r.1.addState false false none, some r.1.nextId)) (m, none)

/-- Adds the edges of a chain, of which those before the first refused one remain. -/
def addChain (x : Label α) : Nat → StateId → Automaton α → Automaton α × Except (Fault α) Unit
  | 0, _, m => (m, .ok ())
  | n + 1, p, m =>
    match m.addTransition p x (p + 1) with
    | .ok m' => addChain x n (p + 1) m'
    | .error f => (m, .error f)

/-- The automaton after a change, and how the change ended. -/
def Change.apply (m : Automaton α) : Change α → Automaton α × Outcome α
  | edit op =>
    match m.perform op with
    | .ok m' => (m', .answer (answerTo m op))
    | .error f => (m, .fault f)
  | addStates count =>
    let r := Session.addStates m count
    (r.1, .answer (.state r.2))
  | chain first count x =>
    let r := addChain x count first m
    (r.1, .ofExcept (fun _ => .done) r.2)

end FiniteAutomata.Session
