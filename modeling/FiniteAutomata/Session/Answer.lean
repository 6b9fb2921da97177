import FiniteAutomata.View

namespace FiniteAutomata.Session

/-- What can be seen of an automaton, and whether it is deterministic. -/
structure Snapshot (α : Type) where
  content : View α
  deterministic : Bool

def Snapshot.take {α : Type} [DecidableEq α] (m : Automaton α) : Snapshot α :=
  ⟨m.view, m.isDeterministic⟩

/-- The answers of commands that succeed, by what they hold. -/
inductive Answer (α : Type) where
  | done
  | truth (b : Bool)
  | count (n : Nat)
  | state (id : Option StateId)
  | name (name : Option String)
  | set (s : StateSet)
  | names (states : List (StateId × String))
  | symbols (alphabet : List α)
  | byLabel (entries : List (Label α × StateSet))
  | byState (entries : List (StateId × StateSet))
  | edges (edges : List (Edge α))
  | verdicts (each : List (Except (Fault α) Bool))
  | profile (byLength : List (List Bool))
  | snapshot (s : Snapshot α)

/-- How a command ends. `unbound` is the end of a command that names an automaton that the session
does not have. -/
inductive Outcome (α : Type) where
  | answer (a : Answer α)
  | fault (f : Fault α)
  | unbound

/-- An outcome, and the automaton concerned as it stands afterwards, where it was asked for. -/
structure Reply (α : Type) where
  outcome : Outcome α
  after : Option (Snapshot α)

def Outcome.ofExcept {α β : Type} (answer : β → Answer α) : Except (Fault α) β → Outcome α
  | .ok b => .answer (answer b)
  | .error f => .fault f

end FiniteAutomata.Session
