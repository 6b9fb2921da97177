import FiniteAutomata.Regular
import FiniteAutomata.Session.Answer
import FiniteAutomata.Subset.Determinize

namespace FiniteAutomata.Session

structure Workspace (α : Type) where
  /-- Each name once. -/
  bindings : List (String × Automaton α)

namespace Workspace
variable {α : Type}

instance : EmptyCollection (Workspace α) := ⟨⟨[]⟩⟩

def find? (w : Workspace α) (name : String) : Option (Automaton α) := w.bindings.lookup name

/-- Gives the name to an automaton and takes it from the one that had it. -/
def bind (w : Workspace α) (name : String) (m : Automaton α) : Workspace α :=
  ⟨(name, m) :: w.bindings.filter (·.1 ≠ name)⟩

end Workspace

/-- How a new automaton is made. Operands are given by name. -/
inductive Recipe (α : Type) where
  | empty (alphabet : List α)
  | word (alphabet word : List α)
  | copy (source : String)
  | concat (first second : String)
  | union (first second : String)
  | star (source : String)
  | toDfa (source : String)
  | determinize (source : String) (limit : Nat)
  /-- An automaton that was made elsewhere. -/
  | given (made : Except (Fault α) (Automaton α))

/-- What a recipe makes, and what is answered if it succeeds. -/
structure Product (α : Type) where
  automaton : Automaton α
  answer : Answer α

variable {α : Type} [DecidableEq α]

/-- Answered with the number of states. -/
def Product.counted (m : Automaton α) : Product α := ⟨m, .count m.stateCount⟩

/-- `none` if an operand is missing. -/
def Recipe.make (w : Workspace α) : Recipe α → Option (Except (Fault α) (Product α))
  | empty alphabet => some (.ok (.counted (.empty (.ofList alphabet))))
  | word alphabet v => some ((Automaton.ofWord (.ofList alphabet) v).map .counted)
  | copy source => (w.find? source).map fun m => .ok (.counted m)
  | concat first second => do
    let a ← w.find? first
    let b ← w.find? second
    return (a.concat b).map .counted
  | union first second => do
    let a ← w.find? first
    let b ← w.find? second
    return (a.union b).map .counted
  | star source => (w.find? source).map fun m => m.star.map .counted
  | toDfa source => (w.find? source).map fun m => m.toDfa.map .counted
  | determinize source limit => (w.find? source).map fun m =>
    (m.determinize limit).map fun d => ⟨d.dfa, .byState d.stateMapping⟩
  | given made => some (made.map .counted)

end FiniteAutomata.Session
