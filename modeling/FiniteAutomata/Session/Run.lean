import FiniteAutomata.Session.Change
import FiniteAutomata.Session.Query
import FiniteAutomata.Session.Recipe

/-! A command that fails does not stop the session. A traced session also shows the automaton that a
command made or changed; a change that was refused still shows it, a recipe that failed does not. -/
namespace FiniteAutomata.Session

inductive Command (α : Type) where
  | build (target : String) (recipe : Recipe α)
  | change (target : String) (change : Change α)
  | query (target : String) (query : Query α)

variable {α : Type} [DecidableEq α]

def snapshotIf (traced : Bool) (m : Automaton α) : Option (Snapshot α) :=
  if traced then some (.take m) else none

/-- The workspace after a command, and the reply. A command that fails to find or to make an
automaton leaves the workspace as it was. -/
def Command.execute (traced : Bool) (w : Workspace α) : Command α → Workspace α × Reply α
  | build target recipe =>
    match recipe.make w with
    | none => (w, ⟨.unbound, none⟩)
    | some (.error f) => (w, ⟨.fault f, none⟩)
    | some (.ok p) => (w.bind target p.automaton, ⟨.answer p.answer, snapshotIf traced p.automaton⟩)
  | change target c =>
    match w.find? target with
    | none => (w, ⟨.unbound, none⟩)
    | some m =>
      let r := c.apply m
      (w.bind target r.1, ⟨r.2, snapshotIf traced r.1⟩)
  | query target q =>
    match w.find? target with
    | none => (w, ⟨.unbound, none⟩)
    | some m => (w, ⟨q.ask m, none⟩)

def run (traced : Bool) (w : Workspace α) : List (Command α) → Workspace α × List (Reply α)
  | [] => (w, [])
  | c :: cs =>
    let (w₁, reply) := c.execute traced w
    let (w₂, replies) := run traced w₁ cs
    (w₂, reply :: replies)

end FiniteAutomata.Session
