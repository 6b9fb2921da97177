import FiniteAutomata.Regular

/-! The regular operations on a growing automaton: the operands are copied into it one after the
other, and the copies are joined state by state and edge by edge. Each step can fault. -/
namespace FiniteAutomata

/-- The states that were copied, in order, each with its new number. -/
structure Renumbering where
  entries : List (StateId × StateId)

namespace Renumbering
variable {α : Type}

instance : EmptyCollection Renumbering := ⟨⟨[]⟩⟩

def add (t : Renumbering) (q r : StateId) : Renumbering := ⟨t.entries ++ [(q, r)]⟩

/-- The new number of a state. -/
def find (t : Renumbering) (q : StateId) : Except (Fault α) StateId :=
  match t.entries.lookup q with
  | some r => .ok r
  | none => .error (.unknownState q)

end Renumbering

namespace Automaton
variable {α : Type}

/-- Adds a state for each of the listed ones, under its name. -/
def copyStates (out : Automaton α) (states : List (StateId × String)) :
    Automaton α × Renumbering :=
  states.foldl (fun (out, t) s => (out.addState false false (some s.2), t.add s.1 out.nextId))
    (out, ∅)

variable [DecidableEq α]

/-- Copies the states of an operand, and then its edges. -/
def copyInto (out m : Automaton α) : Except (Fault α) (Automaton α × Renumbering) := do
  let (out, copy) := out.copyStates m.states
  let out ← m.transitions.foldlM (fun out e => do
    out.addTransition (← copy.find e.source) e.label (← copy.find e.target)) out
  return (out, copy)

/-- One more state after the last one of a chain, and the edge to it. -/
def extendChain (chain : Automaton α × StateId) (a : α) :
    Except (Fault α) (Automaton α × StateId) := do
  let (out, current) := chain
  let next := out.nextId
  let out ← (out.addState false false none).addTransition current (.literal a) next
  return (out, next)

def assembleWord (alphabet : Alphabet α) (w : List α) : Except (Fault α) (Automaton α) := do
  let out := empty alphabet
  let start := out.nextId
  let (out, current) ← w.foldlM extendChain (out.addState true false none, start)
  out.markFinal current

def assembleConcat (a b : Automaton α) : Except (Fault α) (Automaton α) := do
  let (i, j) ← a.findOperands b
  let (out, first) ← (empty a.alphabet).copyInto a
  let (out, second) ← out.copyInto b
  let out ← out.setInitial (← first.find i)
  let bridge ← second.find j
  let out ← a.finals.toList.foldlM (fun out p => do out.addEpsilon (← first.find p) bridge) out
  b.finals.toList.foldlM (fun out p => do out.markFinal (← second.find p)) out

def assembleUnion (a b : Automaton α) : Except (Fault α) (Automaton α) := do
  let (i, j) ← a.findOperands b
  let (out, first) ← (empty a.alphabet).copyInto a
  let (out, second) ← out.copyInto b
  let start := out.nextId
  let out := out.addState true false none
  let accept := out.nextId
  let out := out.addState false true none
  let out ← out.addEpsilon start (← first.find i)
  let out ← out.addEpsilon start (← second.find j)
  let out ← a.finals.toList.foldlM (fun out p => do out.addEpsilon (← first.find p) accept) out
  b.finals.toList.foldlM (fun out p => do out.addEpsilon (← second.find p) accept) out

def assembleStar (a : Automaton α) : Except (Fault α) (Automaton α) := do
  let i ← a.findInitial
  let (out, inner) ← (empty a.alphabet).copyInto a
  let start := out.nextId
  let out := out.addState true false none
  let accept := out.nextId
  let out := out.addState false true none
  let head ← inner.find i
  let out ← out.addEpsilon start head
  let out ← out.addEpsilon start accept
  a.finals.toList.foldlM (fun out p => do
    let p ← inner.find p
    let out ← out.addEpsilon p head
    out.addEpsilon p accept) out

end Automaton
end FiniteAutomata
