import FiniteAutomata.Workload.Random

namespace FiniteAutomata.Workload

/-- A computation that draws and that can fault. What has been drawn by then stays drawn. -/
abbrev Drawing (σ β : Type) := ExceptT (Fault Char) (StateM σ) β

variable {σ : Type}

/-- The first state is initial. -/
def addDrawnState (source : DrawSource σ) (out : Automaton Char) (k : Nat) :
    Drawing σ (Automaton Char) := do
  let isFinal ← source.percent 20
  return out.addState (k == 0) isFinal none

def addDrawnLiteral (source : DrawSource σ) (count : Nat) (p : StateId) (out : Automaton Char) :
    Drawing σ (Automaton Char) := do
  let q ← source.below count
  let a ← drawDigit source
  out.addTransition p (.literal a) (UInt32.ofNat q)

/-- All edges that leave one state. -/
def addDrawnEdges (source : DrawSource σ) (count : Nat) (out : Automaton Char) (k : Nat) :
    Drawing σ (Automaton Char) := do
  let p := UInt32.ofNat k
  let out ← (List.range 3).foldlM (fun out _ => addDrawnLiteral source count p out) out
  if ← source.percent 15 then
    let q ← source.below count
    out.addEpsilon p (UInt32.ofNat q)
  else
    return out

def assembleDrawn (source : DrawSource σ) (n : Nat) : Drawing σ (Automaton Char) := do
  let count := randomCount n
  let out ← (List.range count).foldlM (addDrawnState source) (.empty binary)
  (List.range count).foldlM (addDrawnEdges source count) out

def assembleRandomAutomaton (source : DrawSource σ) (n : Nat) (seed : σ) :
    Except (Fault Char) (Automaton Char) :=
  ((assembleDrawn source n).run.run seed).1

end FiniteAutomata.Workload
