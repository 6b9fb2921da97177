import FiniteAutomata.Regular.Assembly
import FiniteAutomata.Workload.Structured

namespace FiniteAutomata.Workload
open Automaton

/-- One more state after the last one of the chain, to which both digits lead. Its place in the
chain is one more than `i`, and it is final at place `n`. -/
def extendByDigit (n : Nat) (chain : Automaton Char × StateId) (i : Nat) :
    Except (Fault Char) (Automaton Char × StateId) := do
  let (out, current) := chain
  let next := out.nextId
  let out ← (out.addState false (i + 1 == n) none).addMultiple current
    [(.literal '0', next), (.literal '1', next)]
  return (out, next)

def assembleNthFromEnd (n : Nat) : Except (Fault Char) (Automaton Char) := do
  let out := empty binary
  let start := out.nextId
  let out ← (out.addState true false none).addMultiple start
    [(.literal '0', start), (.literal '1', start)]
  let current := out.nextId
  let out ← (out.addState false (n ≤ 1) none).addTransition start (.literal '1') current
  let (out, _) ← (List.range' 1 (n - 1)).foldlM (extendByDigit n) (out, current)
  return out

/-- Each keyword is put together when its turn comes, so none after a refused one is looked at. -/
def assembleKeywordLoop : List (List Char) → Except (Fault Char) (Automaton Char)
  | [] => do (← assembleWord keywordAlphabet []).assembleStar
  | first :: rest => do
    let combined ← rest.foldlM
      (fun combined w => do combined.assembleUnion (← assembleWord keywordAlphabet w))
      (← assembleWord keywordAlphabet first)
    combined.assembleStar

end FiniteAutomata.Workload
