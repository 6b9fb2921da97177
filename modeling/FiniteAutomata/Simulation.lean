import FiniteAutomata.Closure

/-! A run ends as soon as no state is left, so a symbol outside the alphabet is a fault only where
some state was left to read it. -/
namespace FiniteAutomata.Automaton
variable {α : Type} [DecidableEq α]

def runFrom (m : Automaton α) : StateSet → List α → Except (Fault α) StateSet
  | s, [] => .ok s
  | s, a :: w => do
    let t ← m.moveOn s a
    if t.isEmpty then return t else m.runFrom t w

/-- The states reached from the initial state by reading a word. -/
def run (m : Automaton α) (w : List α) : Except (Fault α) StateSet := do
  let q ← m.findInitial
  m.runFrom (m.closureOf q) w

/-- Whether one of the states that the word leads to is final. -/
def accepts (m : Automaton α) (w : List α) : Except (Fault α) Bool := do
  return (← m.run w).meets m.finals

/-- For each length up to the bound, which words of that length over the alphabet are accepted, in
the order of `Alphabet.words`. -/
def languageProfile (m : Automaton α) (bound : Nat) : Except (Fault α) (List (List Bool)) :=
  (List.range (bound + 1)).mapM fun n => (m.alphabet.words n).mapM m.accepts

end FiniteAutomata.Automaton
