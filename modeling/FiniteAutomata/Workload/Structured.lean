import FiniteAutomata.Regular

namespace FiniteAutomata.Workload

def binary : Alphabet Char := .ofList ['0', '1']

/-- The lower-case letters, then the two binary digits. -/
def keywordAlphabet : Alphabet Char := .ofList ("abcdefghijklmnopqrstuvwxyz01".toList)

def bothDigits (p onZero onOne : StateId) : List (Edge Char) :=
  [⟨p, .literal '0', onZero⟩, ⟨p, .literal '1', onOne⟩]

/-- Accepts the words with an even number of ones. -/
def parityDiagram : Diagram Char where
  alphabet := binary
  nodes := [⟨some "even", true⟩, ⟨some "odd", false⟩]
  initial := some 0
  edges := bothDigits 0 0 1 ++ bothDigits 1 1 0

def parity : Except (Fault Char) (Automaton Char) := parityDiagram.build

/-- Accepts the words whose `n`-th symbol from the end is a one: the start guesses that symbol, and
a chain reads the others. Zero counts as one. No deterministic automaton for it has fewer than two
to the power of `n` states. -/
def nthFromEndDiagram (n : Nat) : Diagram Char where
  alphabet := binary
  nodes := List.replicate (max n 1) ⟨none, false⟩ ++ [⟨none, true⟩]
  initial := some 0
  edges := bothDigits 0 0 0 ++ [⟨0, .literal '1', 1⟩] ++
    (List.range' 1 (n - 1)).flatMap fun i =>
      bothDigits (UInt32.ofNat i) (UInt32.ofNat (i + 1)) (UInt32.ofNat (i + 1))

def nthFromEnd (n : Nat) : Except (Fault Char) (Automaton Char) := (nthFromEndDiagram n).build

def keyword (w : List Char) : Except (Fault Char) (Automaton Char) :=
  Automaton.ofWord keywordAlphabet w

/-- Accepts the keywords, of which there is at least one. The first that has a symbol outside the
alphabet is reported. -/
def oneKeyword (first : List Char) (rest : List (List Char)) :
    Except (Fault Char) (Automaton Char) := do
  rest.foldlM (fun m w => do m.union (← keyword w)) (← keyword first)

/-- Accepts any number of keywords, one after the other; without keywords the empty word only. -/
def keywordLoop : List (List Char) → Except (Fault Char) (Automaton Char)
  | [] => do (← keyword []).star
  | first :: rest => do (← oneKeyword first rest).star

end FiniteAutomata.Workload
