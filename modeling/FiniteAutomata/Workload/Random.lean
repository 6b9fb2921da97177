import FiniteAutomata.Simulation
import FiniteAutomata.View
import FiniteAutomata.Workload.Structured

namespace FiniteAutomata.Workload

/-- A source of random draws, with a state that each draw changes. -/
structure DrawSource (σ : Type) where
  below : Nat → StateM σ Nat
  /-- True with a chance given in percent. -/
  percent : Nat → StateM σ Bool
  below_lt : ∀ n s, 0 < n → ((below n).run s).1 < n

variable {σ : Type}

def drawDigit (source : DrawSource σ) : StateM σ Char := do
  let k ← source.below 2
  return if k = 0 then '0' else '1'

/-- An edge on a binary digit to one of the states. -/
def drawLiteralEdge (source : DrawSource σ) (count : Nat) (p : StateId) :
    StateM σ (Edge Char) := do
  let q ← source.below count
  let a ← drawDigit source
  return ⟨p, .literal a, UInt32.ofNat q⟩

/-- Three literal edges, and an epsilon edge with a chance of fifteen in a hundred. -/
def drawEdges (source : DrawSource σ) (count : Nat) (p : StateId) :
    StateM σ (List (Edge Char)) := do
  let e₁ ← drawLiteralEdge source count p
  let e₂ ← drawLiteralEdge source count p
  let e₃ ← drawLiteralEdge source count p
  if ← source.percent 15 then
    let q ← source.below count
    return [e₁, e₂, e₃, Edge.epsilon p (UInt32.ofNat q)]
  else
    return [e₁, e₂, e₃]

/-- At least one state is asked for; the number is cut to the 32 bits of a state's number. -/
def randomCount (n : Nat) : Nat := (UInt32.ofNat (max n 1)).toNat

/-- The first state is initial, and each is final with a chance of one in five. -/
def randomDiagram (source : DrawSource σ) (n : Nat) : StateM σ (Diagram Char) := do
  let count := randomCount n
  let nodes ← (List.range count).mapM fun _ => do
    return Node.mk none (← source.percent 20)
  let edges ← (List.range count).mapM fun p => drawEdges source count (UInt32.ofNat p)
  return ⟨binary, nodes, if count = 0 then none else some 0, edges.flatten⟩

def randomAutomaton (source : DrawSource σ) (n : Nat) (seed : σ) :
    Except (Fault Char) (Automaton Char) :=
  ((randomDiagram source n).run seed).1.build

def randomWord (source : DrawSource σ) (length : Nat) (seed : σ) : List Char :=
  (((List.range length).mapM fun _ => drawDigit source).run seed).1

/-- A counter that goes up in steps of an odd constant, each value mixed by shifts and products. -/
def mixedDraw (s : UInt64) : UInt64 × UInt64 :=
  let s := s + 0x9e3779b97f4a7c15
  let z := (s ^^^ (s >>> 30)) * 0xbf58476d1ce4e5b9
  let z := (z ^^^ (z >>> 27)) * 0x94d049bb133111eb
  (z ^^^ (z >>> 31), s)

def mixedSource : DrawSource UInt64 where
  below n s := ((mixedDraw s).1.toNat % n, (mixedDraw s).2)
  percent p s := ((mixedDraw s).1.toNat % 100 < p, (mixedDraw s).2)
  below_lt _ _ h := Nat.mod_lt _ h

/-- What holds of a random automaton and a random word whatever the source draws. -/
structure Survey where
  states : List (StateId × String)
  initial : Option StateId
  alphabet : List Char
  oneToThreeLiterals : Bool
  atMostOneEpsilon : Bool
  sameAgain : Bool
  wordLength : Nat
  wordIsBinary : Bool
  acceptsAnswers : Bool

/-- Draws an automaton and a word, each twice. Unless said otherwise, they have one size. -/
def survey (n : Nat) (seed : UInt64) (length : Nat := n) : Except (Fault Char) Survey := do
  let m ← randomAutomaton mixedSource n seed
  let again ← randomAutomaton mixedSource n seed
  let w := randomWord mixedSource length seed
  return {
    states := m.states
    initial := m.initial
    alphabet := m.alphabet.symbols
    oneToThreeLiterals := m.liveStates.all fun s =>
      let d := s.2.transitions.degree fun x => !x.isEpsilon
      1 ≤ d && d ≤ 3
    atMostOneEpsilon := m.liveStates.all fun s => s.2.transitions.degree Label.isEpsilon ≤ 1
    sameAgain := m.view = again.view && w = randomWord mixedSource length seed
    wordLength := w.length
    wordIsBinary := w.all (· ∈ binary)
    acceptsAnswers := (m.accepts w).isOk }

end FiniteAutomata.Workload
