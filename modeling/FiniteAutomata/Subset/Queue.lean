import FiniteAutomata.Subset.Determinize

/-! The conversion as a loop that makes states and edges while it discovers the subsets: a table
holds the subsets found, with the state made for each, and a queue the states that are still to be
expanded. There is no limit on the states here. -/
namespace FiniteAutomata

/-- A conversion under way. -/
structure Construction (α : Type) where
  dfa : Automaton α
  /-- The subsets found, in the order in which they were. -/
  table : List (StateSet × StateId)
  queue : List (StateId × StateSet)

namespace Construction
variable {α : Type}

/-- Makes the state of a subset, and puts it at the end of the queue. -/
def allocate (m : Automaton α) (c : Construction α) (t : StateSet) : Construction α × StateId :=
  let q := c.dfa.nextId
  (⟨c.dfa.addState false (t.meets m.finals) (some (subsetName t.toList)),
    c.table ++ [(t, q)], c.queue ++ [(q, t)]⟩, q)

/-- The state of a subset, which is made if there is none. -/
def stateFor (m : Automaton α) (c : Construction α) (t : StateSet) : Construction α × StateId :=
  match c.table.lookup t with
  | some q => (c, q)
  | none => c.allocate m t

variable [DecidableEq α]

/-- The closure of the initial state has its state in the queue, and that one is initial. -/
def start (m : Automaton α) : Except (Fault α) (Construction α) := do
  let i ← m.findInitial
  let (c, q) := allocate m ⟨.empty m.alphabet, [], []⟩ (m.closureOf i)
  return { c with dfa := ← c.dfa.setInitial q }

/-- Adds the edge on one symbol that leaves the state `p` of the subset `s`. -/
def visit (m : Automaton α) (p : StateId) (s : StateSet) (c : Construction α) (a : α) :
    Except (Fault α) (Construction α) := do
  let t ← m.moveOn s a
  let (c, q) := c.stateFor m t
  return { c with dfa := ← c.dfa.addTransition p (.literal a) q }

/-- Adds all edges that leave the state `p` of the subset `s`. -/
def expand (m : Automaton α) (p : StateId) (s : StateSet) (c : Construction α) :
    Except (Fault α) (Construction α) :=
  m.alphabet.symbols.foldlM (visit m p s) c

/-- The loop, from one conversion under way to the end of the queue: what joins the queue, and what
is taken from its front and expanded, both in order. A fault in an expansion is no end. -/
inductive Runs (m : Automaton α) : Construction α → List (StateId × StateSet) →
    List (StateId × StateSet) → Construction α → Prop
  | done {c : Construction α} (empty : c.queue = []) : Runs m c [] [] c
  | next {c c' c'' : Construction α} {p : StateId} {s : StateSet}
      {rest joining enqueued expanded : List (StateId × StateSet)}
      (front : c.queue = (p, s) :: rest)
      (expands : expand m p s { c with queue := rest } = .ok c')
      (joins : c'.queue = rest ++ joining)
      (runs : Runs m c' enqueued expanded c'') :
      Runs m c (joining ++ enqueued) ((p, s) :: expanded) c''

/-- From where it starts, the loop can only go one way. -/
theorem Runs.unique {m : Automaton α} {c c₁ c₂ : Construction α}
    {enqueued₁ expanded₁ enqueued₂ expanded₂ : List (StateId × StateSet)}
    (h₁ : Runs m c enqueued₁ expanded₁ c₁) (h₂ : Runs m c enqueued₂ expanded₂ c₂) :
    enqueued₁ = enqueued₂ ∧ expanded₁ = expanded₂ ∧ c₁ = c₂ := by
  induction h₁ generalizing enqueued₂ expanded₂ c₂ with
  | done empty =>
    cases h₂ with
    | done => exact ⟨rfl, rfl, rfl⟩
    | next front => cases empty.symm.trans front
  | next front expands joins _ ih =>
    cases h₂ with
    | done empty => cases empty.symm.trans front
    | next front' expands' joins' runs' =>
      cases front.symm.trans front'
      obtain rfl := Except.ok.inj (expands.symm.trans expands')
      obtain rfl := List.append_cancel_left (joins.symm.trans joins')
      obtain ⟨rfl, rfl, rfl⟩ := ih runs'
      exact ⟨rfl, rfl, rfl⟩

end Construction
end FiniteAutomata
