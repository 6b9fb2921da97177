import FiniteAutomata.Proofs.Diagram

/-! What `build` makes of a diagram can be written without the checks (`automaton`), and then it
does not matter when a state is made, as long as it is there before the first edge that leaves it.
-/
namespace FiniteAutomata

namespace Automaton
variable {α : Type} {m : Automaton α} {p : StateId}

/-- Changing the edges of a state that is there commutes with making another one. -/
theorem modifyTransitions_addState (hp : p.toNat < m.slots.size) (i f : Bool)
    (name : Option String) (g : Transitions α → Transitions α) :
    (m.addState i f name).modifyTransitions p g = (m.modifyTransitions p g).addState i f name := by
  have hsize : (m.modifyTransitions p g).slots.size = m.slots.size :=
    (sameStates_modifyTransitions g).size
  have hnext : (m.modifyTransitions p g).nextId = m.nextId := by rw [nextId, hsize, nextId]
  rw [addState, addState, hnext, modifyTransitions, modify_push _ hp]
  rfl

end Automaton

namespace Diagram
open Automaton
variable {α : Type} [DecidableEq α] {m m' : Automaton α} {d : Diagram α} {edges : List (Edge α)}
  {q : StateId}

/-- Adds edges, without asking whether they fit. -/
def putEdges (m : Automaton α) (edges : List (Edge α)) : Automaton α :=
  edges.foldl (fun m e => m.modifyTransitions e.source (·.insert e.label e.target)) m

/-- The automaton that holds what a diagram lists. -/
def automaton (d : Diagram α) : Automaton α :=
  { putEdges (withNodes d.alphabet d.nodes) d.edges with initial := d.initial }

theorem sameStates_putEdges (m : Automaton α) (edges : List (Edge α)) :
    SameStates m (putEdges m edges) := by
  induction edges generalizing m with
  | nil => exact .refl m
  | cons e edges ih => exact (sameStates_modifyTransitions _).trans (ih _)

theorem eq_putEdges (h : addEdges m edges = .ok m') : m' = putEdges m edges := by
  induction edges generalizing m with
  | nil => exact (Except.ok.inj h).symm
  | cons e edges ih =>
    rw [addEdges, List.foldlM_cons] at h
    obtain ⟨m₁, hm₁, hm'⟩ := bind_eq_ok_iff.1 h
    obtain ⟨-, -, -, rfl⟩ := addTransition_eq_ok_iff.1 hm₁
    exact ih hm'

theorem putEdges_append (m : Automaton α) (before after : List (Edge α)) :
    putEdges m (before ++ after) = putEdges (putEdges m before) after :=
  List.foldl_append

theorem putEdges_initial (m : Automaton α) (i : Option StateId) (edges : List (Edge α)) :
    putEdges { m with initial := i } edges = { putEdges m edges with initial := i } := by
  induction edges generalizing m with
  | nil => rfl
  | cons e edges ih => exact ih (m.modifyTransitions e.source (·.insert e.label e.target))

theorem putEdges_automaton (d : Diagram α) (edges : List (Edge α)) :
    putEdges d.automaton edges = automaton { d with edges := d.edges ++ edges } := by
  rw [automaton, putEdges_initial, automaton, putEdges_append]

/-- What is built is the automaton, with an initial state or without. -/
theorem eq_automaton (h : d.build = .ok m) : m = d.automaton := by
  obtain ⟨m₁, hm₁, hm⟩ := bind_eq_ok_iff.1 h
  obtain rfl := eq_putEdges hm₁
  cases hi : d.initial with
  | some q =>
    rw [hi] at hm
    obtain ⟨-, rfl⟩ := setInitial_eq_ok_iff.1 hm
    rw [automaton, hi]
  | none =>
    rw [hi] at hm
    have hinitial := (sameStates_putEdges (withNodes d.alphabet d.nodes) d.edges).initial
    rw [initial_withNodes] at hinitial
    rw [automaton, hi, ← hinitial]
    exact (Except.ok.inj hm).symm

theorem Valid.build_eq (h : d.Valid) : d.build = .ok d.automaton := by
  obtain ⟨m, hm, -⟩ := h.exists_build
  rw [hm, eq_automaton hm]

theorem size_automaton (d : Diagram α) : d.automaton.slots.size = d.nodes.length :=
  (sameStates_putEdges _ _).size.trans (size_withNodes _ _)

theorem alphabet_automaton (d : Diagram α) : d.automaton.alphabet = d.alphabet :=
  (sameStates_putEdges _ _).alphabet.trans (alphabet_withNodes _ _)

theorem nextId_automaton (d : Diagram α) : d.automaton.nextId = UInt32.ofNat d.nodes.length := by
  rw [nextId, size_automaton]

theorem contains_automaton_iff (h : d.nodes.length ≤ UInt32.size) :
    d.automaton.contains q = true ↔ q.toNat < d.nodes.length := by
  have hsame := sameStates_putEdges (withNodes d.alphabet d.nodes) d.edges
  have hmade : d.automaton.contains q = (withNodes d.alphabet d.nodes).contains q :=
    hsame.contains q
  rw [hmade, (depicts_withNodes h).contains_iff]

theorem mem_finals_automaton_iff (h : d.nodes.length ≤ UInt32.size) :
    q ∈ d.automaton.finals ↔ ∃ n, d.nodes[q.toNat]? = some n ∧ n.isFinal = true := by
  have hsame := sameStates_putEdges (withNodes d.alphabet d.nodes) d.edges
  have hmade : d.automaton.finals = (withNodes d.alphabet d.nodes).finals := hsame.finals
  rw [hmade, mem_finals_withNodes h]

/-- Nodes that are not final give no final state. -/
theorem finals_automaton_eq_empty (h : d.nodes.length ≤ UInt32.size)
    (hnodes : ∀ n ∈ d.nodes, n.isFinal = false) : d.automaton.finals = ∅ := by
  ext q
  rw [mem_finals_automaton_iff h]
  constructor
  · rintro ⟨n, hn, hfinal⟩
    rw [hnodes n (List.mem_of_getElem? hn)] at hfinal
    cases hfinal
  · intro hq
    exact absurd hq (StateSet.not_mem_empty q)

theorem putEdges_addState (h : ∀ e ∈ edges, e.source.toNat < m.slots.size) (i f : Bool)
    (name : Option String) :
    putEdges (m.addState i f name) edges = (putEdges m edges).addState i f name := by
  induction edges generalizing m with
  | nil => rfl
  | cons e edges ih =>
    obtain ⟨he, hrest⟩ := List.forall_mem_cons.1 h
    have hsize := (sameStates_modifyTransitions (m := m) (p := e.source)
      (·.insert e.label e.target)).size
    rw [putEdges, List.foldl_cons, modifyTransitions_addState he]
    exact ih (hsize ▸ hrest)

/-- A node that joins the diagram is one more state. -/
theorem automaton_addNode (h : ∀ e ∈ d.edges, e.source.toNat < d.nodes.length) (n : Node) :
    automaton { d with nodes := d.nodes ++ [n] } = d.automaton.addState false n.isFinal n.name := by
  have hsources : ∀ e ∈ d.edges, e.source.toNat < (withNodes d.alphabet d.nodes).slots.size := by
    rwa [size_withNodes]
  simp only [automaton, withNodes_append_singleton, putEdges_addState hsources]
  rfl

/-- An edge that joins the diagram is one more edge, if its label and its ends are those of the
diagram. -/
theorem addTransition_automaton {e : Edge α} (fits : d.nodes.length ≤ UInt32.size)
    (hlabel : ∀ a, e.label = .literal a → a ∈ d.alphabet)
    (hsource : e.source.toNat < d.nodes.length) (htarget : e.target.toNat < d.nodes.length) :
    d.automaton.addTransition e.source e.label e.target =
      .ok (automaton { d with edges := d.edges ++ [e] }) := by
  refine addTransition_eq_ok_iff.2 ⟨checkLabel_eq_ok_iff.2 ?_,
    (contains_automaton_iff fits).2 htarget, (contains_automaton_iff fits).2 hsource, ?_⟩
  · rwa [alphabet_automaton]
  · simp only [automaton, putEdges, List.foldl_append]
    rfl

end Diagram
end FiniteAutomata
