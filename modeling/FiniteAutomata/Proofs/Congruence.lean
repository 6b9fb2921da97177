import FiniteAutomata.Proofs.Concat
import FiniteAutomata.Proofs.Content
import FiniteAutomata.Proofs.Discovery
import FiniteAutomata.Proofs.Star
import FiniteAutomata.Proofs.Union

/-! An operation on automata that are alike gives automata that are alike, or the same fault:
diagrams that differ in the order of their edges only build the same, and a conversion goes by the
steps. -/
namespace FiniteAutomata
variable {α : Type}

/-- Automata with the same content, or the same fault. -/
def Automaton.SameOutcome : Except (Fault α) (Automaton α) → Except (Fault α) (Automaton α) → Prop
  | .ok m, .ok m' => m.SameContent m'
  | .error f, .error f' => f' = f
  | _, _ => False

namespace Diagram

/-- The diagrams list the same edges, perhaps not in the same order, and agree in all else. -/
structure Agrees (d d' : Diagram α) : Prop where
  alphabet : d'.alphabet = d.alphabet
  nodes : d'.nodes = d.nodes
  initial : d'.initial = d.initial
  edges : ∀ e, e ∈ d'.edges ↔ e ∈ d.edges

namespace Agrees
variable {d d' : Diagram α} {m m' : Automaton α}

theorem valid (h : d.Agrees d') (hd : d.Valid) : d'.Valid where
  fits := by
    rw [h.nodes]
    exact hd.fits
  ends_lt he := by
    rw [h.nodes]
    exact hd.ends_lt ((h.edges _).1 he)
  label_valid he := by
    rw [h.alphabet]
    exact hd.label_valid ((h.edges _).1 he)
  initial_lt hq := by
    rw [h.nodes]
    exact hd.initial_lt (h.initial ▸ hq)

variable [DecidableEq α]

theorem sameContent (h : d.Agrees d') (hm : d.Depicts m) (hm' : d'.Depicts m')
    (fits : d.nodes.length ≤ UInt32.size) : m.SameContent m' := by
  have hsize : m.slots.size ≤ UInt32.size := hm.size.trans_le fits
  have hsize' : m'.slots.size ≤ UInt32.size := by rwa [hm'.size, h.nodes]
  refine ⟨?_, fun s => ?_, ?_, ?_, fun e => ?_⟩
  · rw [hm'.alphabet, h.alphabet, hm.alphabet]
  · obtain ⟨q, name⟩ := s
    rw [Automaton.mem_states_iff hsize', Automaton.mem_states_iff hsize, hm'.name?, h.nodes,
      hm.name?]
  · rw [hm'.initial, h.initial, hm.initial]
  · ext q
    rw [hm'.mem_finals, h.nodes, hm.mem_finals]
  · obtain ⟨p, x, q⟩ := e
    rw [hm'.mem_transitions_iff hsize', h.edges, hm.mem_transitions_iff hsize]

theorem sameOutcome (h : d.Agrees d') (hd : d.Valid) :
    Automaton.SameOutcome d.build d'.build := by
  obtain ⟨m, hbuild, hm, -⟩ := hd.build
  obtain ⟨m', hbuild', hm', -⟩ := (h.valid hd).build
  rw [hbuild, hbuild']
  exact h.sameContent hm hm' hd.fits

end Agrees
end Diagram

namespace Automaton
variable [DecidableEq α] {a a' b b' m m' : Automaton α} {i j : StateId} {limit next : Nat}

namespace Alike

theorem renumbered_eq (h : m.Alike m') (offset : Nat) :
    m'.renumbered offset = m.renumbered offset := by
  funext q
  rw [renumbered, renumbered, h.stateIds_eq]

theorem mem_copiedEdges_iff (h : m.Alike m') {offset : Nat} {e : Edge α} :
    e ∈ m'.copiedEdges offset ↔ e ∈ m.copiedEdges offset := by
  simp only [copiedEdges, List.mem_map, h.transitions, h.renumbered_eq]

theorem innerNodes_eq (h : m.Alike m') : m'.innerNodes = m.innerNodes := by
  rw [innerNodes, innerNodes, h.states_eq]

theorem nodes_eq (h : m.Alike m') : m'.nodes = m.nodes := by
  simp only [nodes, isFinal, h.states_eq, h.finals]

theorem starDiagram (h : a.Alike a') (i : StateId) :
    (a.starDiagram i).Agrees (a'.starDiagram i) where
  alphabet := h.alphabet
  nodes := by rw [Automaton.starDiagram, Automaton.starDiagram, h.innerNodes_eq]
  initial := by rw [Automaton.starDiagram, Automaton.starDiagram, h.stateCount_eq]
  edges e := by
    simp only [Automaton.starDiagram, List.mem_append, h.mem_copiedEdges_iff, h.stateCount_eq,
      h.renumbered_eq, h.finals]

theorem concatDiagram (ha : a.Alike a') (hb : b.Alike b') (i j : StateId) :
    (a.concatDiagram b i j).Agrees (a'.concatDiagram b' i j) where
  alphabet := ha.alphabet
  nodes := by
    rw [Automaton.concatDiagram, Automaton.concatDiagram, ha.innerNodes_eq, hb.nodes_eq]
  initial := by rw [Automaton.concatDiagram, Automaton.concatDiagram, ha.renumbered_eq]
  edges e := by
    simp only [Automaton.concatDiagram, List.mem_append, ha.mem_copiedEdges_iff,
      hb.mem_copiedEdges_iff, ha.stateCount_eq, ha.renumbered_eq, hb.renumbered_eq, ha.finals]

theorem unionDiagram (ha : a.Alike a') (hb : b.Alike b') (i j : StateId) :
    (a.unionDiagram b i j).Agrees (a'.unionDiagram b' i j) where
  alphabet := ha.alphabet
  nodes := by
    rw [Automaton.unionDiagram, Automaton.unionDiagram, ha.innerNodes_eq, hb.innerNodes_eq]
  initial := by
    rw [Automaton.unionDiagram, Automaton.unionDiagram, ha.stateCount_eq, hb.stateCount_eq]
  edges e := by
    simp only [Automaton.unionDiagram, List.mem_append, ha.mem_copiedEdges_iff,
      hb.mem_copiedEdges_iff, ha.stateCount_eq, hb.stateCount_eq, ha.renumbered_eq,
      hb.renumbered_eq, ha.finals, hb.finals]

theorem star (h : a.Alike a') (fits : a.stateCount + 2 ≤ UInt32.size) :
    SameOutcome a.star a'.star := by
  have hinitial : a'.findInitial = a.findInitial := by rw [findInitial, findInitial, h.initial]
  rw [Automaton.star, Automaton.star, hinitial]
  cases hi : a.findInitial with
  | error f => rfl
  | ok i =>
    have hvalid := valid_starDiagram h.first (findInitial_eq_ok_iff.1 hi) fits
    exact (h.starDiagram i).sameOutcome hvalid

theorem findOperands_eq (ha : a.Alike a') (hb : b.Alike b') :
    a'.findOperands b' = a.findOperands b := by
  simp only [findOperands, findInitial, ha.alphabet, hb.alphabet, ha.initial, hb.initial]

theorem concat (ha : a.Alike a') (hb : b.Alike b')
    (fits : a.stateCount + b.stateCount ≤ UInt32.size) :
    SameOutcome (a.concat b) (a'.concat b') := by
  rw [Automaton.concat, Automaton.concat, findOperands_eq ha hb]
  cases hij : a.findOperands b with
  | error f => rfl
  | ok ij =>
    obtain ⟨i, j⟩ := ij
    obtain ⟨hab, hi, hj⟩ := findOperands_eq_ok_iff.1 hij
    have hvalid := valid_concatDiagram ha.first hb.first hi hj hab fits
    exact (concatDiagram ha hb i j).sameOutcome hvalid

theorem union (ha : a.Alike a') (hb : b.Alike b')
    (fits : a.stateCount + b.stateCount + 2 ≤ UInt32.size) :
    SameOutcome (a.union b) (a'.union b') := by
  rw [Automaton.union, Automaton.union, findOperands_eq ha hb]
  cases hij : a.findOperands b with
  | error f => rfl
  | ok ij =>
    obtain ⟨i, j⟩ := ij
    obtain ⟨hab, hi, hj⟩ := findOperands_eq_ok_iff.1 hij
    have hvalid := valid_unionDiagram ha.first hb.first hi hj hab fits
    exact (unionDiagram ha hb i j).sameOutcome hvalid

theorem explore_eq (h : m.Alike m') (limit : Nat) (found : List StateSet) (next : Nat) :
    m'.explore limit found next = m.explore limit found next := by
  have hsteps : ∀ found s, m'.discoverSteps limit found s = m.discoverSteps limit found s := by
    intro found s
    have hstep : m'.step s = m.step s := funext (h.step_eq s)
    rw [discoverSteps, discoverSteps, h.alphabet, hstep]
  -- termination rests on the edges of each automaton, so the recursions are unfolded one by one
  fun_induction Automaton.explore m limit found next with
  | case1 found next hnext mid hmid ih =>
    rw [explore_of_lt hnext, hsteps, hmid]
    exact ih
  | case2 found next hnext fault hfault =>
    rw [explore_of_lt hnext, hsteps, hfault]
    rfl
  | case3 found next hnext => rw [Automaton.explore, dif_neg hnext]

theorem reachedSubsets_eq (h : m.Alike m') (limit : Nat) :
    m'.reachedSubsets limit = m.reachedSubsets limit := by
  simp only [reachedSubsets, findInitial, h.initial, closureOf, h.closure_eq, h.explore_eq]

theorem subsetDiagram_eq (h : m.Alike m') (found : List StateSet) :
    m'.subsetDiagram found = m.subsetDiagram found := by
  have hedges : m'.subsetEdges found = m.subsetEdges found := by
    funext s k
    simp only [subsetEdges, h.alphabet, h.step_eq]
  rw [subsetDiagram, subsetDiagram, h.alphabet, h.finals, hedges]

theorem determinize_eq (h : m.Alike m') (limit : Nat) :
    m'.determinize limit = m.determinize limit := by
  simp only [determinize, h.reachedSubsets_eq, h.subsetDiagram_eq]

end Alike

/-- The same results of all operations, alone and together with a third automaton, as long as there
are numbers for the states. A conversion gives the same automaton in every respect. -/
structure SameResults (m m' : Automaton α) : Prop where
  star : m.stateCount + 2 ≤ UInt32.size → SameOutcome m.star m'.star
  concat : ∀ {c : Automaton α}, c.Reachable → m.stateCount + c.stateCount ≤ UInt32.size →
    SameOutcome (m.concat c) (m'.concat c) ∧ SameOutcome (c.concat m) (c.concat m')
  union : ∀ {c : Automaton α}, c.Reachable → m.stateCount + c.stateCount + 2 ≤ UInt32.size →
    SameOutcome (m.union c) (m'.union c) ∧ SameOutcome (c.union m) (c.union m')
  determinize : ∀ limit, m'.determinize limit = m.determinize limit

theorem Alike.sameResults (h : m.Alike m') : m.SameResults m' where
  star := h.star
  concat hc fits := by
    have hself := hc.alike_self
    exact ⟨h.concat hself fits, hself.concat h (by omega)⟩
  union hc fits := by
    have hself := hc.alike_self
    exact ⟨h.union hself fits, hself.union h (by omega)⟩
  determinize := h.determinize_eq

/-- Automata with the same content cannot be told apart, however they were built: queries and runs
give the same answers, and operations the same results. -/
theorem answers_and_results_by_content (hm : m.Reachable) (hm' : m'.Reachable)
    (h : m.SameContent m') : m.SameAnswers m' ∧ m.SameResults m' :=
  ⟨(h.alike hm hm').sameAnswers, (h.alike hm hm').sameResults⟩

/-- The states and edges of `epsilonCycle` in another order, beside another removed state. -/
def otherHistory : Automaton Bool :=
  (empty epsilonCycle.alphabet).afterAll
    [.addState false false none, .addState false true none, .addState false true none,
      .addState true false none, .addTransition 2 (.literal true) 2, .addEpsilon 2 0,
      .addEpsilon 3 2, .addEpsilon 0 2, .removeState 3, .removeState 1, .setInitial 0]

theorem answers_and_results_by_content_of_a_cycle :
    epsilonCycle.Reachable ∧ otherHistory.Reachable ∧ epsilonCycle.SameContent otherHistory ∧
      epsilonCycle.SameAnswers otherHistory ∧ epsilonCycle.SameResults otherHistory := by
  have hother : otherHistory.Reachable := .afterAll (.empty _) _ (by decide +kernel)
  have halphabet : otherHistory.alphabet = epsilonCycle.alphabet := alphabet_afterAll _ _
  have hstates : otherHistory.states = epsilonCycle.states := by decide +kernel
  have hedges : otherHistory.transitions.Perm epsilonCycle.transitions := by decide +kernel
  have hcontent : epsilonCycle.SameContent otherHistory := by
    refine ⟨halphabet, fun s => ?_, by decide +kernel, by decide +kernel, fun e => hedges.mem_iff⟩
    rw [hstates]
  exact ⟨reachable_epsilonCycle, hother, hcontent,
    answers_and_results_by_content reachable_epsilonCycle hother hcontent⟩

end Automaton
end FiniteAutomata
