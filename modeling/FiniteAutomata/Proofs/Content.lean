import FiniteAutomata.Proofs.Queries
import FiniteAutomata.Proofs.Simulation

namespace FiniteAutomata.Automaton
variable {α : Type} [DecidableEq α] {m m' : Automaton α} {p q : StateId} {s : StateSet}

/-- The same alphabet in the same order, the same states and names, marks and edges. -/
structure SameContent (m m' : Automaton α) : Prop where
  alphabet : m'.alphabet = m.alphabet
  states : ∀ s, s ∈ m'.states ↔ s ∈ m.states
  initial : m'.initial = m.initial
  finals : m'.finals = m.finals
  transitions : ∀ e, e ∈ m'.transitions ↔ e ∈ m.transitions

/-- Two well-formed automata that have the same content. -/
structure Alike (m m' : Automaton α) : Prop extends SameContent m m' where
  first : m.WellFormed
  second : m'.WellFormed

/-- The same answer to every query and the same end of every run. A table of edges is compared as a
map from labels to sets of targets. -/
structure SameAnswers (m m' : Automaton α) : Prop where
  contains : ∀ q, m'.contains q = m.contains q
  name? : ∀ q, m'.name? q = m.name? q
  states : m'.states = m.states
  stateCount : m'.stateCount = m.stateCount
  isFinal : ∀ q, m'.isFinal q = m.isFinal q
  delta : ∀ p x, m'.delta p x = m.delta p x
  transitionsFrom : ∀ p,
    (m'.transitionsFrom p).map Transitions.find? = (m.transitionsFrom p).map Transitions.find?
  transitionsOn : ∀ x, m'.transitionsOn x = m.transitionsOn x
  hasTransition : ∀ p x q, m'.hasTransition p x q = m.hasTransition p x q
  hasAnyTransition : ∀ p q, m'.hasAnyTransition p q = m.hasAnyTransition p q
  isDeterministic : m'.isDeterministic = m.isDeterministic
  closure : ∀ s, m'.closure s = m.closure s
  moveOn : ∀ s a, m'.moveOn s a = m.moveOn s a
  run : ∀ w, m'.run w = m.run w
  accepts : ∀ w, m'.accepts w = m.accepts w

omit [DecidableEq α] in
theorem SameContent.refl (m : Automaton α) : m.SameContent m :=
  ⟨rfl, fun _ => Iff.rfl, rfl, rfl, fun _ => Iff.rfl⟩

theorem SameContent.alike (h : m.SameContent m') (hm : m.Reachable) (hm' : m'.Reachable) :
    m.Alike m' :=
  { h with first := hm.wellFormed, second := hm'.wellFormed }

theorem Reachable.alike_self (hm : m.Reachable) : m.Alike m :=
  (SameContent.refl m).alike hm hm

namespace Alike

theorem name?_eq (h : m.Alike m') (q : StateId) : m'.name? q = m.name? q := by
  refine Option.ext fun name => ?_
  rw [← mem_states_iff h.second.fits, h.states, mem_states_iff h.first.fits]

theorem contains_eq (h : m.Alike m') (q : StateId) : m'.contains q = m.contains q := by
  rw [← isSome_name?, h.name?_eq, isSome_name?]

theorem stateIds_eq (h : m.Alike m') : m'.stateIds = m.stateIds := by
  refine Automaton.stateIds_eq h.second.fits (stateIds_ascending h.first.fits) fun q => ?_
  rw [mem_stateIds_iff h.first.fits, h.contains_eq]

theorem states_eq (h : m.Alike m') : m'.states = m.states := by
  rw [states_eq_map h.second.fits, states_eq_map h.first.fits, h.stateIds_eq]
  exact List.map_congr_left fun q _ => by rw [h.name?_eq]

theorem stateCount_eq (h : m.Alike m') : m'.stateCount = m.stateCount := by
  rw [← length_stateIds, h.stateIds_eq, length_stateIds]

theorem destinations_eq (h : m.Alike m') (p : StateId) (x : Label α) :
    m'.destinations p x = m.destinations p x := by
  ext q
  rw [← mem_transitions_iff h.second.fits, h.transitions, mem_transitions_iff h.first.fits]

theorem checkLabel_eq (h : m.Alike m') (x : Label α) : m'.checkLabel x = m.checkLabel x :=
  checkLabel_congr h.alphabet x

theorem delta_eq (h : m.Alike m') (p : StateId) (x : Label α) : m'.delta p x = m.delta p x := by
  rw [Automaton.delta_eq, Automaton.delta_eq, h.checkLabel_eq, h.contains_eq, h.destinations_eq]

theorem transitionsFrom_eq (h : m.Alike m') (p : StateId) :
    (m'.transitionsFrom p).map Transitions.find? = (m.transitionsFrom p).map Transitions.find? := by
  simp only [Automaton.transitionsFrom_eq h.second, Automaton.transitionsFrom_eq h.first,
    h.contains_eq, h.destinations_eq]

theorem transitionsOn_eq (h : m.Alike m') (x : Label α) :
    m'.transitionsOn x = m.transitionsOn x := by
  simp only [Automaton.transitionsOn_eq h.second, Automaton.transitionsOn_eq h.first,
    h.checkLabel_eq, h.stateIds_eq, h.destinations_eq]

theorem hasTransition_eq (h : m.Alike m') (p : StateId) (x : Label α) (q : StateId) :
    m'.hasTransition p x q = m.hasTransition p x q := by
  rw [hasTransition, hasTransition, h.destinations_eq]

theorem hasAnyTransition_eq (h : m.Alike m') (p q : StateId) :
    m'.hasAnyTransition p q = m.hasAnyTransition p q := by
  rw [Bool.eq_iff_iff, hasAnyTransition_iff, hasAnyTransition_iff]
  simp only [h.destinations_eq]

theorem isDeterministic_eq (h : m.Alike m') : m'.isDeterministic = m.isDeterministic := by
  rw [Bool.eq_iff_iff, isDeterministic_iff h.second, isDeterministic_iff h.first]
  simp only [h.destinations_eq]

theorem closure_eq (h : m.Alike m') (s : StateSet) : m'.closure s = m.closure s :=
  closure_congr (fun p => h.destinations_eq p .epsilon) s

theorem step_eq (h : m.Alike m') (s : StateSet) (a : α) : m'.step s a = m.step s a := by
  rw [step, step, image, image, h.closure_eq, h.closure_eq]
  simp only [h.destinations_eq]

theorem moveOn_eq (h : m.Alike m') (s : StateSet) (a : α) : m'.moveOn s a = m.moveOn s a := by
  simp only [moveOn, checkSymbol, h.alphabet, h.step_eq]

theorem runFrom_eq (h : m.Alike m') (s : StateSet) (w : List α) :
    m'.runFrom s w = m.runFrom s w := by
  induction w generalizing s with
  | nil => rfl
  | cons a w ih => simp only [runFrom, h.moveOn_eq, ih]

theorem run_eq (h : m.Alike m') (w : List α) : m'.run w = m.run w := by
  simp only [run, findInitial, h.initial, closureOf, h.closure_eq, h.runFrom_eq]

theorem accepts_eq (h : m.Alike m') (w : List α) : m'.accepts w = m.accepts w := by
  rw [accepts, accepts, h.run_eq, h.finals]

theorem sameAnswers (h : m.Alike m') : m.SameAnswers m' where
  contains := h.contains_eq
  name? := h.name?_eq
  states := h.states_eq
  stateCount := h.stateCount_eq
  isFinal q := by rw [isFinal, isFinal, h.finals]
  delta := h.delta_eq
  transitionsFrom := h.transitionsFrom_eq
  transitionsOn := h.transitionsOn_eq
  hasTransition := h.hasTransition_eq
  hasAnyTransition := h.hasAnyTransition_eq
  isDeterministic := h.isDeterministic_eq
  closure := h.closure_eq
  moveOn := h.moveOn_eq
  run := h.run_eq
  accepts := h.accepts_eq

end Alike

end FiniteAutomata.Automaton
