import FiniteAutomata.Proofs.ForeignSymbol

namespace FiniteAutomata.Automaton
variable {α : Type} [DecidableEq α] {m : Automaton α} {i : StateId} {s t : StateSet} {x : α}
  {f : Fault α} {u v w : List α}

/-- Steps through the whole word, whether or not some state is left. -/
def moveAll (m : Automaton α) (s : StateSet) (w : List α) : Except (Fault α) StateSet :=
  w.foldlM m.moveOn s

theorem moveAll_eq_stepAll (hw : ∀ a ∈ w, a ∈ m.alphabet) :
    m.moveAll s w = .ok (m.stepAll s w) := by
  induction w generalizing s with
  | nil => rfl
  | cons a w ih =>
    obtain ⟨ha, hw⟩ := List.forall_mem_cons.1 hw
    rw [moveAll, List.foldlM_cons, moveOn_eq_ok ha]
    exact ih hw

theorem moveAll_foreign (hu : ∀ a ∈ u, a ∈ m.alphabet) (hx : x ∉ m.alphabet) :
    m.moveAll s (u ++ x :: v) = .error (.invalidSymbol x) := by
  have hmove := moveAll_eq_stepAll (s := s) hu
  unfold moveAll at hmove ⊢
  rw [List.foldlM_append, hmove]
  change (m.moveOn _ x >>= _) = _
  rw [moveOn_eq_error hx]
  rfl

/-- Stepping succeeds on the words over the alphabet. -/
theorem moveAll_eq_ok_iff : m.moveAll s w = .ok t ↔
    (∀ a ∈ w, a ∈ m.alphabet) ∧ m.stepAll s w = t := by
  rcases m.alphabet.over_or_foreign w with hw | ⟨u, x, v, rfl, hu, hx⟩
  · rw [moveAll_eq_stepAll hw, Except.ok.injEq]
    exact (and_iff_right hw).symm
  · rw [moveAll_foreign hu hx]
    constructor
    · intro h
      cases h
    · intro h
      exact absurd (h.1 x (by simp)) hx

theorem moveOn_eq_error_iff : m.moveOn s x = .error f ↔ x ∉ m.alphabet ∧ f = .invalidSymbol x := by
  by_cases hx : x ∈ m.alphabet
  · simp [moveOn_eq_ok hx, hx]
  · simp [moveOn_eq_error hx, hx, eq_comm]

/-- Stepping fails at one place, where it has reached some set and the next symbol is foreign. -/
theorem exists_of_moveAll_eq_error (h : m.moveAll s w = .error f) : ∃ u x v t,
    w = u ++ x :: v ∧ m.moveAll s u = .ok t ∧ m.moveOn t x = .error f := by
  rcases m.alphabet.over_or_foreign w with hw | ⟨u, x, v, rfl, hu, hx⟩
  · rw [moveAll_eq_stepAll hw] at h
    cases h
  · rw [moveAll_foreign hu hx] at h
    obtain rfl := Except.error.inj h
    exact ⟨u, x, v, _, rfl, moveAll_eq_stepAll hu, moveOn_eq_error hx⟩

theorem runFrom_append (hs : s ≠ ∅) : m.runFrom s (u ++ v) =
    m.runFrom s u >>= fun t => if t = ∅ then .ok ∅ else m.runFrom t v := by
  induction u generalizing s with
  | nil => exact (if_neg hs).symm
  | cons a u ih =>
    rw [List.cons_append, runFrom, runFrom]
    cases m.moveOn s a with
    | error f => rfl
    | ok t =>
      change (if t.isEmpty then Except.ok t else m.runFrom t (u ++ v)) =
        (if t.isEmpty then Except.ok t else m.runFrom t u) >>= _
      by_cases ht : t.isEmpty = true
      · rw [if_pos ht, if_pos ht, StateSet.isEmpty_iff.1 ht]
        rfl
      · rw [if_neg ht, if_neg ht, ih (mt StateSet.isEmpty_iff.2 ht)]

theorem run_append (hi : m.initial = some i) : m.run (u ++ v) =
    m.run u >>= fun t => if t = ∅ then .ok ∅ else m.runFrom t v := by
  have hrun : ∀ w, m.run w = m.runFrom (m.closureOf i) w := by
    intro w
    rw [run, findInitial_eq_ok hi]
    rfl
  rw [hrun, hrun]
  exact runFrom_append (closureOf_ne_empty m i)

/-- A word is rejected if the run ends inside it, whatever is left of it. -/
theorem accepts_after_end (hi : m.initial = some i) (hu : m.run u = .ok ∅) (v : List α) :
    m.accepts (u ++ v) = .ok false := by
  rw [accepts, run_append hi, hu]
  rfl

/-- How runs compare with plain stepping from the closure of the state, and how they go on after a
prefix. -/
structure RunsAsStepping (m : Automaton α) (i : StateId) : Prop where
  same_set : ∀ {w t}, m.moveAll (m.closureOf i) w = .ok t → m.run w = .ok t
  fault_placed : ∀ {w f}, m.moveAll (m.closureOf i) w = .error f → ∃ u x v t,
    w = u ++ x :: v ∧ m.moveAll (m.closureOf i) u = .ok t ∧ m.moveOn t x = .error f
  same_fault : ∀ {u x v t f}, m.moveAll (m.closureOf i) u = .ok t → m.moveOn t x = .error f →
    m.moveAll (m.closureOf i) (u ++ x :: v) = .error f ∧ f = .invalidSymbol x ∧
      m.run (u ++ x :: v) = if t = ∅ then .ok ∅ else .error f
  after_fault : ∀ {u f}, m.run u = .error f → ∀ v, m.run (u ++ v) = .error f
  after_end : ∀ {u}, m.run u = .ok ∅ → ∀ v, m.run (u ++ v) = .ok ∅
  goes_on : ∀ {u t}, m.run u = .ok t → t ≠ ∅ → ∀ v, m.run (u ++ v) = m.runFrom t v

/-- The early end changes no set that stepping reaches, and it hides a foreign symbol if and only if
no state was left to read it. -/
theorem runs_as_stepping (hi : m.initial = some i) : m.RunsAsStepping i := by
  refine ⟨?_, exists_of_moveAll_eq_error, ?_, ?_, ?_, ?_⟩
  · intro w t h
    obtain ⟨hw, rfl⟩ := moveAll_eq_ok_iff.1 h
    exact run_eq_ok hi hw
  · intro u x v t f hmove hfault
    obtain ⟨hu, rfl⟩ := moveAll_eq_ok_iff.1 hmove
    obtain ⟨hx, rfl⟩ := moveOn_eq_error_iff.1 hfault
    exact ⟨moveAll_foreign hu hx, rfl, run_foreign hi hu hx⟩
  · intro u f hu v
    simp [run_append hi, hu, bind, Except.bind]
  · intro u hu v
    simp [run_append hi, hu, bind, Except.bind]
  · intro u t hu ht v
    simp [run_append hi, hu, ht, bind, Except.bind]

theorem runs_as_stepping_in_a_cycle :
    epsilonCycle.initial = some 0 ∧ epsilonCycle.RunsAsStepping 0 :=
  ⟨initial_epsilonCycle, runs_as_stepping initial_epsilonCycle⟩

end FiniteAutomata.Automaton
