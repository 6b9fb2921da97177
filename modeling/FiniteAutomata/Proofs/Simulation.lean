import FiniteAutomata.Proofs.Closure
import FiniteAutomata.Proofs.Reachable
import FiniteAutomata.Simulation
import Mathlib.Computability.Language

namespace FiniteAutomata.Automaton
variable {α : Type} [DecidableEq α] {m : Automaton α} {i p q : StateId} {s : StateSet}
  {a : α} {u v w : List α}

/-- The states reached from a set by stepping through a word without looking at the alphabet. -/
def stepAll (m : Automaton α) (s : StateSet) (w : List α) : StateSet := w.foldl m.step s

@[simp] theorem stepAll_nil : m.stepAll s [] = s := rfl

@[simp] theorem stepAll_cons : m.stepAll s (a :: w) = m.stepAll (m.step s a) w := rfl

theorem stepAll_append : m.stepAll s (u ++ v) = m.stepAll (m.stepAll s u) v :=
  List.foldl_append

theorem stepAll_empty (m : Automaton α) (w : List α) : m.stepAll ∅ w = ∅ := by
  induction w with
  | nil => rfl
  | cons a w ih => rw [stepAll_cons, step_empty, ih]

theorem epsilonClosed_stepAll (hs : m.EpsilonClosed s) (w : List α) :
    m.EpsilonClosed (m.stepAll s w) := by
  induction w generalizing s with
  | nil => exact hs
  | cons a w ih => exact ih (epsilonClosed_step m s a)

/-- What stepping reaches is what paths reach. -/
theorem mem_stepAll_iff (hm : m.WellFormed) (hs : m.EpsilonClosed s) :
    q ∈ m.stepAll s w ↔ ∃ p ∈ s, m.Reads p w q := by
  induction w generalizing s with
  | nil =>
    simp only [stepAll_nil, reads_nil_iff hm]
    constructor
    · intro hq
      exact ⟨q, hq, .refl⟩
    · intro h
      obtain ⟨p, hp, hpq⟩ := h
      exact hs.mem_of_reach hp hpq
  | cons a w ih =>
    rw [stepAll_cons, ih (epsilonClosed_step m s a)]
    simp only [mem_step_iff, reads_cons_iff, reads_nil_iff hm, mem_transitions_iff hm.fits]
    constructor
    · intro h
      obtain ⟨r, ⟨p, hp, p', q', hpp', edge, hq'r⟩, hr⟩ := h
      have hq' : m.Reads q' w q := ((reads_nil_iff hm).2 hq'r).append hr
      exact ⟨p, hp, p', q', hpp', edge, hq'⟩
    · intro h
      obtain ⟨p, hp, p', q', hpp', edge, hq'⟩ := h
      exact ⟨q', ⟨p, hp, p', q', hpp', edge, .refl⟩, hq'⟩

theorem moveOn_eq_ok (ha : a ∈ m.alphabet) : m.moveOn s a = .ok (m.step s a) := by
  rw [moveOn, checkSymbol, if_pos ha]
  rfl

theorem runFrom_cons (ha : a ∈ m.alphabet) : m.runFrom s (a :: w) =
    if (m.step s a).isEmpty then .ok (m.step s a) else m.runFrom (m.step s a) w := by
  rw [runFrom, moveOn_eq_ok ha]
  rfl

theorem runFrom_eq_ok (hw : ∀ a ∈ w, a ∈ m.alphabet) : m.runFrom s w = .ok (m.stepAll s w) := by
  induction w generalizing s with
  | nil => rfl
  | cons a w ih =>
    obtain ⟨ha, hw⟩ := List.forall_mem_cons.1 hw
    rw [runFrom_cons ha, stepAll_cons]
    split_ifs with hempty
    · rw [StateSet.isEmpty_iff.1 hempty, stepAll_empty]
    · exact ih hw

theorem run_eq_ok (hi : m.initial = some i) (hw : ∀ a ∈ w, a ∈ m.alphabet) :
    m.run w = .ok (m.stepAll (m.closureOf i) w) := by
  rw [run, findInitial_eq_ok hi]
  exact runFrom_eq_ok hw

theorem accepts_eq_ok (hi : m.initial = some i) (hw : ∀ a ∈ w, a ∈ m.alphabet) :
    m.accepts w = .ok ((m.stepAll (m.closureOf i) w).meets m.finals) := by
  rw [accepts, run_eq_ok hi hw]
  rfl

theorem accepts_eq_error (hi : m.initial = none) (w : List α) :
    m.accepts w = .error .noInitialState := by
  rw [accepts, run, findInitial, hi]
  rfl

theorem mem_stepAll_closureOf_iff (hm : m.WellFormed) :
    q ∈ m.stepAll (m.closureOf i) w ↔ m.Reads i w q := by
  rw [closureOf, mem_stepAll_iff hm (epsilonClosed_closure m {i})]
  simp only [mem_closure_iff, StateSet.mem_singleton, exists_eq_left]
  constructor
  · intro h
    obtain ⟨p, hip, hp⟩ := h
    exact ((reads_nil_iff hm).2 hip).append hp
  · intro hq
    exact ⟨i, .refl, hq⟩

/-- A final state is reached if and only if some path that reads the word ends in one. -/
theorem meets_finals_iff (hm : m.WellFormed) :
    (m.stepAll (m.closureOf i) w).meets m.finals = true ↔ ∃ q ∈ m.finals, m.Reads i w q := by
  simp only [StateSet.meets_iff, mem_stepAll_closureOf_iff hm]
  exact exists_congr fun q => and_comm

/-- A run is exact: it reaches the states at the end of paths that read the word, all of them are
states of the automaton, and the word is accepted if one of them is final. -/
theorem run_reaches_path_ends (hm : m.Reachable) (hi : m.initial = some i)
    (hw : ∀ a ∈ w, a ∈ m.alphabet) :
    ∃ s, m.run w = .ok s ∧ (∀ q, q ∈ s ↔ m.Reads i w q) ∧ (∀ q ∈ s, m.contains q = true) ∧
      ∃ b, m.accepts w = .ok b ∧ (b = true ↔ ∃ q ∈ m.finals, m.Reads i w q) := by
  have hwf := hm.wellFormed
  have hpath := fun q => mem_stepAll_closureOf_iff (i := i) (q := q) (w := w) hwf
  refine ⟨_, run_eq_ok hi hw, hpath, fun q hq => ?_, _, accepts_eq_ok hi hw, meets_finals_iff hwf⟩
  exact ((hpath q).1 hq).target_live hwf (hwf.initial_live hi)

theorem run_reaches_path_ends_in_a_cycle : epsilonCycle.Reachable ∧
    epsilonCycle.initial = some 0 ∧ (∀ a ∈ [true, true], a ∈ epsilonCycle.alphabet) ∧
    ∃ s, epsilonCycle.run [true, true] = .ok s ∧
      (∀ q, q ∈ s ↔ epsilonCycle.Reads 0 [true, true] q) ∧
      (∀ q ∈ s, epsilonCycle.contains q = true) ∧
      ∃ b, epsilonCycle.accepts [true, true] = .ok b ∧
        (b = true ↔ ∃ q ∈ epsilonCycle.finals, epsilonCycle.Reads 0 [true, true] q) :=
  ⟨reachable_epsilonCycle, initial_epsilonCycle, by decide +kernel,
    run_reaches_path_ends reachable_epsilonCycle initial_epsilonCycle (by decide +kernel)⟩

/-- The words that are accepted. -/
def language (m : Automaton α) : Language α := {w | m.accepts w = .ok true}

/-- Every word over the alphabet is accepted or rejected, as the language has it. -/
def Decides (m : Automaton α) (l : Language α) : Prop :=
  ∀ w, (∀ a ∈ w, a ∈ m.alphabet) →
    (w ∈ l → m.accepts w = .ok true) ∧ (w ∉ l → m.accepts w = .ok false)

/-- A run that ends with some state has read symbols of the alphabet only. -/
theorem symbol_valid_of_runFrom {t : StateSet} (h : m.runFrom s w = .ok t) (hq : q ∈ t) :
    ∀ a ∈ w, a ∈ m.alphabet := by
  induction w generalizing s with
  | nil => simp
  | cons a w ih =>
    rw [runFrom] at h
    obtain ⟨s', hs', h⟩ := bind_eq_ok_iff.1 h
    have ha : a ∈ m.alphabet := by
      rw [moveOn, checkSymbol] at hs'
      by_contra ha
      rw [if_neg ha] at hs'
      cases hs'
    have hne : ¬s'.isEmpty = true := by
      intro hempty
      rw [if_pos hempty] at h
      rw [← Except.ok.inj h, StateSet.isEmpty_iff.1 hempty] at hq
      exact StateSet.not_mem_empty q hq
    rw [if_neg hne] at h
    exact List.forall_mem_cons.2 ⟨ha, ih h⟩

theorem symbol_valid_of_mem_language (h : w ∈ m.language) : ∀ a ∈ w, a ∈ m.alphabet := by
  obtain ⟨t, ht, hmeets⟩ := bind_eq_ok_iff.1 h
  obtain ⟨i, -, hrun⟩ := bind_eq_ok_iff.1 ht
  obtain ⟨q, hq, -⟩ := StateSet.meets_iff.1 (pure_eq_ok_iff.1 hmeets).symm
  exact symbol_valid_of_runFrom hrun hq

/-- A word is accepted if and only if a path from the initial state to a final one reads it. -/
theorem mem_language_iff (hm : m.WellFormed) (hi : m.initial = some i) :
    w ∈ m.language ↔ ∃ q ∈ m.finals, m.Reads i w q := by
  have key : (∀ a ∈ w, a ∈ m.alphabet) →
      (w ∈ m.language ↔ ∃ q ∈ m.finals, m.Reads i w q) := by
    intro hw
    change m.accepts w = .ok true ↔ _
    rw [accepts_eq_ok hi hw, Except.ok.injEq, meets_finals_iff hm]
  constructor
  · intro h
    exact (key (symbol_valid_of_mem_language h)).1 h
  · intro h
    obtain ⟨q, hf, hq⟩ := h
    exact (key (hq.symbol_valid hm)).2 ⟨q, hf, hq⟩

/-- An automaton with an initial state decides its language. -/
theorem decides_language (hi : m.initial = some i) : m.Decides m.language := by
  intro w hw
  refine ⟨id, fun hn => ?_⟩
  change ¬m.accepts w = .ok true at hn
  rw [accepts_eq_ok hi hw, Except.ok.injEq] at hn ⊢
  exact Bool.eq_false_iff.2 hn

end FiniteAutomata.Automaton
