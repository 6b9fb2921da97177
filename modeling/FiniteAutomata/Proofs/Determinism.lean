import FiniteAutomata.Proofs.Queries
import FiniteAutomata.Proofs.SubsetShape

namespace FiniteAutomata

namespace StateSet
variable {s : StateSet}

theorem size_le_one_iff : s.size ≤ 1 ↔ ∀ p ∈ s, ∀ q ∈ s, p = q := by
  obtain ⟨_ | ⟨p, _ | ⟨q, l⟩⟩, h⟩ := s
  · simp [size, mem_def]
  · simp [size, mem_def]
  · have hpq : p < q := (List.pairwise_cons.1 h).1 q List.mem_cons_self
    have hne : ¬∀ r ∈ p :: q :: l, ∀ t ∈ p :: q :: l, r = t := fun hall =>
      UInt32.ne_of_lt hpq (hall p (by simp) q (by simp))
    simpa [size, mem_def] using hne

theorem eq_empty_or_singleton (h : s.size ≤ 1) : s = ∅ ∨ ∃ q, s = {q} := by
  by_cases hs : s = ∅
  · exact .inl hs
  · obtain ⟨q, hq⟩ := exists_mem_of_ne_empty hs
    refine .inr ⟨q, ext fun p => ?_⟩
    rw [mem_singleton]
    constructor
    · intro hp
      exact size_le_one_iff.1 h p hp q hq
    · rintro rfl
      exact hq

end StateSet

namespace Automaton
variable {α : Type} [DecidableEq α] {m : Automaton α} {s : StateSet} {found : List StateSet}
  {i : StateId} {limit : Nat}

omit [DecidableEq α] in
/-- The edges that are listed leave no choice. -/
structure Deterministic (m : Automaton α) : Prop where
  no_epsilon : ∀ {p q}, ⟨p, .epsilon, q⟩ ∉ m.transitions
  one_target : ∀ {p x q r}, ⟨p, x, q⟩ ∈ m.transitions → ⟨p, x, r⟩ ∈ m.transitions → q = r

theorem isDeterministic_iff_edges (hm : m.WellFormed) :
    m.isDeterministic = true ↔ m.Deterministic := by
  rw [isDeterministic_iff hm]
  constructor
  · intro h
    refine ⟨fun {p q} he => ?_, fun {p x q r} hq hr => ?_⟩
    · rw [mem_transitions_iff hm.fits, (h p .epsilon).1 rfl] at he
      exact StateSet.not_mem_empty q he
    · rw [mem_transitions_iff hm.fits] at hq hr
      exact StateSet.size_le_one_iff.1 (h p x).2 q hq r hr
  · intro h p x
    constructor
    · rintro rfl
      by_contra hne
      obtain ⟨q, hq⟩ := StateSet.exists_mem_of_ne_empty hne
      exact h.no_epsilon (mem_transitions hq)
    · apply StateSet.size_le_one_iff.2
      intro q hq r hr
      exact h.one_target (mem_transitions hq) (mem_transitions hr)

theorem Deterministic.closure_eq (h : m.Deterministic) (s : StateSet) : m.closure s = s := by
  apply closure_eq_self
  intro p _ q hq
  exact absurd (mem_transitions hq) h.no_epsilon

theorem Deterministic.size_step_le (h : m.Deterministic) (hs : s.size ≤ 1) (a : α) :
    (m.step s a).size ≤ 1 := by
  rw [StateSet.size_le_one_iff] at hs ⊢
  simp only [step, h.closure_eq, mem_image]
  rintro q ⟨p, hp, hq⟩ r ⟨p', hp', hr⟩
  obtain rfl := hs p hp p' hp'
  exact h.one_target (mem_transitions hq) (mem_transitions hr)

theorem Deterministic.size_stepAll_le (h : m.Deterministic) (hs : s.size ≤ 1) (w : List α) :
    (m.stepAll s w).size ≤ 1 := by
  induction w generalizing s with
  | nil => exact hs
  | cons a w ih => exact ih (h.size_step_le hs a)

theorem Deterministic.size_closureOf_le (h : m.Deterministic) (q : StateId) :
    (m.closureOf q).size ≤ 1 := by
  rw [closureOf, h.closure_eq]
  exact Nat.le_refl 1

/-- A subset that is reached is empty or consists of one state, and no subset is found twice. -/
theorem Deterministic.length_reachedSubsets_le (h : m.Deterministic) (hm : m.WellFormed)
    (hi : m.initial = some i) (hfound : m.reachedSubsets limit = .ok found) :
    found.length ≤ m.stateCount + 1 := by
  have hex := explored_reachedSubsets hi hfound
  have hsub : found ⊆ ∅ :: m.stateIds.map fun q => {q} := by
    intro s hs
    obtain ⟨w, -, rfl⟩ := hex.reached hs
    rcases StateSet.eq_empty_or_singleton (h.size_stepAll_le (h.size_closureOf_le i) w)
      with hempty | ⟨q, hq⟩
    · simp [hempty]
    · have hread : m.Reads i w q := by
        rw [← mem_stepAll_closureOf_iff hm, hq, StateSet.mem_singleton]
      have hlive := (mem_stateIds_iff hm.fits).2 (hread.target_live hm (hm.initial_live hi))
      rw [hq]
      exact List.mem_cons_of_mem _ (List.mem_map_of_mem hlive)
  have hle := (hex.nodup.subperm hsub).length_le
  rwa [List.length_cons, List.length_map, length_stateIds] at hle

/-- The check means what it says of the edges that are listed, whatever the history. If it holds, a
run is never in two states, and the deterministic form has at most one state more. -/
theorem determinism_exact (hm : m.Reachable) :
    (m.isDeterministic = true ↔ m.Deterministic) ∧
      ∀ i, m.isDeterministic = true → m.initial = some i →
        (∀ w, (∀ a ∈ w, a ∈ m.alphabet) → ∃ s, m.run w = .ok s ∧ s.size ≤ 1) ∧
        ((∀ found, m.reachedSubsets 0 = .ok found → found.length ≤ UInt32.size) →
          ∃ d, m.toDfa = .ok d ∧ d.stateCount ≤ m.stateCount + 1) := by
  have hwf := hm.wellFormed
  have hiff := isDeterministic_iff_edges hwf
  refine ⟨hiff, fun i hdet hi => ⟨fun w hw => ?_, fun hfit => ?_⟩⟩
  · have h := hiff.1 hdet
    exact ⟨_, run_eq_ok hi hw, h.size_stepAll_le (h.size_closureOf_le i) w⟩
  · have h := hiff.1 hdet
    obtain ⟨d, hok, hd⟩ := exists_determinize hi hfit
    refine ⟨d.dfa, toDfa_eq_ok hok, ?_⟩
    rw [hd.stateCount_eq]
    exact h.length_reachedSubsets_le hwf hi (determinize_eq_ok_iff.1 hok).1

/-- A choice of two targets and an epsilon edge, all to states that are removed again but one. -/
def prunedChoice : Automaton Bool :=
  (empty (.ofList [false, true])).afterAll
    [.addState true false none, .addState false false none, .addState false true none,
      .addTransitionSet 0 (.literal true) [1, 2], .addEpsilon 2 1, .removeState 1]

theorem determinism_exact_of_prunedChoice : prunedChoice.Reachable ∧
    prunedChoice.isDeterministic = true ∧ prunedChoice.Deterministic ∧
    prunedChoice.initial = some 0 ∧
    (∀ w, (∀ a ∈ w, a ∈ prunedChoice.alphabet) →
      ∃ s, prunedChoice.run w = .ok s ∧ s.size ≤ 1) ∧
    (∀ found, prunedChoice.reachedSubsets 0 = .ok found → found.length ≤ UInt32.size) ∧
    ∃ d, prunedChoice.toDfa = .ok d ∧ d.stateCount ≤ prunedChoice.stateCount + 1 := by
  have hm : prunedChoice.Reachable := .afterAll (.empty _) _ (by decide +kernel)
  have hdet : prunedChoice.isDeterministic = true := by decide +kernel
  have hi : prunedChoice.initial = some 0 := by decide +kernel
  have hfit : ∀ found, prunedChoice.reachedSubsets 0 = .ok found → found.length ≤ UInt32.size :=
    fun _ => length_reachedSubsets_le_size hm.wellFormed hi (by decide +kernel)
  obtain ⟨hiff, hruns⟩ := determinism_exact hm
  obtain ⟨hrun, hdfa⟩ := hruns 0 hdet hi
  exact ⟨hm, hdet, hiff.1 hdet, hi, hrun, hfit, hdfa hfit⟩

end Automaton
end FiniteAutomata
