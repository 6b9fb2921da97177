import FiniteAutomata.Proofs.Closure
import FiniteAutomata.Proofs.Reachable
import Mathlib.Logic.Function.Iterate

/-! The search for a closure as a loop over two growing sets, the states found and those of them
whose epsilon edges have been followed. No state is pending twice, so the loop ends after at most as
many rounds as the closure has states. -/
namespace FiniteAutomata

/-- What a search has found, and what of it has been expanded. -/
structure ClosureSearch where
  found : StateSet
  expanded : StateSet

def ClosureSearch.pending (c : ClosureSearch) : StateSet := c.found \ c.expanded

theorem StateSet.size_le_size {s t : StateSet} (h : s ⊆ t) : s.size ≤ t.size :=
  (sublist_of_subset h).length_le

namespace Automaton
variable {α : Type} [DecidableEq α] {m : Automaton α} {s t : StateSet} {p q : StateId}
  {c : ClosureSearch} {j k n : Nat}

/-- Expands all that is pending when the round begins. -/
def searchRound (m : Automaton α) (c : ClosureSearch) : ClosureSearch :=
  ⟨c.found ∪ m.image .epsilon c.pending, c.expanded ∪ c.pending⟩

/-- The search from a set, after so many rounds. -/
def searchAfter (m : Automaton α) (s : StateSet) (n : Nat) : ClosureSearch :=
  m.searchRound^[n] ⟨s, ∅⟩

theorem searchAfter_succ (m : Automaton α) (s : StateSet) (n : Nat) :
    m.searchAfter s (n + 1) = m.searchRound (m.searchAfter s n) :=
  Function.iterate_succ_apply' _ _ _

theorem mem_pending_iff : q ∈ c.pending ↔ q ∈ c.found ∧ q ∉ c.expanded := StateSet.mem_sdiff

theorem mem_found_searchRound : q ∈ (m.searchRound c).found ↔
    q ∈ c.found ∨ ∃ p ∈ c.pending, q ∈ m.destinations p .epsilon := by
  simp [searchRound]

theorem mem_expanded_searchRound :
    q ∈ (m.searchRound c).expanded ↔ q ∈ c.expanded ∨ q ∈ c.pending :=
  StateSet.mem_union

/-- Whatever was found before a round has been expanded after it. -/
theorem expanded_searchRound (h : c.expanded ⊆ c.found) : (m.searchRound c).expanded = c.found := by
  ext q
  rw [mem_expanded_searchRound, mem_pending_iff]
  by_cases hq : q ∈ c.expanded
  · simp [hq, h q hq]
  · simp [hq]

theorem expanded_subset_found (m : Automaton α) (s : StateSet) (n : Nat) :
    (m.searchAfter s n).expanded ⊆ (m.searchAfter s n).found := by
  induction n with
  | zero =>
    intro q hq
    exact absurd hq (StateSet.not_mem_empty q)
  | succ n ih =>
    rw [searchAfter_succ, expanded_searchRound ih]
    exact fun q hq => mem_found_searchRound.2 (.inl hq)

theorem expanded_searchAfter_succ (m : Automaton α) (s : StateSet) (n : Nat) :
    (m.searchAfter s (n + 1)).expanded = (m.searchAfter s n).found := by
  rw [searchAfter_succ, expanded_searchRound (expanded_subset_found m s n)]

theorem expanded_mono (h : j ≤ k) :
    (m.searchAfter s j).expanded ⊆ (m.searchAfter s k).expanded := by
  induction h with
  | refl => exact fun q hq => hq
  | step _ ih =>
    rw [searchAfter_succ]
    exact fun q hq => mem_expanded_searchRound.2 (.inl (ih q hq))

/-- What is pending in a round has been expanded in all later ones. -/
theorem not_pending_of_lt (h : j < k) (hq : q ∈ (m.searchAfter s j).pending) :
    q ∉ (m.searchAfter s k).pending := by
  have hexpanded : q ∈ (m.searchAfter s (j + 1)).expanded := by
    rw [expanded_searchAfter_succ]
    exact (mem_pending_iff.1 hq).1
  intro hk
  exact (mem_pending_iff.1 hk).2 (expanded_mono h q hexpanded)

theorem pending_unique (hj : q ∈ (m.searchAfter s j).pending)
    (hk : q ∈ (m.searchAfter s k).pending) : j = k := by
  rcases Nat.lt_trichotomy j k with hlt | heq | hgt
  · exact absurd hk (not_pending_of_lt hlt hj)
  · exact heq
  · exact absurd hj (not_pending_of_lt hgt hk)

/-- Once nothing is pending, rounds change nothing. -/
theorem searchRound_eq_self (h : c.pending = ∅) : m.searchRound c = c := by
  have hfound : (m.searchRound c).found = c.found := by
    ext q
    rw [mem_found_searchRound, h]
    simp
  have hexpanded : (m.searchRound c).expanded = c.expanded := by
    ext q
    rw [mem_expanded_searchRound, h]
    simp
  obtain ⟨found, expanded⟩ := c
  exact congrArg₂ ClosureSearch.mk hfound hexpanded

/-- Only what is new matters for the rounds that follow. -/
theorem closureRounds_congr {seen frontier frontier' : StateSet}
    (h : frontier \ seen = frontier' \ seen) :
    m.closureRounds seen frontier = m.closureRounds seen frontier' := by
  rw [closureRounds, h, ← closureRounds]

/-- The rounds from some point of the search on: none if nothing is pending, and otherwise what is
pending and the rounds after it. -/
theorem closureRounds_of_search (h : c.expanded ⊆ c.found) :
    m.closureRounds c.expanded c.found = if c.pending = ∅ then [] else
      c.pending :: m.closureRounds (m.searchRound c).expanded (m.searchRound c).found := by
  have hnext : m.closureRounds (c.expanded ∪ c.pending) (m.image .epsilon c.pending) =
      m.closureRounds (m.searchRound c).expanded (m.searchRound c).found := by
    apply closureRounds_congr
    ext q
    have hfound : q ∈ c.found → q ∈ c.expanded ∪ c.pending := by
      rw [StateSet.mem_union, ← mem_expanded_searchRound (m := m), expanded_searchRound h]
      exact id
    rw [StateSet.mem_sdiff, StateSet.mem_sdiff, searchRound, StateSet.mem_union (s := c.found)]
    tauto
  rw [closureRounds, ← hnext]
  simp only [← StateSet.isEmpty_iff]
  rfl

theorem getElem?_closureRounds (h : c.expanded ⊆ c.found) (k : Nat) :
    (m.closureRounds c.expanded c.found)[k]? =
      if (m.searchRound^[k] c).pending = ∅ then none else some (m.searchRound^[k] c).pending := by
  induction k generalizing c with
  | zero =>
    rw [closureRounds_of_search h, Function.iterate_zero_apply]
    split_ifs
    · rfl
    · rfl
  | succ k ih =>
    have hnext : (m.searchRound c).expanded ⊆ (m.searchRound c).found := by
      rw [expanded_searchRound h]
      exact fun q hq => mem_found_searchRound.2 (.inl hq)
    rw [closureRounds_of_search h]
    split_ifs with hempty hpending hpending
    · rfl
    · rw [Function.iterate_fixed (searchRound_eq_self hempty)] at hpending
      exact absurd hempty hpending
    · rw [List.getElem?_cons_succ, ih hnext]
      exact if_pos hpending
    · rw [List.getElem?_cons_succ, ih hnext]
      exact if_neg hpending

theorem getElem?_closureRounds_empty (m : Automaton α) (s : StateSet) (k : Nat) :
    (m.closureRounds ∅ s)[k]? = if (m.searchAfter s k).pending = ∅ then none
      else some (m.searchAfter s k).pending :=
  getElem?_closureRounds (c := ⟨s, ∅⟩) (expanded_subset_found m s 0) k

theorem pending_eq_empty_iff :
    (m.searchAfter s k).pending = ∅ ↔ (m.closureRounds ∅ s).length ≤ k := by
  rw [← List.getElem?_eq_none_iff, getElem?_closureRounds_empty]
  split_ifs with hempty
  · simp [hempty]
  · simp [hempty]

/-- The closure holds what is pending in some round. -/
theorem mem_closure_iff_pending : q ∈ m.closure s ↔ ∃ k, q ∈ (m.searchAfter s k).pending := by
  rw [closure, StateSet.mem_unions]
  constructor
  · intro h
    obtain ⟨t, ht, hq⟩ := h
    obtain ⟨k, hk⟩ := List.mem_iff_getElem?.1 ht
    rw [getElem?_closureRounds_empty] at hk
    split_ifs at hk
    obtain rfl := Option.some.inj hk
    exact ⟨k, hq⟩
  · intro h
    obtain ⟨k, hq⟩ := h
    have hne : (m.searchAfter s k).pending ≠ ∅ := by
      intro hempty
      rw [hempty] at hq
      exact StateSet.not_mem_empty q hq
    have hk := getElem?_closureRounds_empty m s k
    rw [if_neg hne] at hk
    exact ⟨_, List.mem_of_getElem? hk, hq⟩

theorem mem_expanded_iff :
    q ∈ (m.searchAfter s n).expanded ↔ ∃ k < n, q ∈ (m.searchAfter s k).pending := by
  induction n with
  | zero =>
    simp only [Nat.not_lt_zero, false_and, exists_false, iff_false]
    exact StateSet.not_mem_empty q
  | succ n ih =>
    rw [searchAfter_succ, mem_expanded_searchRound, ih]
    simp only [Nat.lt_succ_iff_lt_or_eq, or_and_right, exists_or, exists_eq_left]

theorem expanded_subset_closure (m : Automaton α) (s : StateSet) (n : Nat) :
    (m.searchAfter s n).expanded ⊆ m.closure s := by
  intro q hq
  obtain ⟨k, -, hk⟩ := mem_expanded_iff.1 hq
  exact mem_closure_iff_pending.2 ⟨k, hk⟩

/-- When nothing is pending any more, the closure has been found. -/
theorem found_eq_closure (h : (m.searchAfter s n).pending = ∅) :
    (m.searchAfter s n).found = m.closure s := by
  ext q
  rw [← expanded_searchAfter_succ, mem_expanded_iff, mem_closure_iff_pending]
  constructor
  · intro hq
    obtain ⟨k, -, hk⟩ := hq
    exact ⟨k, hk⟩
  · intro hq
    obtain ⟨k, hk⟩ := hq
    refine ⟨k, ?_, hk⟩
    by_contra hlate
    have hempty : (m.searchAfter s k).pending = ∅ := by
      rw [pending_eq_empty_iff] at h ⊢
      omega
    rw [hempty] at hk
    exact StateSet.not_mem_empty q hk

/-- Each round expands a state that was not expanded before. -/
theorem le_size_expanded (h : n ≤ (m.closureRounds ∅ s).length) :
    n ≤ (m.searchAfter s n).expanded.size := by
  induction n with
  | zero => exact Nat.zero_le _
  | succ n ih =>
    have hne : (m.searchAfter s n).pending ≠ ∅ := by
      rw [ne_eq, pending_eq_empty_iff]
      omega
    obtain ⟨q, hq⟩ := StateSet.exists_mem_of_ne_empty hne
    have hlt : (m.searchAfter s n).expanded.size < (m.searchAfter s (n + 1)).expanded.size := by
      apply StateSet.size_lt_size (expanded_mono (Nat.le_succ n))
      · rw [searchAfter_succ]
        exact mem_expanded_searchRound.2 (.inr hq)
      · exact (mem_pending_iff.1 hq).2
    have hn := ih (by omega)
    omega

theorem length_closureRounds_le (m : Automaton α) (s : StateSet) :
    (m.closureRounds ∅ s).length ≤ (m.closure s).size :=
  Nat.le_trans (le_size_expanded (Nat.le_refl _))
    (StateSet.size_le_size (expanded_subset_closure m s _))

/-- Sets that are searched together are closed together. -/
theorem mem_closure_union : q ∈ m.closure (s ∪ t) ↔ q ∈ m.closure s ∨ q ∈ m.closure t := by
  simp only [mem_closure_iff, StateSet.mem_union, or_and_right, exists_or]

/-- No edge leaves a number that has no state. -/
theorem closure_of_missing (h : ∀ p ∈ t, m.contains p = false) : m.closure t = t := by
  refine closure_eq_self fun p hp q hq => ?_
  have hlive := contains_of_mem_destinations hq
  rw [h p hp] at hlive
  cases hlive

/-- A state is in the closure if it was given, or if one or more edges lead to it from there. -/
theorem mem_closure_iff_or_transGen : q ∈ m.closure s ↔
    q ∈ s ∨ ∃ p ∈ s, Relation.TransGen (fun p q => q ∈ m.destinations p .epsilon) p q := by
  simp only [mem_closure_iff, EpsilonReach, Relation.reflTransGen_iff_eq_or_transGen, and_or_left,
    exists_or, exists_eq_right']

/-- How the closure of a set comes about, and what it is. -/
structure ClosureExact (m : Automaton α) (s : StateSet) : Prop where
  ends : ∃ n, n ≤ (m.closure s).size ∧ (∀ k, (m.searchAfter s k).pending = ∅ ↔ n ≤ k) ∧
    (m.searchAfter s n).found = m.closure s
  rounds : ∀ k t, (m.closureRounds ∅ s)[k]? = some t ↔ t = (m.searchAfter s k).pending ∧ t ≠ ∅
  pending_once : ∀ {j k q}, q ∈ (m.searchAfter s j).pending → q ∈ (m.searchAfter s k).pending →
    j = k
  mem_iff : ∀ q, q ∈ m.closure s ↔
    q ∈ s ∨ ∃ p ∈ s, Relation.TransGen (fun p q => ⟨p, .epsilon, q⟩ ∈ m.transitions) p q
  missing : ∀ {live dead}, s = live ∪ dead → (∀ p ∈ dead, m.contains p = false) →
    m.closure s = m.closure live ∪ dead
  contains_given : s ⊆ m.closure s
  closed : ∀ {p q}, p ∈ m.closure s → ⟨p, .epsilon, q⟩ ∈ m.transitions → q ∈ m.closure s
  least : ∀ {t}, s ⊆ t → (∀ {p q}, p ∈ t → ⟨p, .epsilon, q⟩ ∈ m.transitions → q ∈ t) →
    m.closure s ⊆ t

/-- The search ends with the least set that holds the given numbers and is closed under epsilon
edges, and no state is expanded twice. Numbers without a state stay and lead nowhere. -/
theorem closure_exact (hm : m.Reachable) (s : StateSet) : m.ClosureExact s := by
  have hfits := hm.wellFormed.fits
  refine ⟨?_, ?_, pending_unique, ?_, ?_, fun q => subset_closure, ?_, ?_⟩
  · exact ⟨_, length_closureRounds_le m s, fun k => pending_eq_empty_iff,
      found_eq_closure (pending_eq_empty_iff.2 (Nat.le_refl _))⟩
  · intro k t
    rw [getElem?_closureRounds_empty]
    split_ifs with hempty
    · simp [hempty]
    · rw [Option.some.injEq]
      constructor
      · rintro rfl
        exact ⟨rfl, hempty⟩
      · intro h
        exact h.1.symm
  · intro q
    simp only [mem_transitions_iff hfits]
    exact mem_closure_iff_or_transGen
  · intro live dead hs hdead
    ext q
    rw [hs, mem_closure_union, closure_of_missing hdead, StateSet.mem_union]
  · intro p q hp edge
    exact epsilonClosed_closure m s p hp q ((mem_transitions_iff hfits).1 edge)
  · intro t hst hclosed q hq
    obtain ⟨p, hp, hpq⟩ := mem_closure_iff.1 hq
    have ht : m.EpsilonClosed t := fun p hp q hpq => hclosed hp (mem_transitions hpq)
    exact ht.mem_of_reach (hst p hp) hpq

/-- The set holds a state on a cycle, the number of the removed state and one that was never given
out. -/
theorem closure_exact_in_a_cycle :
    epsilonCycle.Reachable ∧ epsilonCycle.ClosureExact (.ofList [2, 1, 7]) :=
  ⟨reachable_epsilonCycle, closure_exact reachable_epsilonCycle _⟩

end Automaton
end FiniteAutomata
