import FiniteAutomata.Proofs.Determinize

namespace FiniteAutomata.Automaton
variable {α : Type} [DecidableEq α] {m : Automaton α} {d : Determinized α} {s : StateSet}
  {i k p q : StateId} {x : Label α} {limit : Nat}

/-- What a conversion of `m` is expected to return. -/
structure SubsetAutomaton (m : Automaton α) (d : Determinized α) : Prop where
  alphabet : d.dfa.alphabet = m.alphabet
  no_epsilon : ∀ {p q}, ⟨p, .epsilon, q⟩ ∉ d.dfa.transitions
  one_edge : ∀ {p a}, d.dfa.contains p = true → a ∈ m.alphabet →
    ∃! q, ⟨p, .literal a, q⟩ ∈ d.dfa.transitions
  initial : d.dfa.initial = some 0
  states : d.dfa.stateIds = (List.range d.dfa.stateCount).map UInt32.ofNat
  keys : d.stateMapping.map Prod.fst = d.dfa.stateIds
  ascending : ∀ {k s}, (k, s) ∈ d.stateMapping → s.toList.Pairwise (· < ·)
  closed : ∀ {k s p q}, (k, s) ∈ d.stateMapping → p ∈ s → ⟨p, .epsilon, q⟩ ∈ m.transitions → q ∈ s
  distinct : (d.stateMapping.map Prod.snd).Nodup
  reached : ∀ {s}, s ∈ d.stateMapping.map Prod.snd ↔
    ∃ w, (∀ a ∈ w, a ∈ m.alphabet) ∧ m.run w = .ok s
  edge : ∀ {k s a q}, (k, s) ∈ d.stateMapping → a ∈ m.alphabet →
    (⟨k, .literal a, q⟩ ∈ d.dfa.transitions ↔
      ∃ t, m.moveOn s a = .ok t ∧ (q, t) ∈ d.stateMapping)
  final : ∀ {k s}, (k, s) ∈ d.stateMapping → (k ∈ d.dfa.finals ↔ ∃ q ∈ s, q ∈ m.finals)

omit [DecidableEq α] in
theorem map_snd_stateMapping (d : Determinized α) : d.stateMapping.map Prod.snd = d.subsets := by
  have hcomp : (Prod.snd ∘ fun s : StateSet × Nat => (UInt32.ofNat s.2, s.1)) = Prod.fst := rfl
  rw [Determinized.stateMapping, List.map_map, hcomp, List.zipIdx_map_fst]

omit [DecidableEq α] in
theorem map_fst_stateMapping (d : Determinized α) :
    d.stateMapping.map Prod.fst = (List.range d.subsets.length).map UInt32.ofNat := by
  have hcomp : (Prod.fst ∘ fun s : StateSet × Nat => (UInt32.ofNat s.2, s.1)) =
      UInt32.ofNat ∘ Prod.snd := rfl
  rw [Determinized.stateMapping, List.map_map, hcomp, ← List.map_map, List.zipIdx_map_snd,
    ← List.range_eq_range']

namespace Determinizes

theorem mem_stateMapping_iff (h : m.Determinizes i d) :
    (k, s) ∈ d.stateMapping ↔ s ∈ d.subsets ∧ k = numberOf d.subsets s := by
  simp only [Determinized.stateMapping, List.mem_map, Prod.exists, List.mem_zipIdx_iff_getElem?,
    Prod.mk.injEq]
  constructor
  · intro hk
    obtain ⟨t, n, hn, rfl, rfl⟩ := hk
    exact ⟨List.mem_of_getElem? hn, (numberOf_eq h.explored.nodup hn).symm⟩
  · intro hs
    obtain ⟨hs, rfl⟩ := hs
    exact ⟨s, d.subsets.idxOf s, List.getElem?_idxOf hs, rfl, rfl⟩

theorem size_slots (h : m.Determinizes i d) : d.dfa.slots.size = d.subsets.length := by
  rw [h.depicts.size, length_subset_nodes]

theorem size_le (h : m.Determinizes i d) : d.dfa.slots.size ≤ UInt32.size :=
  h.size_slots.trans_le h.fits

theorem stateIds_eq (h : m.Determinizes i d) :
    d.dfa.stateIds = (List.range d.subsets.length).map UInt32.ofNat := by
  have hnodes := length_subset_nodes m d.subsets
  rw [h.depicts.stateIds_eq (hnodes.trans_le h.fits), hnodes]

theorem stateCount_eq (h : m.Determinizes i d) : d.dfa.stateCount = d.subsets.length := by
  rw [← length_stateIds, h.stateIds_eq, List.length_map, List.length_range]

/-- The edges of a state, by the subset that it stands for. -/
theorem mem_transitions_iff (h : m.Determinizes i d) (hs : s ∈ d.subsets) :
    ⟨numberOf d.subsets s, x, q⟩ ∈ d.dfa.transitions ↔
      ∃ a ∈ m.alphabet, x = .literal a ∧ q = numberOf d.subsets (m.step s a) := by
  rw [Automaton.mem_transitions_iff h.size_le, h.mem_destinations_iff hs]

/-- Every state stands for a subset. -/
theorem exists_numberOf_eq (h : m.Determinizes i d) (hp : d.dfa.contains p = true) :
    ∃ s ∈ d.subsets, numberOf d.subsets s = p := by
  rw [h.depicts.contains_iff, length_subset_nodes] at hp
  have hget := List.getElem?_eq_getElem hp
  refine ⟨_, List.getElem_mem hp, ?_⟩
  rw [numberOf_eq h.explored.nodup hget, UInt32.ofNat_toNat]

theorem edge_iff (h : m.Determinizes i d) (hs : s ∈ d.subsets) {a : α} (ha : a ∈ m.alphabet) :
    ⟨numberOf d.subsets s, .literal a, q⟩ ∈ d.dfa.transitions ↔
      q = numberOf d.subsets (m.step s a) := by
  rw [Automaton.mem_transitions_iff h.size_le, h.mem_destinations_literal_iff hs ha]

end Determinizes

/-- A conversion that succeeds, with a limit or without, returns the subset automaton. -/
theorem determinize_gives_subsetAutomaton (hm : m.Reachable) (hi : m.initial = some i)
    (hok : m.determinize limit = .ok d) (fits : d.subsets.length ≤ UInt32.size) :
    m.SubsetAutomaton d := by
  have hwf := hm.wellFormed
  have h := determinizes_of_eq_ok hi hok fits
  have hsize : d.dfa.slots.size ≤ UInt32.size := h.size_slots.trans_le fits
  have hnodes := length_subset_nodes m d.subsets
  have hids := h.depicts.stateIds_eq (hnodes.trans_le fits)
  have hcount := h.depicts.stateCount_eq (hnodes.trans_le fits)
  refine ⟨h.depicts.alphabet, ?_, ?_, h.depicts.initial, ?_, ?_, ?_, ?_, ?_, ?_, ?_, ?_⟩
  · intro p q he
    obtain ⟨s, hs, rfl⟩ := h.exists_numberOf_eq
      (contains_of_mem_destinations ((mem_transitions_iff hsize).1 he))
    obtain ⟨a, -, hx, -⟩ := (h.mem_transitions_iff hs).1 he
    cases hx
  · intro p a hp ha
    obtain ⟨s, hs, rfl⟩ := h.exists_numberOf_eq hp
    exact ⟨_, (h.edge_iff hs ha).2 rfl, fun q hq => (h.edge_iff hs ha).1 hq⟩
  · rw [hids, hcount]
  · rw [map_fst_stateMapping, hids, hnodes]
  · intro k s _
    exact s.ascending
  · intro k s p q hk hp he
    obtain ⟨w, -, rfl⟩ := h.explored.reached (h.mem_stateMapping_iff.1 hk).1
    have hclosed : m.EpsilonClosed (m.stepAll (m.closureOf i) w) :=
      epsilonClosed_stepAll (epsilonClosed_closure m {i}) w
    exact hclosed p hp q ((mem_transitions_iff hwf.fits).1 he)
  · rw [map_snd_stateMapping]
    exact h.explored.nodup
  · intro s
    rw [map_snd_stateMapping, h.explored.mem_iff]
    refine exists_congr fun w => and_congr_right fun hw => ?_
    rw [run_eq_ok hi hw, Except.ok.injEq]
  · intro k s a q hk ha
    obtain ⟨hs, rfl⟩ := h.mem_stateMapping_iff.1 hk
    have hstep := h.explored.mem_step hs ha
    simp only [h.edge_iff hs ha, moveOn_eq_ok ha, Except.ok.injEq, exists_eq_left',
      h.mem_stateMapping_iff, hstep, true_and]
  · intro k s hk
    obtain ⟨hs, rfl⟩ := h.mem_stateMapping_iff.1 hk
    exact h.numberOf_mem_finals_iff hs

theorem determinize_gives_subsetAutomaton_of_a_cycle : epsilonCycle.Reachable ∧
    epsilonCycle.initial = some 0 ∧ ∃ d, epsilonCycle.determinize 0 = .ok d ∧
      d.subsets.length ≤ UInt32.size ∧ epsilonCycle.SubsetAutomaton d := by
  obtain ⟨d, hok, h⟩ :=
    exists_determinize initial_epsilonCycle fun _ => length_reachedSubsets_epsilonCycle_le
  exact ⟨reachable_epsilonCycle, initial_epsilonCycle, d, hok, h.fits,
    determinize_gives_subsetAutomaton reachable_epsilonCycle initial_epsilonCycle hok h.fits⟩

end FiniteAutomata.Automaton
