import FiniteAutomata.Proofs.Correspondence
import FiniteAutomata.Proofs.SubsetShape

/-! A state of a deterministic form is reached alone, by the words that lead to the subset it stands
for. So the second of two conversions finds singletons in the order of their members. -/
namespace FiniteAutomata

theorem StateSet.singleton_inj {p q : StateId} (h : ({p} : StateSet) = {q}) : p = q := by
  rw [← mem_singleton, ← h, mem_singleton]

theorem subsetName_singleton (q : StateId) :
    subsetName ({q} : StateSet).toList = "\x7b" ++ decimalName q ++ "\x7d" := rfl

/-- The state that stands for a subset, alone. -/
def Determinized.alone {α : Type} (d : Determinized α) (s : StateSet) : StateSet :=
  {numberOf d.subsets s}

namespace Automaton
variable {α : Type} [DecidableEq α] {m a : Automaton α} {d d' : Determinized α} {s t : StateSet}
  {i p q : StateId} {x : Label α}

/-- What a conversion of a deterministic automaton is expected to return: the same states with the
same marks and edges, each standing for itself and called after itself. -/
structure Reproduced (a : Automaton α) (d : Determinized α) : Prop where
  alphabet : d.dfa.alphabet = a.alphabet
  stateCount : d.dfa.stateCount = a.stateCount
  states : d.dfa.states = a.stateIds.map fun k => (k, "\x7b" ++ decimalName k ++ "\x7d")
  initial : d.dfa.initial = some 0 ∧ a.initial = some 0
  finals : d.dfa.finals = a.finals
  transitions : ∀ e, e ∈ d.dfa.transitions ↔ e ∈ a.transitions
  mapping : d.stateMapping = a.stateIds.map fun k => (k, {k})
  no_dead : ∀ {k}, (k, ∅) ∉ d.stateMapping

namespace Determinizes

theorem name?_numberOf (h : m.Determinizes i d) (hs : s ∈ d.subsets) :
    d.dfa.name? (numberOf d.subsets s) = some (subsetName s.toList) := by
  have hnodes : (m.subsetDiagram d.subsets).nodes =
      d.subsets.map fun s => ⟨some (subsetName s.toList), s.meets m.finals⟩ := rfl
  rw [h.depicts.name?, hnodes, List.getElem?_map, getElem?_numberOf h.fits hs]
  rfl

theorem mem_finals_iff (h : m.Determinizes i d) : q ∈ d.dfa.finals ↔
    ∃ s ∈ d.subsets, numberOf d.subsets s = q ∧ ∃ p ∈ s, p ∈ m.finals := by
  constructor
  · intro hq
    obtain ⟨n, hn, -⟩ := h.depicts.mem_finals.1 hq
    have hlive := h.depicts.contains_iff.2 (List.getElem?_eq_some_iff.1 hn).1
    obtain ⟨s, hs, rfl⟩ := h.exists_numberOf_eq hlive
    exact ⟨s, hs, rfl, (h.numberOf_mem_finals_iff hs).1 hq⟩
  · intro hq
    obtain ⟨s, hs, rfl, hf⟩ := hq
    exact (h.numberOf_mem_finals_iff hs).2 hf

theorem mem_transitions_iff_exists (h : m.Determinizes i d) : ⟨p, x, q⟩ ∈ d.dfa.transitions ↔
    ∃ s ∈ d.subsets, ∃ a ∈ m.alphabet, p = numberOf d.subsets s ∧ x = .literal a ∧
      q = numberOf d.subsets (m.step s a) := by
  rw [h.depicts.mem_transitions_iff h.size_le, subset_edge_iff h.explored]

theorem correspond (h : m.Determinizes i d) : m.Correspond d.dfa d.alone (· ∈ d.subsets) where
  injective hs ht heq := (numberOf_inj h.fits hs ht).1 (StateSet.singleton_inj heq)
  step hs ha := h.explored.mem_step hs ha
  steps hs := by
    rw [h.depicts.alphabet, List.map_map]
    exact List.map_congr_left fun a ha => h.step_dfa hs ha

theorem closureOf_dfa (h : m.Determinizes i d) :
    d.dfa.closureOf 0 = d.alone (m.closureOf i) := by
  rw [closureOf, h.closure_dfa, Determinized.alone, numberOf_start h.explored]

/-- The second exploration finds the states of the first conversion one by one, in their order. -/
theorem reachedSubsets_dfa (h : m.Determinizes i d) (hi : m.initial = some i)
    (hok : m.reachedSubsets 0 = .ok d.subsets) :
    d.dfa.reachedSubsets 0 = .ok (d.subsets.map d.alone) :=
  h.correspond.reachedSubsets hi h.depicts.initial (List.mem_of_getElem? h.explored.first)
    h.closureOf_dfa hok

section Twice
variable (h : m.Determinizes i d) (h' : d.dfa.Determinizes 0 d')
  (hsubsets : d'.subsets = d.subsets.map d.alone)
include h hsubsets

theorem numberOf_twice (hs : s ∈ d.subsets) :
    numberOf d'.subsets (d.alone s) = numberOf d.subsets s := by
  rw [hsubsets]
  exact numberOf_map (fun _ ht => h.correspond.injective hs ht) hs

theorem stateMapping_twice : d'.stateMapping = d.dfa.stateIds.map fun k => (k, {k}) := by
  rw [h.stateIds_eq, Determinized.stateMapping, hsubsets]
  refine List.ext_getElem (by simp) fun k hk _ => ?_
  have hlt : k < d.subsets.length := by simpa using hk
  simp [Determinized.alone, numberOf, h.explored.nodup.idxOf_getElem k hlt]

theorem not_dead_twice {k : StateId} : (k, ∅) ∉ d'.stateMapping := by
  rw [h.stateMapping_twice hsubsets]
  intro hk
  obtain ⟨l, -, hl⟩ := List.mem_map.1 hk
  have hempty : ({l} : StateSet) = ∅ := (Prod.mk.inj hl).2
  exact StateSet.not_mem_empty l (hempty ▸ StateSet.mem_singleton.2 rfl)

include h'

theorem stateIds_twice : d'.dfa.stateIds = d.dfa.stateIds := by
  rw [h'.stateIds_eq, h.stateIds_eq, hsubsets, List.length_map]

theorem states_twice : d'.dfa.states =
    d.dfa.stateIds.map fun k => (k, "\x7b" ++ decimalName k ++ "\x7d") := by
  rw [states_eq_map h'.size_le, h.stateIds_twice h' hsubsets]
  refine List.map_congr_left fun k hk => ?_
  have hlive := (mem_stateIds_iff h.size_le).1 hk
  obtain ⟨s, hs, rfl⟩ := h.exists_numberOf_eq hlive
  have hmem : d.alone s ∈ d'.subsets := hsubsets ▸ List.mem_map_of_mem hs
  have hname : d'.dfa.name? (numberOf d.subsets s) =
      some ("\x7b" ++ decimalName (numberOf d.subsets s) ++ "\x7d") := by
    rw [← h.numberOf_twice hsubsets hs, h'.name?_numberOf hmem, h.numberOf_twice hsubsets hs,
      Determinized.alone, subsetName_singleton]
  rw [hname]
  rfl

theorem finals_twice : d'.dfa.finals = d.dfa.finals := by
  ext q
  rw [h'.mem_finals_iff]
  constructor
  · intro hq
    obtain ⟨t, ht, rfl, p, hp, hf⟩ := hq
    rw [hsubsets] at ht
    obtain ⟨s, hs, rfl⟩ := List.mem_map.1 ht
    obtain rfl := StateSet.mem_singleton.1 hp
    rwa [h.numberOf_twice hsubsets hs]
  · intro hq
    obtain ⟨s, hs, rfl, -⟩ := h.mem_finals_iff.1 hq
    exact ⟨d.alone s, hsubsets ▸ List.mem_map_of_mem hs, h.numberOf_twice hsubsets hs, _,
      StateSet.mem_singleton.2 rfl, hq⟩

theorem mem_transitions_twice :
    ⟨p, x, q⟩ ∈ d'.dfa.transitions ↔ ⟨p, x, q⟩ ∈ d.dfa.transitions := by
  have halphabet : d.dfa.alphabet = m.alphabet := h.depicts.alphabet
  have hstep : ∀ {s b}, s ∈ d.subsets → b ∈ m.alphabet →
      numberOf d'.subsets (d.dfa.step (d.alone s) b) = numberOf d.subsets (m.step s b) := by
    intro s b hs hb
    rw [Determinized.alone, h.step_dfa hs hb]
    exact h.numberOf_twice hsubsets (h.explored.mem_step hs hb)
  rw [h'.mem_transitions_iff_exists, h.mem_transitions_iff_exists, halphabet]
  constructor
  · intro he
    obtain ⟨t, ht, b, hb, hp, hx, hq⟩ := he
    rw [hsubsets] at ht
    obtain ⟨s, hs, rfl⟩ := List.mem_map.1 ht
    rw [h.numberOf_twice hsubsets hs] at hp
    rw [hstep hs hb] at hq
    exact ⟨s, hs, b, hb, hp, hx, hq⟩
  · intro he
    obtain ⟨s, hs, b, hb, hp, hx, hq⟩ := he
    rw [← h.numberOf_twice hsubsets hs] at hp
    rw [← hstep hs hb] at hq
    exact ⟨d.alone s, hsubsets ▸ List.mem_map_of_mem hs, b, hb, hp, hx, hq⟩

theorem reproduced : d.dfa.Reproduced d' where
  alphabet := h'.depicts.alphabet
  stateCount := by rw [h'.stateCount_eq, h.stateCount_eq, hsubsets, List.length_map]
  states := h.states_twice h' hsubsets
  initial := ⟨h'.depicts.initial, h.depicts.initial⟩
  finals := h.finals_twice h' hsubsets
  transitions e := h.mem_transitions_twice h' hsubsets
  mapping := h.stateMapping_twice hsubsets
  no_dead := h.not_dead_twice hsubsets

end Twice

end Determinizes

/-- Determinizing a second time gives the same automaton, number for number. -/
theorem determinize_reproduces_toDfa (hi : m.initial = some i)
    (hfit : ∀ found, m.reachedSubsets 0 = .ok found → found.length ≤ UInt32.size) :
    ∃ a d, m.toDfa = .ok a ∧ a.determinize 0 = .ok d ∧ a.Reproduced d := by
  obtain ⟨d, hok, h⟩ := exists_determinize hi hfit
  have hreached := h.reachedSubsets_dfa hi (determinize_eq_ok_iff.1 hok).1
  have hfit' : ∀ found, d.dfa.reachedSubsets 0 = .ok found → found.length ≤ UInt32.size := by
    intro found hfound
    rw [← Except.ok.inj (hreached.symm.trans hfound), List.length_map]
    exact h.fits
  obtain ⟨d', hok', h'⟩ := exists_determinize h.depicts.initial hfit'
  have hsubsets := Except.ok.inj ((determinize_eq_ok_iff.1 hok').1.symm.trans hreached)
  exact ⟨d.dfa, d', toDfa_eq_ok hok, hok', h.reproduced h' hsubsets⟩

theorem determinize_reproduces_toDfa_of_a_cycle : epsilonCycle.initial = some 0 ∧
    (∀ found, epsilonCycle.reachedSubsets 0 = .ok found → found.length ≤ UInt32.size) ∧
    ∃ a d, epsilonCycle.toDfa = .ok a ∧ a.determinize 0 = .ok d ∧ a.Reproduced d := by
  have hfit : ∀ found, epsilonCycle.reachedSubsets 0 = .ok found → found.length ≤ UInt32.size :=
    fun _ => length_reachedSubsets_epsilonCycle_le
  exact ⟨initial_epsilonCycle, hfit, determinize_reproduces_toDfa initial_epsilonCycle hfit⟩

end Automaton
end FiniteAutomata
