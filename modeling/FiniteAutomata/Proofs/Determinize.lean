import FiniteAutomata.Proofs.Discovery

namespace FiniteAutomata
variable {α : Type} {q : StateId}

/-- The state that stands for a subset among those found. -/
def numberOf (found : List StateSet) (s : StateSet) : StateId := UInt32.ofNat (found.idxOf s)

section Numbers
variable {found : List StateSet} {s t : StateSet} {k : Nat}

theorem toNat_numberOf (fits : found.length ≤ UInt32.size) (hs : s ∈ found) :
    (numberOf found s).toNat = found.idxOf s := by
  have hlt := List.idxOf_lt_length_of_mem hs
  exact UInt32.toNat_ofNat_of_lt' (by omega)

theorem getElem?_numberOf (fits : found.length ≤ UInt32.size) (hs : s ∈ found) :
    found[(numberOf found s).toNat]? = some s := by
  rw [toNat_numberOf fits hs]
  exact List.getElem?_idxOf hs

theorem numberOf_inj (fits : found.length ≤ UInt32.size) (hs : s ∈ found) (ht : t ∈ found) :
    numberOf found s = numberOf found t ↔ s = t := by
  rw [← UInt32.toNat_inj, toNat_numberOf fits hs, toNat_numberOf fits ht]
  exact List.idxOf_inj hs

theorem numberOf_eq (hnodup : found.Nodup) (hk : found[k]? = some s) :
    numberOf found s = UInt32.ofNat k := by
  obtain ⟨hlt, rfl⟩ := List.getElem?_eq_some_iff.1 hk
  rw [numberOf, hnodup.idxOf_getElem k hlt]

end Numbers

/-- The subset that a state stands for is the one at the place of its number. -/
theorem lookup_stateMapping {d : Determinized α} (fits : d.subsets.length ≤ UInt32.size) :
    d.stateMapping.lookup q = d.subsets[q.toNat]? := by
  rw [Determinized.stateMapping, lookup_zipIdx d.subsets 0 (by omega)]
  simp

namespace Automaton
variable [DecidableEq α] {m : Automaton α} {d : Determinized α} {found : List StateSet}
  {s start : StateSet} {i p : StateId} {x : Label α} {a : α} {w : List α} {limit : Nat}

theorem subset_edge_iff (hex : m.Explored start found found.length) :
    ⟨p, x, q⟩ ∈ (m.subsetDiagram found).edges ↔ ∃ s ∈ found, ∃ a ∈ m.alphabet,
      p = numberOf found s ∧ x = .literal a ∧ q = numberOf found (m.step s a) := by
  have hedges : (m.subsetDiagram found).edges =
      found.zipIdx.flatMap fun s => m.subsetEdges found s.1 s.2 := rfl
  simp only [hedges, List.mem_flatMap, subsetEdges, List.mem_map, Edge.mk.injEq,
    List.mem_zipIdx_iff_getElem?, Alphabet.mem_symbols]
  constructor
  · intro h
    obtain ⟨⟨s, k⟩, hk, a, ha, hp, hx, hq⟩ := h
    have hnumber := numberOf_eq hex.nodup hk
    exact ⟨s, List.mem_of_getElem? hk, a, ha, hp ▸ hnumber.symm, hx.symm, hq.symm⟩
  · intro h
    obtain ⟨s, hs, a, ha, hp, hx, hq⟩ := h
    exact ⟨(s, found.idxOf s), List.getElem?_idxOf hs, a, ha, hp.symm, hx.symm, hq.symm⟩

theorem numberOf_start (hex : m.Explored start found found.length) : numberOf found start = 0 :=
  numberOf_eq hex.nodup hex.first

theorem length_subset_nodes (m : Automaton α) (found : List StateSet) :
    (m.subsetDiagram found).nodes.length = found.length := by
  simp [subsetDiagram]

theorem valid_subsetDiagram (hex : m.Explored start found found.length)
    (fits : found.length ≤ UInt32.size) : (m.subsetDiagram found).Valid := by
  have hlen := length_subset_nodes m found
  have hlt : ∀ {s}, s ∈ found → (numberOf found s).toNat < found.length := by
    intro s hs
    rw [toNat_numberOf fits hs]
    exact List.idxOf_lt_length_of_mem hs
  refine ⟨?_, ?_, ?_, ?_⟩
  · rwa [hlen]
  · intro p x q he
    obtain ⟨s, hs, a, ha, rfl, -, rfl⟩ := (subset_edge_iff hex).1 he
    rw [hlen]
    exact ⟨hlt hs, hlt (hex.mem_step hs ha)⟩
  · intro p b q he
    obtain ⟨s, -, a, ha, -, hx, -⟩ := (subset_edge_iff hex).1 he
    obtain rfl := Label.literal.inj hx
    exact ha
  · intro q hq
    obtain rfl := Option.some.inj hq
    rw [hlen, ← numberOf_start hex]
    exact hlt (List.mem_of_getElem? hex.first)

/-- What a conversion returns: the subsets that runs reach, and the automaton of their diagram. -/
structure Determinizes (m : Automaton α) (i : StateId) (d : Determinized α) : Prop where
  explored : m.Explored (m.closureOf i) d.subsets d.subsets.length
  fits : d.subsets.length ≤ UInt32.size
  depicts : (m.subsetDiagram d.subsets).Depicts d.dfa

theorem determinizes_of_eq_ok (hi : m.initial = some i) (h : m.determinize limit = .ok d)
    (fits : d.subsets.length ≤ UInt32.size) : m.Determinizes i d := by
  obtain ⟨hfound, hbuild⟩ := determinize_eq_ok_iff.1 h
  have hex := explored_reachedSubsets hi hfound
  obtain ⟨dfa, hdfa, hd, -⟩ := (valid_subsetDiagram hex fits).build
  obtain rfl := Except.ok.inj (hbuild.symm.trans hdfa)
  exact ⟨hex, fits, hd⟩

/-- Without a limit a conversion never fails, as long as the subsets can be numbered. -/
theorem exists_determinize (hi : m.initial = some i)
    (hfit : ∀ found, m.reachedSubsets 0 = .ok found → found.length ≤ UInt32.size) :
    ∃ d, m.determinize 0 = .ok d ∧ m.Determinizes i d := by
  obtain ⟨found, hfound⟩ := exists_reachedSubsets hi
  have hex := explored_reachedSubsets hi hfound
  obtain ⟨dfa, hdfa, -, -⟩ := (valid_subsetDiagram hex (hfit found hfound)).build
  have hok : m.determinize 0 = .ok ⟨dfa, found⟩ := determinize_eq_ok_iff.2 ⟨hfound, hdfa⟩
  exact ⟨_, hok, determinizes_of_eq_ok hi hok (hfit found hfound)⟩

theorem toDfa_eq_ok (h : m.determinize 0 = .ok d) : m.toDfa = .ok d.dfa := by
  rw [toDfa, h]
  rfl

namespace Determinizes

theorem initial_dfa (h : m.Determinizes i d) : d.dfa.initial = some 0 := h.depicts.initial

theorem alphabet_dfa (h : m.Determinizes i d) : d.dfa.alphabet = m.alphabet := h.depicts.alphabet

theorem mem_destinations_iff (h : m.Determinizes i d) (hs : s ∈ d.subsets) :
    q ∈ d.dfa.destinations (numberOf d.subsets s) x ↔
      ∃ a ∈ m.alphabet, x = .literal a ∧ q = numberOf d.subsets (m.step s a) := by
  rw [h.depicts.mem_destinations, subset_edge_iff h.explored]
  constructor
  · intro hr
    obtain ⟨t, ht, a, ha, hst, hx, hq⟩ := hr
    obtain rfl := (numberOf_inj h.fits hs ht).1 hst
    exact ⟨a, ha, hx, hq⟩
  · intro hr
    obtain ⟨a, ha, hx, hq⟩ := hr
    exact ⟨s, hs, a, ha, rfl, hx, hq⟩

theorem mem_destinations_literal_iff (h : m.Determinizes i d) (hs : s ∈ d.subsets)
    (ha : a ∈ m.alphabet) : q ∈ d.dfa.destinations (numberOf d.subsets s) (.literal a) ↔
      q = numberOf d.subsets (m.step s a) := by
  rw [h.mem_destinations_iff hs]
  constructor
  · intro hr
    obtain ⟨b, _, hb, hq⟩ := hr
    obtain rfl := Label.literal.inj hb
    exact hq
  · intro hq
    exact ⟨a, ha, rfl, hq⟩

theorem closure_dfa (h : m.Determinizes i d) (t : StateSet) : d.dfa.closure t = t := by
  refine closure_eq_self fun p _ q hq => ?_
  obtain ⟨_, _, a, _, -, hx, -⟩ := (subset_edge_iff h.explored).1 (h.depicts.mem_destinations.1 hq)
  cases hx

theorem step_dfa (h : m.Determinizes i d) (hs : s ∈ d.subsets) (ha : a ∈ m.alphabet) :
    d.dfa.step {numberOf d.subsets s} a = {numberOf d.subsets (m.step s a)} := by
  ext q
  rw [step, h.closure_dfa, h.closure_dfa]
  simp only [mem_image, StateSet.mem_singleton, exists_eq_left,
    h.mem_destinations_literal_iff hs ha]

/-- Stepping through a word leads from the number of a subset to the number of what the word leads
to from that subset. -/
theorem stepAll_dfa (h : m.Determinizes i d) (hs : s ∈ d.subsets)
    (hw : ∀ a ∈ w, a ∈ m.alphabet) :
    d.dfa.stepAll {numberOf d.subsets s} w = {numberOf d.subsets (m.stepAll s w)} := by
  induction w generalizing s with
  | nil => rfl
  | cons a w ih =>
    obtain ⟨ha, hw⟩ := List.forall_mem_cons.1 hw
    rw [stepAll_cons, stepAll_cons, h.step_dfa hs ha]
    exact ih (h.explored.mem_step hs ha) hw

theorem stepAll_closureOf_dfa (h : m.Determinizes i d) (hw : ∀ a ∈ w, a ∈ m.alphabet) :
    d.dfa.stepAll (d.dfa.closureOf 0) w =
      {numberOf d.subsets (m.stepAll (m.closureOf i) w)} := by
  rw [closureOf, h.closure_dfa, ← numberOf_start h.explored]
  exact h.stepAll_dfa (List.mem_of_getElem? h.explored.first) hw

theorem numberOf_mem_finals_iff (h : m.Determinizes i d) (hs : s ∈ d.subsets) :
    numberOf d.subsets s ∈ d.dfa.finals ↔ ∃ q ∈ s, q ∈ m.finals := by
  have hnodes : (m.subsetDiagram d.subsets).nodes =
      d.subsets.map fun s => ⟨some (subsetName s.toList), s.meets m.finals⟩ := rfl
  rw [h.depicts.mem_finals, hnodes, List.getElem?_map, getElem?_numberOf h.fits hs]
  simp

theorem accepts_dfa (h : m.Determinizes i d) (hi : m.initial = some i)
    (hw : ∀ a ∈ w, a ∈ m.alphabet) : d.dfa.accepts w = m.accepts w := by
  have hmem := h.explored.mem_stepAll (List.mem_of_getElem? h.explored.first) hw
  rw [accepts_eq_ok h.initial_dfa (h.alphabet_dfa ▸ hw), accepts_eq_ok hi hw,
    h.stepAll_closureOf_dfa hw, Except.ok.injEq, Bool.eq_iff_iff]
  simpa using h.numberOf_mem_finals_iff hmem

theorem language_dfa (h : m.Determinizes i d) (hi : m.initial = some i) :
    d.dfa.language = m.language := by
  ext w
  constructor
  · intro hw
    have hover : ∀ a ∈ w, a ∈ m.alphabet := h.alphabet_dfa ▸ symbol_valid_of_mem_language hw
    exact (h.accepts_dfa hi hover).symm.trans hw
  · intro hw
    exact (h.accepts_dfa hi (symbol_valid_of_mem_language hw)).trans hw

end Determinizes

/-- The subset construction refines the run. Without a limit it never fails, and on a word over the
alphabet the run of the deterministic automaton ends in the one state that stands for the set in
which the run of the original ends. -/
theorem determinize_refines_run (hi : m.initial = some i)
    (hfit : ∀ found, m.reachedSubsets 0 = .ok found → found.length ≤ UInt32.size) :
    ∃ d, m.determinize 0 = .ok d ∧ d.dfa.alphabet = m.alphabet ∧
      ∀ w, (∀ a ∈ w, a ∈ m.alphabet) → ∃ k s, d.dfa.run w = .ok {k} ∧ m.run w = .ok s ∧
        d.stateMapping.lookup k = some s ∧
        (k ∈ d.dfa.finals ↔ ∃ q ∈ s, q ∈ m.finals) ∧
        d.dfa.accepts w = m.accepts w ∧
        (m.run w = .ok ∅ → d.stateMapping.lookup k = some ∅) := by
  obtain ⟨d, hok, h⟩ := exists_determinize hi hfit
  have halphabet : d.dfa.alphabet = m.alphabet := h.depicts.alphabet
  refine ⟨d, hok, halphabet, fun w hw => ?_⟩
  have hw' : ∀ a ∈ w, a ∈ d.dfa.alphabet := by rwa [halphabet]
  have hinit : d.dfa.initial = some 0 := h.depicts.initial
  have hmem := h.explored.mem_stepAll (List.mem_of_getElem? h.explored.first) hw
  have hrun := run_eq_ok hi hw
  have hfinal := h.numberOf_mem_finals_iff hmem
  have hlookup : d.stateMapping.lookup (numberOf d.subsets (m.stepAll (m.closureOf i) w)) =
      some (m.stepAll (m.closureOf i) w) := by
    rw [lookup_stateMapping h.fits, getElem?_numberOf h.fits hmem]
  refine ⟨_, _, ?_, hrun, hlookup, hfinal, ?_, fun hdead => ?_⟩
  · rw [run_eq_ok hinit hw', h.stepAll_closureOf_dfa hw]
  · rw [accepts_eq_ok hinit hw', accepts_eq_ok hi hw, h.stepAll_closureOf_dfa hw, Except.ok.injEq,
      Bool.eq_iff_iff]
    simpa using hfinal
  · rw [hlookup, Except.ok.inj (hrun.symm.trans hdead)]

theorem determinize_refines_run_of_a_cycle : epsilonCycle.initial = some 0 ∧
    (∀ found, epsilonCycle.reachedSubsets 0 = .ok found → found.length ≤ UInt32.size) ∧
    ∃ d, epsilonCycle.determinize 0 = .ok d ∧ d.dfa.alphabet = epsilonCycle.alphabet ∧
      ∀ w, (∀ a ∈ w, a ∈ epsilonCycle.alphabet) → ∃ k s, d.dfa.run w = .ok {k} ∧
        epsilonCycle.run w = .ok s ∧ d.stateMapping.lookup k = some s ∧
        (k ∈ d.dfa.finals ↔ ∃ q ∈ s, q ∈ epsilonCycle.finals) ∧
        d.dfa.accepts w = epsilonCycle.accepts w ∧
        (epsilonCycle.run w = .ok ∅ → d.stateMapping.lookup k = some ∅) := by
  have hfit : ∀ found, epsilonCycle.reachedSubsets 0 = .ok found → found.length ≤ UInt32.size :=
    fun _ => length_reachedSubsets_epsilonCycle_le
  exact ⟨initial_epsilonCycle, hfit, determinize_refines_run initial_epsilonCycle hfit⟩

end Automaton
end FiniteAutomata
