import FiniteAutomata.Proofs.Simulation
import FiniteAutomata.Subset.Discovery
import Mathlib.Data.List.Sublists

/-! The exploration keeps three things true of what it has found (`Explored`): the start comes first
and nothing is listed twice, the steps of every subset that was expanded have been found, and every
subset is reached by some word. -/
namespace FiniteAutomata.Automaton
variable {α : Type} {limit next : Nat} {s start : StateSet} {l found found' : List StateSet}

theorem discover_eq_ok_iff : discover (α := α) limit found s = .ok found' ↔
    s ∈ found ∧ found' = found ∨
      s ∉ found ∧ (limit = 0 ∨ found.length < limit) ∧ found' = found ++ [s] := by
  unfold discover
  split_ifs with hs hlimit
  · simp [hs, eq_comm]
  · have hfull : ¬(limit = 0 ∨ found.length < limit) := by omega
    simp [hs, hfull]
  · have hroom : limit = 0 ∨ found.length < limit := by omega
    simp [hs, hroom, eq_comm]

/-- The second list is the first one, followed by the subsets of `l` that were new. -/
structure Discovers (l found found' : List StateSet) : Prop where
  keeps : found <+: found'
  finds : ∀ s ∈ l, s ∈ found'
  only : ∀ s ∈ found', s ∈ found ∨ s ∈ l
  nodup : found.Nodup → found'.Nodup

theorem discovers_of_discover (h : discover (α := α) limit found s = .ok found') :
    Discovers [s] found found' := by
  rcases discover_eq_ok_iff.1 h with ⟨hs, rfl⟩ | ⟨hs, -, rfl⟩
  · exact ⟨List.prefix_refl found', by simpa using hs, fun t ht => .inl ht, id⟩
  · refine ⟨List.prefix_append found [s], by simp, by simp, fun hnodup => ?_⟩
    exact List.nodup_append.2 ⟨hnodup, List.nodup_singleton s, by grind⟩

theorem Discovers.cons {mid : List StateSet} (h : Discovers [s] found mid)
    (h' : Discovers l mid found') : Discovers (s :: l) found found' where
  keeps := h.keeps.trans h'.keeps
  finds t ht := by
    rcases List.mem_cons.1 ht with rfl | ht
    · exact h'.keeps.subset (h.finds t List.mem_cons_self)
    · exact h'.finds t ht
  only t ht := by
    rcases h'.only t ht with ht | ht
    · have := h.only t ht
      simp only [List.mem_cons, List.not_mem_nil, or_false] at this ⊢
      exact this.imp_right .inl
    · exact .inr (List.mem_cons_of_mem s ht)
  nodup hnodup := h'.nodup (h.nodup hnodup)

theorem discovers_of_foldlM (h : l.foldlM (discover (α := α) limit) found = .ok found') :
    Discovers l found found' := by
  induction l generalizing found with
  | nil =>
    obtain rfl := Except.ok.inj h
    exact ⟨List.prefix_refl found, by simp, fun s hs => .inl hs, id⟩
  | cons s l ih =>
    rw [List.foldlM_cons] at h
    obtain ⟨mid, hmid, h⟩ := bind_eq_ok_iff.1 h
    exact (discovers_of_discover hmid).cons (ih h)

theorem exists_discover (found : List StateSet) (s : StateSet) :
    ∃ found', discover (α := α) 0 found s = .ok found' := by
  by_cases hs : s ∈ found
  · exact ⟨_, discover_eq_ok_iff.2 (.inl ⟨hs, rfl⟩)⟩
  · exact ⟨_, discover_eq_ok_iff.2 (.inr ⟨hs, .inl rfl, rfl⟩)⟩

theorem exists_foldlM_discover (l found : List StateSet) :
    ∃ found', l.foldlM (discover (α := α) 0) found = .ok found' := by
  induction l generalizing found with
  | nil => exact ⟨found, rfl⟩
  | cons s l ih =>
    obtain ⟨mid, hmid⟩ := exists_discover (α := α) found s
    obtain ⟨found', h⟩ := ih mid
    exact ⟨found', by rw [List.foldlM_cons, hmid]; exact h⟩

variable [DecidableEq α] {m : Automaton α} {i : StateId} {w : List α}

/-- What holds of the subsets found, when those before number `next` have been expanded. -/
structure Explored (m : Automaton α) (start : StateSet) (found : List StateSet) (next : Nat) :
    Prop where
  first : found[0]? = some start
  nodup : found.Nodup
  expanded : ∀ {k s a}, k < next → found[k]? = some s → a ∈ m.alphabet → m.step s a ∈ found
  reached : ∀ {s}, s ∈ found → ∃ w, (∀ a ∈ w, a ∈ m.alphabet) ∧ m.stepAll start w = s

theorem explored_start (m : Automaton α) (start : StateSet) : m.Explored start [start] 0 where
  first := rfl
  nodup := List.nodup_singleton start
  expanded hk := absurd hk (Nat.not_lt_zero _)
  reached hs := ⟨[], by simp, (List.mem_singleton.1 hs).symm⟩

/-- A subset that a step leads to is reached as well. -/
theorem Explored.reached_step (h : m.Explored start found next) (hs : s ∈ found) {a : α}
    (ha : a ∈ m.alphabet) : ∃ w, (∀ a ∈ w, a ∈ m.alphabet) ∧ m.stepAll start w = m.step s a := by
  obtain ⟨w, hw, rfl⟩ := h.reached hs
  refine ⟨w ++ [a], ?_, stepAll_append⟩
  simpa [or_imp, forall_and] using ⟨hw, ha⟩

theorem Discovers.getElem?_eq {k : Nat} (h : Discovers l found found') (hk : k < found.length) :
    found'[k]? = found[k]? := by
  obtain ⟨new, rfl⟩ := h.keeps
  exact List.getElem?_append_left hk

/-- Subsets that are found in addition change nothing, if they are reached. -/
theorem Explored.discovers (h : m.Explored start found next) (hd : Discovers l found found')
    (hnext : next < found.length)
    (hl : ∀ t ∈ l, ∃ w, (∀ a ∈ w, a ∈ m.alphabet) ∧ m.stepAll start w = t) :
    m.Explored start found' next := by
  refine ⟨?_, hd.nodup h.nodup, ?_, ?_⟩
  · rw [hd.getElem?_eq (by omega)]
    exact h.first
  · intro k t a hk ht ha
    rw [hd.getElem?_eq (by omega)] at ht
    exact hd.keeps.subset (h.expanded hk ht ha)
  · intro t ht
    exact (hd.only t ht).elim h.reached (hl t)

/-- One expansion adds the steps of one subset. -/
theorem Explored.discoverSteps (h : m.Explored start found next) (hs : found[next]? = some s)
    (hstep : m.discoverSteps limit found s = .ok found') : m.Explored start found' (next + 1) := by
  have hd := discovers_of_foldlM hstep
  have hnext := (List.getElem?_eq_some_iff.1 hs).1
  have hall : m.Explored start found' next := by
    refine h.discovers hd hnext fun t ht => ?_
    obtain ⟨a, ha, rfl⟩ := List.mem_map.1 ht
    exact h.reached_step (List.mem_of_getElem? hs) ha
  refine { hall with expanded := fun {k t a} hk ht ha => ?_ }
  rcases Nat.lt_succ_iff_lt_or_eq.1 hk with hk | rfl
  · exact hall.expanded hk ht ha
  · rw [hd.getElem?_eq hnext] at ht
    obtain rfl := Option.some.inj (hs.symm.trans ht)
    exact hd.finds _ (List.mem_map_of_mem ha)

theorem Explored.explore (h : m.Explored start found next)
    (hok : m.explore limit found next = .ok found') :
    m.Explored start found' found'.length := by
  fun_induction Automaton.explore m limit found next with
  | case1 found next hnext mid hmid ih =>
    exact ih (h.discoverSteps (List.getElem?_eq_getElem hnext) hmid) hok
  | case2 found next hnext fault hfault => cases hok
  | case3 found next hnext =>
    obtain rfl := Except.ok.inj hok
    exact { h with expanded := fun hk => h.expanded (by omega) }

/-- One expansion, and then the rest. -/
theorem explore_of_lt (hnext : next < found.length) : m.explore limit found next =
    m.discoverSteps limit found found[next] >>= fun mid => m.explore limit mid (next + 1) := by
  rw [Automaton.explore, dif_pos hnext]
  split
  · next mid hmid => rw [hmid]; rfl
  · next fault hfault => rw [hfault]; rfl

/-- The exploration only adds to what has been found. -/
theorem prefix_of_explore (hok : m.explore limit found next = .ok found') : found <+: found' := by
  fun_induction Automaton.explore m limit found next with
  | case1 found next hnext mid hmid ih => exact (discovers_of_foldlM hmid).keeps.trans (ih hok)
  | case2 found next hnext fault hfault => cases hok
  | case3 found next hnext =>
    obtain rfl := Except.ok.inj hok
    exact List.prefix_refl found

theorem length_le_of_explore (hok : m.explore limit found next = .ok found') :
    found.length ≤ found'.length :=
  (prefix_of_explore hok).length_le

theorem exists_explore (m : Automaton α) (found : List StateSet) (next : Nat) :
    ∃ found', m.explore 0 found next = .ok found' := by
  fun_induction Automaton.explore m 0 found next with
  | case1 found next hnext mid hmid ih => exact ih
  | case2 found next hnext fault hfault =>
    obtain ⟨mid, hmid⟩ := exists_foldlM_discover (α := α)
      (m.alphabet.symbols.map (m.step found[next])) found
    cases hfault.symm.trans hmid
  | case3 found next hnext => exact ⟨found, rfl⟩

theorem reachedSubsets_eq (hi : m.initial = some i) :
    m.reachedSubsets limit = m.explore limit [m.closureOf i] 0 := by
  rw [reachedSubsets, findInitial_eq_ok hi]
  rfl

theorem explored_reachedSubsets (hi : m.initial = some i)
    (h : m.reachedSubsets limit = .ok found) :
    m.Explored (m.closureOf i) found found.length :=
  (explored_start m (m.closureOf i)).explore (reachedSubsets_eq hi ▸ h)

theorem exists_reachedSubsets (hi : m.initial = some i) :
    ∃ found, m.reachedSubsets 0 = .ok found := by
  rw [reachedSubsets_eq hi]
  exact m.exists_explore [m.closureOf i] 0

namespace Explored

theorem mem_step (h : m.Explored start found found.length) (hs : s ∈ found) {a : α}
    (ha : a ∈ m.alphabet) : m.step s a ∈ found := by
  obtain ⟨k, hk⟩ := List.mem_iff_getElem?.1 hs
  exact h.expanded (List.getElem?_eq_some_iff.1 hk).1 hk ha

theorem mem_stepAll (h : m.Explored start found found.length) (hs : s ∈ found)
    (hw : ∀ a ∈ w, a ∈ m.alphabet) : m.stepAll s w ∈ found := by
  induction w generalizing s with
  | nil => exact hs
  | cons a w ih =>
    obtain ⟨ha, hw⟩ := List.forall_mem_cons.1 hw
    exact ih (h.mem_step hs ha) hw

/-- The subsets found are those that words over the alphabet lead to. -/
theorem mem_iff (h : m.Explored start found found.length) :
    s ∈ found ↔ ∃ w, (∀ a ∈ w, a ∈ m.alphabet) ∧ m.stepAll start w = s := by
  refine ⟨h.reached, ?_⟩
  intro hr
  obtain ⟨w, hw, hs⟩ := hr
  rw [← hs]
  exact h.mem_stepAll (List.mem_of_getElem? h.first) hw

end Explored

/-- Each subset is one of the sets of states, and none is found twice. -/
theorem length_reachedSubsets_le (hm : m.WellFormed) (hi : m.initial = some i)
    (h : m.reachedSubsets limit = .ok found) : found.length ≤ 2 ^ m.stateCount := by
  have hex := explored_reachedSubsets hi h
  have hsub : found.map StateSet.toList ⊆ m.stateIds.sublists := by
    intro l hl
    obtain ⟨s, hs, rfl⟩ := List.mem_map.1 hl
    obtain ⟨w, -, rfl⟩ := hex.reached hs
    let states : StateSet := ⟨m.stateIds, stateIds_ascending hm.fits⟩
    have hlive : m.stepAll (m.closureOf i) w ⊆ states := by
      intro q hq
      have hread := (mem_stepAll_closureOf_iff hm).1 hq
      exact (mem_stateIds_iff hm.fits).2 (hread.target_live hm (hm.initial_live hi))
    exact List.mem_sublists.2 (StateSet.sublist_of_subset hlive)
  have hnodup : (found.map StateSet.toList).Nodup :=
    hex.nodup.map fun s t => StateSet.toList_injective
  have hle := (hnodup.subperm hsub).length_le
  rwa [List.length_map, List.length_sublists, length_stateIds] at hle

/-- With as many states as a number has digits, or fewer, the subsets can be numbered. -/
theorem length_reachedSubsets_le_size (hm : m.WellFormed) (hi : m.initial = some i)
    (hcount : m.stateCount ≤ 32) (h : m.reachedSubsets limit = .ok found) :
    found.length ≤ UInt32.size :=
  (length_reachedSubsets_le hm hi h).trans (Nat.pow_le_pow_right (by omega) hcount)

theorem length_reachedSubsets_epsilonCycle_le (h : epsilonCycle.reachedSubsets limit = .ok found) :
    found.length ≤ UInt32.size :=
  length_reachedSubsets_le_size reachable_epsilonCycle.wellFormed initial_epsilonCycle
    (by decide +kernel) h

end FiniteAutomata.Automaton
