import FiniteAutomata.Proofs.SubsetShape
import FiniteAutomata.Proofs.WordOrder

/-! At any time the subsets found are the first ones in the order of the first words that lead to
them (`InOrder`). The next one to be found is a step from the subset that is being expanded, on the
symbol that is being tried. -/
namespace FiniteAutomata.Automaton
variable {α : Type} [DecidableEq α] {m m' : Automaton α} {d : Determinized α}
  {s t start start' : StateSet} {found found' : List StateSet} {i k : StateId} {a : α}
  {u v w : List α} {limit next : Nat}

/-- A word over the alphabet leads from one subset to another. -/
def Leads (m : Automaton α) (start : StateSet) (w : List α) (s : StateSet) : Prop :=
  (∀ a ∈ w, a ∈ m.alphabet) ∧ m.stepAll start w = s

/-- The first word that leads to a subset. -/
def First (m : Automaton α) (start s : StateSet) (u : List α) : Prop :=
  m.alphabet.IsFirst (fun w => m.Leads start w s) u

/-- The first word that leads to `s` precedes the words that lead to `t`. -/
def FoundBefore (m : Automaton α) (start s t : StateSet) : Prop :=
  ∃ u, m.First start s u ∧ ∀ v, m.Leads start v t → m.alphabet.Precedes u v

/-- The subsets found are in order, and all others are found later. -/
structure InOrder (m : Automaton α) (start : StateSet) (found : List StateSet) : Prop where
  ordered : found.Pairwise (m.FoundBefore start)
  others : ∀ {s t}, s ∈ found → t ∉ found → m.FoundBefore start s t

theorem leads_append_singleton_iff : m.Leads start (w ++ [a]) t ↔
    a ∈ m.alphabet ∧ ∃ s, m.Leads start w s ∧ m.step s a = t := by
  simp only [Leads, stepAll_append, stepAll_cons, stepAll_nil, List.mem_append, List.mem_singleton,
    or_imp, forall_and, forall_eq]
  constructor
  · intro h
    obtain ⟨⟨hw, ha⟩, ht⟩ := h
    exact ⟨ha, _, ⟨hw, rfl⟩, ht⟩
  · intro h
    obtain ⟨ha, s, ⟨hw, rfl⟩, ht⟩ := h
    exact ⟨⟨hw, ha⟩, ht⟩

theorem exists_first (h : ∃ w, m.Leads start w s) : ∃ u, m.First start s u := by
  obtain ⟨w, hw⟩ := h
  exact Alphabet.exists_isFirst (fun _ hv => hv.1) hw

theorem exists_first_stepAll (m : Automaton α) (start : StateSet)
    (hw : ∀ a ∈ w, a ∈ m.alphabet) : ∃ u, m.First start (m.stepAll start w) u :=
  exists_first ⟨w, hw, rfl⟩

theorem FoundBefore.precedes (h : m.FoundBefore start s t) (hu : m.First start s u)
    (hv : m.Leads start v t) : m.alphabet.Precedes u v := by
  obtain ⟨u', hu', hlt⟩ := h
  rw [hu.unique hu']
  exact hlt v hv

theorem InOrder.foundBefore (h : m.InOrder start found) {j k : Nat} (hjk : j < k)
    (hj : found[j]? = some s) (hk : found[k]? = some t) : m.FoundBefore start s t := by
  obtain ⟨hlt, rfl⟩ := List.getElem?_eq_some_iff.1 hj
  obtain ⟨hlt', rfl⟩ := List.getElem?_eq_some_iff.1 hk
  exact List.pairwise_iff_getElem.1 h.ordered j k hlt hlt' hjk

theorem inOrder_start (m : Automaton α) (start : StateSet) : m.InOrder start [start] := by
  refine ⟨List.pairwise_singleton _ _, fun {s t} hs ht => ?_⟩
  obtain rfl := List.mem_singleton.1 hs
  have hfirst : m.First s s [] := by
    refine ⟨⟨by simp, rfl⟩, fun v _ => ?_⟩
    by_cases hv : v = []
    · exact .inl hv
    · exact .inr (m.alphabet.nil_precedes hv)
  refine ⟨[], hfirst, fun v hv => m.alphabet.nil_precedes ?_⟩
  rintro rfl
  exact ht (List.mem_singleton.2 hv.2.symm)

/-- A word that leads to a subset still to be found comes after the first word of the subset being
expanded and the symbol being tried, unless it leads to the step on that symbol. -/
theorem InOrder.precedes_of_new (ho : m.InOrder start found) (hex : m.Explored start found next)
    (hs : found[next]? = some s) (hu : m.First start s u)
    (htried : ∀ b ∈ m.alphabet, m.alphabet.symbols.idxOf b < m.alphabet.symbols.idxOf a →
      m.step s b ∈ found)
    (ha : a ∈ m.alphabet) (ht : t ∉ found) (hne : t ≠ m.step s a) (hv : m.Leads start v t) :
    m.alphabet.Precedes (u ++ [a]) v := by
  rcases v.eq_nil_or_concat' with rfl | ⟨v, b, rfl⟩
  · exact absurd (hv.2 ▸ List.mem_of_getElem? hex.first) ht
  · obtain ⟨hb, x, hx, rfl⟩ := leads_append_singleton_iff.1 hv
    -- where the word leads without its last symbol comes after `s`, or is `s`, or was expanded
    have hlater : m.FoundBefore start s x → m.alphabet.Precedes (u ++ [a]) (v ++ [b]) :=
      fun h => (h.precedes hu hx).concat a b
    by_cases hmem : x ∈ found
    · obtain ⟨j, hj⟩ := List.mem_iff_getElem?.1 hmem
      rcases lt_trichotomy j next with hlt | rfl | hgt
      · exact absurd (hex.expanded hlt hj hb) ht
      · obtain rfl := Option.some.inj (hs.symm.trans hj)
        rcases hu.first v hx with rfl | hlt
        · apply Alphabet.precedes_concat
          rcases lt_trichotomy (m.alphabet.symbols.idxOf a) (m.alphabet.symbols.idxOf b) with
            hlt | heq | hgt
          · exact hlt
          · obtain rfl := (List.idxOf_inj ha).1 heq
            exact absurd rfl hne
          · exact absurd (htried b hb hgt) ht
        · exact hlt.concat a b
      · exact hlater (ho.foundBefore hgt hs hj)
    · exact hlater (ho.others (List.mem_of_getElem? hs) hmem)

/-- Discovering the step on the next symbol keeps the order. -/
theorem InOrder.discover (ho : m.InOrder start found) (hex : m.Explored start found next)
    (hs : found[next]? = some s)
    (htried : ∀ b ∈ m.alphabet, m.alphabet.symbols.idxOf b < m.alphabet.symbols.idxOf a →
      m.step s b ∈ found)
    (ha : a ∈ m.alphabet) (h : discover (α := α) limit found (m.step s a) = .ok found') :
    m.InOrder start found' := by
  rcases discover_eq_ok_iff.1 h with ⟨-, rfl⟩ | ⟨hnew, -, rfl⟩
  · exact ho
  · have hmem := List.mem_of_getElem? hs
    obtain ⟨u, hu⟩ := exists_first (hex.reached hmem)
    obtain ⟨w, hw⟩ := exists_first (hex.reached_step hmem ha)
    have hua : m.Leads start (u ++ [a]) (m.step s a) :=
      leads_append_singleton_iff.2 ⟨ha, s, hu.holds, rfl⟩
    refine ⟨?_, fun {x t} hx ht => ?_⟩
    · refine List.pairwise_append.2 ⟨ho.ordered, List.pairwise_singleton _ _, fun x hx t ht => ?_⟩
      obtain rfl := List.mem_singleton.1 ht
      exact ho.others hx hnew
    · simp only [List.mem_append, List.mem_singleton, not_or] at hx ht
      rcases hx with hx | rfl
      · exact ho.others hx ht.1
      · refine ⟨w, hw, fun v hv => ?_⟩
        have hlt := ho.precedes_of_new hex hs hu htried ha ht.1 ht.2 hv
        rcases hw.first _ hua with e | hle
        · exact e ▸ hlt
        · exact hle.trans hlt

/-- The symbols are tried in order, so one expansion keeps the order. -/
theorem InOrder.discoverSteps {before rest : List α}
    (hsymbols : m.alphabet.symbols = before ++ rest) (ho : m.InOrder start found)
    (hex : m.Explored start found next) (hs : found[next]? = some s)
    (htried : ∀ b ∈ before, m.step s b ∈ found)
    (h : (rest.map (m.step s)).foldlM (Automaton.discover (α := α) limit) found = .ok found') :
    m.InOrder start found' := by
  -- a symbol that has been tried goes from `rest` to `before`
  induction rest generalizing before found with
  | nil =>
    obtain rfl := Except.ok.inj h
    exact ho
  | cons a rest ih =>
    rw [List.map_cons, List.foldlM_cons] at h
    obtain ⟨mid, hmid, h⟩ := bind_eq_ok_iff.1 h
    have ha : a ∈ m.alphabet := by
      rw [← Alphabet.mem_symbols, hsymbols]
      exact List.mem_append_right before List.mem_cons_self
    have hd := discovers_of_discover hmid
    have hnext := (List.getElem?_eq_some_iff.1 hs).1
    have htried' : ∀ b ∈ before ++ [a], m.step s b ∈ mid := by
      intro b hb
      rcases List.mem_append.1 hb with hb | hb
      · exact hd.keeps.subset (htried b hb)
      · obtain rfl := List.mem_singleton.1 hb
        exact hd.finds _ List.mem_cons_self
    refine ih (by simp [hsymbols]) ?_ (hex.discovers hd hnext ?_) ?_ htried' h
    · refine ho.discover hex hs (fun b _ hlt => htried b ?_) ha hmid
      rw [hsymbols] at hlt
      exact mem_of_idxOf_lt (hsymbols ▸ m.alphabet.nodup) hlt
    · intro t ht
      obtain rfl := List.mem_singleton.1 ht
      exact hex.reached_step (List.mem_of_getElem? hs) ha
    · rw [hd.getElem?_eq hnext, hs]

theorem InOrder.explore (ho : m.InOrder start found) (hex : m.Explored start found next)
    (hok : m.explore limit found next = .ok found') : m.InOrder start found' := by
  fun_induction Automaton.explore m limit found next with
  | case1 found next hnext mid hmid ih =>
    have hs := List.getElem?_eq_getElem hnext
    have hsteps := ho.discoverSteps (List.nil_append _).symm hex hs (by simp) hmid
    exact ih hsteps (hex.discoverSteps hs hmid) hok
  | case2 found next hnext fault hfault => cases hok
  | case3 found next hnext =>
    obtain rfl := Except.ok.inj hok
    exact ho

theorem inOrder_reachedSubsets (hi : m.initial = some i)
    (h : m.reachedSubsets limit = .ok found) : m.InOrder (m.closureOf i) found :=
  (inOrder_start m _).explore (explored_start m _) (reachedSubsets_eq hi ▸ h)

/-- The subset with the smaller place is the one that is reached by the earlier word. -/
theorem InOrder.idxOf_lt_iff (ho : m.InOrder start found) (hs : s ∈ found) (ht : t ∈ found)
    (hu : m.First start s u) (hv : m.First start t v) :
    found.idxOf s < found.idxOf t ↔ m.alphabet.Precedes u v := by
  have hsget := List.getElem?_idxOf hs
  have htget := List.getElem?_idxOf ht
  constructor
  · intro hlt
    exact (ho.foundBefore hlt hsget htget).precedes hu hv.holds
  · intro hlt
    rcases lt_trichotomy (found.idxOf s) (found.idxOf t) with h | h | h
    · exact h
    · obtain rfl := (List.idxOf_inj hs).1 h
      exact absurd (hu.unique hv ▸ hlt) (m.alphabet.not_precedes_self u)
    · exact absurd ((ho.foundBefore h htget hsget).precedes hv hu.holds) hlt.asymm

theorem Explored.exists_idxOf_eq (h : m.Explored start found next) {k : Nat}
    (hk : k < found.length) :
    ∃ w, (∀ a ∈ w, a ∈ m.alphabet) ∧ found.idxOf (m.stepAll start w) = k := by
  obtain ⟨w, hw, hs⟩ := h.reached (List.getElem_mem hk)
  exact ⟨w, hw, by rw [hs, h.nodup.idxOf_getElem k hk]⟩

/-- If the same words lead to the same subset in two automata, then the subsets have the same
places. -/
theorem idxOf_stepAll_eq (hex : m.Explored start found found.length)
    (hex' : m'.Explored start' found' found'.length) (ho : m.InOrder start found)
    (ho' : m'.InOrder start' found') (halphabet : m'.alphabet = m.alphabet)
    (hsame : ∀ u v, (∀ a ∈ u, a ∈ m.alphabet) → (∀ a ∈ v, a ∈ m.alphabet) →
      (m'.stepAll start' u = m'.stepAll start' v ↔ m.stepAll start u = m.stepAll start v))
    (hw : ∀ a ∈ w, a ∈ m.alphabet) :
    found'.idxOf (m'.stepAll start' w) = found.idxOf (m.stepAll start w) := by
  have hmem : ∀ u, (∀ a ∈ u, a ∈ m.alphabet) → m.stepAll start u ∈ found := fun u hu =>
    hex.mem_iff.2 ⟨u, hu, rfl⟩
  have hmem' : ∀ u, (∀ a ∈ u, a ∈ m.alphabet) → m'.stepAll start' u ∈ found' := fun u hu =>
    hex'.mem_iff.2 ⟨u, halphabet ▸ hu, rfl⟩
  have hfirst : ∀ u, (∀ a ∈ u, a ∈ m.alphabet) →
      m'.First start' (m'.stepAll start' u) = m.First start (m.stepAll start u) := by
    intro u hu
    have hleads : (fun v => m'.Leads start' v (m'.stepAll start' u)) =
        fun v => m.Leads start v (m.stepAll start u) := by
      funext v
      rw [Leads, Leads, halphabet]
      exact propext (and_congr_right fun hv => hsame v u hv hu)
    unfold First
    rw [halphabet, hleads]
  apply eq_of_lt_iff_lt (f := fun w => found'.idxOf (m'.stepAll start' w))
    (g := fun w => found.idxOf (m.stepAll start w)) (P := fun w => ∀ a ∈ w, a ∈ m.alphabet)
  · intro u v hu hv
    obtain ⟨u₀, hu₀⟩ := m.exists_first_stepAll start hu
    obtain ⟨v₀, hv₀⟩ := m.exists_first_stepAll start hv
    have hu' : m'.First start' (m'.stepAll start' u) u₀ := by rwa [hfirst u hu]
    have hv' : m'.First start' (m'.stepAll start' v) v₀ := by rwa [hfirst v hv]
    rw [ho.idxOf_lt_iff (hmem u hu) (hmem v hv) hu₀ hv₀,
      ho'.idxOf_lt_iff (hmem' u hu) (hmem' v hv) hu' hv', halphabet]
  · intro v hv k hk
    obtain ⟨u, hu, hplace⟩ :=
      hex'.exists_idxOf_eq (hk.trans (List.idxOf_lt_length_of_mem (hmem' v hv)))
    exact ⟨u, halphabet ▸ hu, hplace⟩
  · intro v hv k hk
    exact hex.exists_idxOf_eq (hk.trans (List.idxOf_lt_length_of_mem (hmem v hv)))
  · exact hw

theorem numberOf_lt_numberOf_iff (fits : found.length ≤ UInt32.size) (hs : s ∈ found)
    (ht : t ∈ found) : numberOf found s < numberOf found t ↔ found.idxOf s < found.idxOf t := by
  rw [UInt32.lt_iff_toNat_lt, toNat_numberOf fits hs, toNat_numberOf fits ht]

namespace Determinizes

/-- The paths of the deterministic automaton follow the run of the original. -/
theorem reads_iff (h : m.Determinizes i d) (hd : d.dfa.WellFormed) :
    d.dfa.Reads 0 w k ↔ (∀ a ∈ w, a ∈ m.alphabet) ∧
      k = numberOf d.subsets (m.stepAll (m.closureOf i) w) := by
  have hover : (∀ a ∈ w, a ∈ m.alphabet) → (d.dfa.Reads 0 w k ↔
      k = numberOf d.subsets (m.stepAll (m.closureOf i) w)) := by
    intro hw
    rw [← mem_stepAll_closureOf_iff hd, h.stepAll_closureOf_dfa hw, StateSet.mem_singleton]
  constructor
  · intro hk
    have halphabet : d.dfa.alphabet = m.alphabet := h.depicts.alphabet
    have hw : ∀ a ∈ w, a ∈ m.alphabet := halphabet ▸ hk.symbol_valid hd
    exact ⟨hw, (hover hw).1 hk⟩
  · intro hk
    exact (hover hk.1).2 hk.2

/-- The first word that leads to a state is the first one that leads to its subset. -/
theorem isFirst_iff (h : m.Determinizes i d) (hd : d.dfa.WellFormed) (hs : s ∈ d.subsets) :
    m.alphabet.IsFirst (fun w => d.dfa.Reads 0 w (numberOf d.subsets s)) u ↔
      m.First (m.closureOf i) s u := by
  have hleads : (fun w => d.dfa.Reads 0 w (numberOf d.subsets s)) =
      fun w => m.Leads (m.closureOf i) w s := by
    funext w
    rw [h.reads_iff hd, Leads]
    refine propext (and_congr_right fun hw => ?_)
    rw [numberOf_inj h.fits hs (h.explored.mem_iff.2 ⟨w, hw, rfl⟩), eq_comm]
  rw [hleads, First]

end Determinizes

/-- The numbers that a conversion of `m` gives are canonical: every state has a first word, the
states are in the order of these words, and all automata over this alphabet in which the same words
lead to equal subsets get the same numbers. -/
structure CanonicalNumbers (m : Automaton α) (d : Determinized α) : Prop where
  first_word : ∀ {k}, d.dfa.contains k = true →
    ∃! u, m.alphabet.IsFirst (fun w => d.dfa.Reads 0 w k) u
  in_order : ∀ {k l u v}, m.alphabet.IsFirst (fun w => d.dfa.Reads 0 w k) u →
    m.alphabet.IsFirst (fun w => d.dfa.Reads 0 w l) v → (k < l ↔ m.alphabet.Precedes u v)
  determined : ∀ {m' : Automaton α} {i' : StateId} {limit' : Nat} {d' : Determinized α},
    m'.Reachable → m'.initial = some i' → m'.determinize limit' = .ok d' →
    d'.subsets.length ≤ UInt32.size → m'.alphabet = m.alphabet →
    (∀ u v, (∀ a ∈ u, a ∈ m.alphabet) → (∀ a ∈ v, a ∈ m.alphabet) →
      (m'.run u = m'.run v ↔ m.run u = m.run v)) →
    ∀ {w k}, d'.dfa.Reads 0 w k ↔ d.dfa.Reads 0 w k

/-- States of a conversion are numbered in the order of the first words that lead to them. -/
theorem determinize_numbers_by_first_words (hm : m.Reachable) (hi : m.initial = some i)
    (hok : m.determinize limit = .ok d) (fits : d.subsets.length ≤ UInt32.size) :
    m.CanonicalNumbers d := by
  have h := determinizes_of_eq_ok hi hok fits
  have ho := inOrder_reachedSubsets hi (determinize_eq_ok_iff.1 hok).1
  have hd := (Reachable.determinize hm hok (h.size_slots.trans_le fits)).wellFormed
  refine ⟨?_, ?_, ?_⟩
  · intro k hk
    obtain ⟨s, hs, rfl⟩ := h.exists_numberOf_eq hk
    obtain ⟨u, hu⟩ := exists_first (h.explored.reached hs)
    have hu' := (h.isFirst_iff hd hs).2 hu
    exact ⟨u, hu', fun v hv => hv.unique hu'⟩
  · intro k l u v hu hv
    obtain ⟨hover, rfl⟩ := (h.reads_iff hd).1 hu.holds
    obtain ⟨hover', rfl⟩ := (h.reads_iff hd).1 hv.holds
    have hs := h.explored.mem_iff.2 ⟨u, hover, rfl⟩
    have ht := h.explored.mem_iff.2 ⟨v, hover', rfl⟩
    rw [numberOf_lt_numberOf_iff fits hs ht]
    exact ho.idxOf_lt_iff hs ht ((h.isFirst_iff hd hs).1 hu) ((h.isFirst_iff hd ht).1 hv)
  · intro m' i' limit' d' hm' hi' hok' fits' halphabet hsame w k
    have h' := determinizes_of_eq_ok hi' hok' fits'
    have ho' := inOrder_reachedSubsets hi' (determinize_eq_ok_iff.1 hok').1
    have hd' := (Reachable.determinize hm' hok' (h'.size_slots.trans_le fits')).wellFormed
    have hstep : ∀ u v, (∀ a ∈ u, a ∈ m.alphabet) → (∀ a ∈ v, a ∈ m.alphabet) →
        (m'.stepAll (m'.closureOf i') u = m'.stepAll (m'.closureOf i') v ↔
          m.stepAll (m.closureOf i) u = m.stepAll (m.closureOf i) v) := by
      intro u v hu hv
      have hrun := hsame u v hu hv
      rwa [run_eq_ok hi hu, run_eq_ok hi hv, run_eq_ok hi' (halphabet ▸ hu),
        run_eq_ok hi' (halphabet ▸ hv), Except.ok.injEq, Except.ok.injEq] at hrun
    rw [h.reads_iff hd, h'.reads_iff hd', halphabet]
    refine and_congr_right fun hw => ?_
    rw [numberOf, numberOf, idxOf_stepAll_eq h.explored h'.explored ho ho' halphabet hstep hw]

theorem determinize_numbers_by_first_words_of_a_cycle : epsilonCycle.Reachable ∧
    epsilonCycle.initial = some 0 ∧ ∃ d, epsilonCycle.determinize 0 = .ok d ∧
      d.subsets.length ≤ UInt32.size ∧ epsilonCycle.CanonicalNumbers d := by
  obtain ⟨d, hok, h⟩ :=
    exists_determinize initial_epsilonCycle fun _ => length_reachedSubsets_epsilonCycle_le
  exact ⟨reachable_epsilonCycle, initial_epsilonCycle, d, hok, h.fits,
    determinize_numbers_by_first_words reachable_epsilonCycle initial_epsilonCycle hok h.fits⟩

end FiniteAutomata.Automaton
