import FiniteAutomata.Proofs.Queries
import FiniteAutomata.Proofs.Reachable
import Mathlib.Data.List.Nodup
import Mathlib.Tactic.TFAE

namespace FiniteAutomata

theorem StateSet.nodup_toList (s : StateSet) : s.toList.Nodup :=
  s.ascending.imp UInt32.ne_of_lt

namespace Automaton
variable {α : Type} {m : Automaton α} {p q : StateId} {x : Label α} {t : Transitions α}

/-- The edges that one table lists for a state. -/
def edgesFrom (p : StateId) (t : Transitions α) : List (Edge α) :=
  t.entries.flatMap fun e => e.2.toList.map fun q => ⟨p, e.1, q⟩

theorem transitions_eq_flatMap (m : Automaton α) :
    m.transitions = m.liveStates.flatMap fun s => edgesFrom s.1 s.2.transitions := rfl

theorem source_eq_of_mem_edgesFrom {e : Edge α} (he : e ∈ edgesFrom p t) : e.source = p := by
  simp only [edgesFrom, List.mem_flatMap, List.mem_map] at he
  obtain ⟨_, _, _, _, rfl⟩ := he
  rfl

theorem edgesFrom_nodup (p : StateId) (t : Transitions α) : (edgesFrom p t).Nodup := by
  unfold edgesFrom
  rw [List.nodup_flatMap]
  constructor
  · intro e _
    apply e.2.nodup_toList.map
    intro q r hqr
    exact (Edge.mk.inj hqr).2.2
  · -- two entries have different labels
    have hkeys := t.nodup
    rw [List.Nodup, List.pairwise_map] at hkeys
    refine hkeys.imp fun {d e} hde => List.disjoint_left.2 ?_
    intro edge hd he
    obtain ⟨_, _, rfl⟩ := List.mem_map.1 hd
    obtain ⟨_, _, heq⟩ := List.mem_map.1 he
    exact hde (Edge.mk.inj heq).2.1.symm

theorem transitions_nodup (h : m.slots.size ≤ UInt32.size) : m.transitions.Nodup := by
  rw [transitions_eq_flatMap, List.nodup_flatMap]
  constructor
  · intro s _
    exact edgesFrom_nodup s.1 s.2.transitions
  · have hids := stateIds_nodup h
    rw [stateIds, List.Nodup, List.pairwise_map] at hids
    refine hids.imp fun {s t} hst => List.disjoint_left.2 ?_
    intro e hs ht
    rw [← source_eq_of_mem_edgesFrom hs, source_eq_of_mem_edgesFrom ht] at hst
    exact hst rfl

variable [DecidableEq α] {a : α}

theorem count_transitions_eq_one_iff (h : m.slots.size ≤ UInt32.size) {e : Edge α} :
    m.transitions.count e = 1 ↔ e ∈ m.transitions := by
  constructor
  · intro hone
    apply List.count_pos_iff.1
    omega
  · exact List.count_eq_one_of_mem (transitions_nodup h)

theorem hasTransition_iff : m.hasTransition p x q = true ↔ q ∈ m.destinations p x := by
  simp [hasTransition]

theorem delta_shows_iff (hx : x ∈ m.alphabet.labels) :
    (∃ d, m.delta p x = .ok d ∧ q ∈ d) ↔ q ∈ m.destinations p x := by
  rw [delta_eq, mem_labels_iff_checkLabel.1 hx]
  change (∃ d, (if m.contains p then _ else _) = Except.ok d ∧ q ∈ d) ↔ _
  split_ifs with hp
  · simp
  · have hnone : m.state? p = none := by simpa [contains] using hp
    simp [destinations_eq_empty hnone]

omit [DecidableEq α] in
theorem transitionsFrom_eq_ok_iff :
    m.transitionsFrom p = .ok t ↔ ∃ s, m.state? p = some s ∧ t = s.transitions := by
  simp only [transitionsFrom, bind_eq_ok_iff, findState_eq_ok_iff, pure_eq_ok_iff]

theorem transitionsFrom_shows_iff :
    (∃ t d, m.transitionsFrom p = .ok t ∧ t.find? x = some d ∧ q ∈ d) ↔
      q ∈ m.destinations p x := by
  simp only [transitionsFrom_eq_ok_iff, mem_destinations_iff, Transitions.mem_destinations_iff,
    Transitions.find?_eq_some_iff]
  constructor
  · intro h
    obtain ⟨_, d, ⟨s, hs, rfl⟩, hd, hq⟩ := h
    exact ⟨s, hs, d, hd, hq⟩
  · intro h
    obtain ⟨s, hs, d, hd, hq⟩ := h
    exact ⟨s.transitions, d, ⟨s, hs, rfl⟩, hd, hq⟩

/-- The sources are listed in order, each with all its targets and only if it has one. -/
theorem transitionsOn_eq_ok (hm : m.WellFormed) {l : List (StateId × StateSet)}
    (hl : m.transitionsOn x = .ok l) :
    (l.map Prod.fst).Pairwise (· < ·) ∧
      ∀ p d, (p, d) ∈ l ↔ m.destinations p x = d ∧ d ≠ ∅ := by
  rw [transitionsOn_eq hm, check_bind_eq_ok_iff] at hl
  obtain rfl := Except.ok.inj hl.2
  constructor
  · rw [List.pairwise_map]
    refine (stateIds_ascending hm.fits).filterMap _ fun p q hpq b hb c hc => ?_
    obtain ⟨_, -, rfl⟩ := Option.map_eq_some_iff.1 hb
    obtain ⟨_, -, rfl⟩ := Option.map_eq_some_iff.1 hc
    exact hpq
  · intro p d
    simp only [List.mem_filterMap, Option.map_eq_some_iff, Option.guard_eq_some_iff,
      mem_stateIds_iff hm.fits, Prod.mk.injEq]
    constructor
    · intro h
      obtain ⟨_, -, _, ⟨rfl, hne⟩, rfl, rfl⟩ := h
      exact ⟨rfl, by simpa [← StateSet.isEmpty_iff] using hne⟩
    · intro h
      obtain ⟨rfl, hne⟩ := h
      obtain ⟨q, hq⟩ := StateSet.exists_mem_of_ne_empty hne
      exact ⟨p, contains_of_mem_destinations hq, _,
        ⟨rfl, by simpa [← StateSet.isEmpty_iff] using hne⟩, rfl, rfl⟩

theorem transitionsOn_shows_iff (hm : m.WellFormed) (hx : x ∈ m.alphabet.labels) :
    (∃ l d, m.transitionsOn x = .ok l ∧ (p, d) ∈ l ∧ q ∈ d) ↔ q ∈ m.destinations p x := by
  constructor
  · intro h
    obtain ⟨l, d, hl, hd, hq⟩ := h
    obtain ⟨rfl, -⟩ := ((transitionsOn_eq_ok hm hl).2 p d).1 hd
    exact hq
  · intro hq
    have hok : ∃ l, m.transitionsOn x = .ok l := by
      rw [transitionsOn_eq hm, mem_labels_iff_checkLabel.1 hx]
      exact ⟨_, rfl⟩
    obtain ⟨l, hl⟩ := hok
    have hne : m.destinations p x ≠ ∅ := by
      intro hempty
      exact StateSet.not_mem_empty q (hempty ▸ hq)
    exact ⟨l, _, hl, ((transitionsOn_eq_ok hm hl).2 p _).2 ⟨rfl, hne⟩, hq⟩

theorem checkLabel_eq_error (ha : a ∉ m.alphabet) :
    m.checkLabel (.literal a) = .error (.invalidSymbol a) := by
  rw [checkLabel, checkSymbol, if_neg ha]

/-- What the queries about a foreign symbol return. -/
theorem queries_of_foreign (hm : m.WellFormed) (ha : a ∉ m.alphabet) (p q : StateId) :
    m.hasTransition p (.literal a) q = false ∧
      m.delta p (.literal a) = .error (.invalidSymbol a) ∧
      m.transitionsOn (.literal a) = .error (.invalidSymbol a) := by
  refine ⟨?_, ?_, ?_⟩
  · rw [Bool.eq_false_iff, ne_eq, hasTransition_iff]
    exact fun hq => ha (hm.label_valid hq)
  · rw [delta, checkLabel_eq_error ha]
    rfl
  · rw [transitionsOn, checkLabel_eq_error ha]
    rfl

/-- Every query about edges shows the same relation, each edge of it once, and no empty set. -/
structure OneEdgeRelation (m : Automaton α) : Prop where
  same_edges : ∀ p q, ∀ x ∈ m.alphabet.labels, List.TFAE [
    ⟨p, x, q⟩ ∈ m.transitions,
    m.transitions.count ⟨p, x, q⟩ = 1,
    m.hasTransition p x q = true,
    ∃ d, m.delta p x = .ok d ∧ q ∈ d,
    ∃ t d, m.transitionsFrom p = .ok t ∧ t.find? x = some d ∧ q ∈ d,
    ∃ l d, m.transitionsOn x = .ok l ∧ (p, d) ∈ l ∧ q ∈ d]
  any_label : ∀ p q, m.hasAnyTransition p q = true ↔
    ∃ x ∈ m.alphabet.labels, ⟨p, x, q⟩ ∈ m.transitions
  from_nonempty : ∀ {p t}, m.transitionsFrom p = .ok t → ∀ e ∈ t.entries, e.2 ≠ ∅
  on_nonempty : ∀ {x l}, m.transitionsOn x = .ok l → ∀ e ∈ l, e.2 ≠ ∅
  on_ascending : ∀ {x l}, m.transitionsOn x = .ok l → (l.map Prod.fst).Pairwise (· < ·)
  foreign : ∀ a, a ∉ m.alphabet → ∀ p q,
    m.hasTransition p (.literal a) q = false ∧
      m.delta p (.literal a) = .error (.invalidSymbol a) ∧
      m.transitionsOn (.literal a) = .error (.invalidSymbol a)

theorem edge_queries_agree (hm : m.Reachable) : m.OneEdgeRelation := by
  have hwf := hm.wellFormed
  refine ⟨?_, ?_, ?_, ?_, ?_, ?_⟩
  · intro p q x hx
    apply List.tfae_of_forall (q ∈ m.destinations p x)
    simp only [List.forall_mem_cons]
    exact ⟨mem_transitions_iff hwf.fits,
      (count_transitions_eq_one_iff hwf.fits).trans (mem_transitions_iff hwf.fits),
      hasTransition_iff, delta_shows_iff hx, transitionsFrom_shows_iff,
      transitionsOn_shows_iff hwf hx, by simp⟩
  · intro p q
    simp only [hasAnyTransition_iff, mem_transitions_iff hwf.fits]
    constructor
    · intro h
      obtain ⟨x, hq⟩ := h
      refine ⟨x, Alphabet.mem_labels_iff.2 fun a ha => ?_, hq⟩
      exact hwf.label_valid (ha ▸ hq)
    · intro h
      obtain ⟨x, -, hq⟩ := h
      exact ⟨x, hq⟩
  · intro p t ht
    obtain ⟨s, hs, rfl⟩ := transitionsFrom_eq_ok_iff.1 ht
    exact hwf.pruned hs
  · intro x l hl e he
    exact (((transitionsOn_eq_ok hwf hl).2 e.1 e.2).1 he).2
  · intro x l hl
    exact (transitionsOn_eq_ok hwf hl).1
  · intro a ha p q
    exact queries_of_foreign hwf ha p q

theorem edge_queries_agree_in_a_cycle :
    epsilonCycle.Reachable ∧ epsilonCycle.OneEdgeRelation :=
  ⟨reachable_epsilonCycle, edge_queries_agree reachable_epsilonCycle⟩

end Automaton
end FiniteAutomata
