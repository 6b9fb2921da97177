import FiniteAutomata.Proofs.StateLimit

/-! If any two of the sets in which runs end are told apart by some word, no two states of the
deterministic form accept the same language, so it is as small as it can be. -/
namespace FiniteAutomata.Automaton
variable {α : Type} [DecidableEq α] {m : Automaton α} {d : Determinized α} {s t : StateSet}
  {i p q : StateId} {w : List α} {k limit : Nat}

/-- The words that lead from a state to a final one. -/
def languageFrom (m : Automaton α) (p : StateId) : Language α :=
  {w | ∃ q ∈ m.finals, m.Reads p w q}

/-- Words over the alphabet lead to so many different sets. If two of them lead to different sets,
some word that follows makes the one accepted and the other rejected. -/
structure Separates (m : Automaton α) (k : Nat) : Prop where
  sets : ∃ sets : List StateSet, sets.Nodup ∧ sets.length = k ∧
    ∀ s, s ∈ sets ↔ ∃ w, (∀ a ∈ w, a ∈ m.alphabet) ∧ m.run w = .ok s
  told_apart : ∀ {u v}, (∀ a ∈ u, a ∈ m.alphabet) → (∀ a ∈ v, a ∈ m.alphabet) →
    m.run u ≠ m.run v → ∃ x, (∀ a ∈ x, a ∈ m.alphabet) ∧
      ∃ b, m.accepts (u ++ x) = .ok b ∧ m.accepts (v ++ x) = .ok (!b)

theorem Separates.length_reachedSubsets (h : m.Separates k) (hi : m.initial = some i)
    {found : List StateSet} (hfound : m.reachedSubsets 0 = .ok found) : found.length = k := by
  have hex := explored_reachedSubsets hi hfound
  obtain ⟨sets, hnodup, hlength, hsets⟩ := h.sets
  have hperm : found.Perm sets := by
    refine (List.perm_ext_iff_of_nodup hex.nodup hnodup).2 fun s => ?_
    rw [hex.mem_iff, hsets]
    refine exists_congr fun w => and_congr_right fun hw => ?_
    rw [run_eq_ok hi hw, Except.ok.injEq]
  rw [hperm.length_eq, hlength]

namespace Determinizes

theorem wellFormed_dfa (h : m.Determinizes i d) (hok : m.determinize limit = .ok d) :
    d.dfa.WellFormed :=
  Diagram.wellFormed_build (determinize_eq_ok_iff.1 hok).2 h.size_le

/-- What is accepted from the state of a subset is what is accepted from the subset. -/
theorem mem_languageFrom_iff (h : m.Determinizes i d) (hd : d.dfa.WellFormed) (hs : s ∈ d.subsets)
    (hw : ∀ a ∈ w, a ∈ m.alphabet) : w ∈ d.dfa.languageFrom (numberOf d.subsets s) ↔
      (m.stepAll s w).meets m.finals = true := by
  have hreads : ∀ q, d.dfa.Reads (numberOf d.subsets s) w q ↔
      q = numberOf d.subsets (m.stepAll s w) := by
    intro q
    rw [← mem_stepAll_closureOf_iff hd, closureOf, h.closure_dfa, h.stepAll_dfa hs hw,
      StateSet.mem_singleton]
  have hfinal := h.numberOf_mem_finals_iff (h.explored.mem_stepAll hs hw)
  rw [StateSet.meets_iff, ← hfinal]
  change (∃ q ∈ d.dfa.finals, d.dfa.Reads (numberOf d.subsets s) w q) ↔ _
  simp [hreads]

end Determinizes

/-- Different states of the deterministic form accept different languages. -/
theorem Separates.languageFrom_inj (h : m.Separates k) (hi : m.initial = some i)
    (hd : m.Determinizes i d) (hwf : d.dfa.WellFormed) (hp : d.dfa.contains p = true)
    (hq : d.dfa.contains q = true) (heq : d.dfa.languageFrom p = d.dfa.languageFrom q) :
    p = q := by
  obtain ⟨s, hs, rfl⟩ := hd.exists_numberOf_eq hp
  obtain ⟨t, ht, rfl⟩ := hd.exists_numberOf_eq hq
  obtain ⟨u, hu, rfl⟩ := hd.explored.reached hs
  obtain ⟨v, hv, rfl⟩ := hd.explored.reached ht
  by_contra hne
  have hrun : m.run u ≠ m.run v := by
    rw [run_eq_ok hi hu, run_eq_ok hi hv, ne_eq, Except.ok.injEq]
    exact mt (congrArg (numberOf d.subsets)) hne
  obtain ⟨x, hx, b, hub, hvb⟩ := h.told_apart hu hv hrun
  -- both answers are read off the states, and the languages make them equal
  have happend : ∀ {w : List α}, (∀ a ∈ w, a ∈ m.alphabet) → ∀ a ∈ w ++ x, a ∈ m.alphabet :=
    fun hw => List.forall_mem_append.2 ⟨hw, hx⟩
  rw [accepts_eq_ok hi (happend hu), Except.ok.injEq, stepAll_append] at hub
  rw [accepts_eq_ok hi (happend hv), Except.ok.injEq, stepAll_append] at hvb
  have hboth : b = true ↔ (!b) = true := by
    rw [← hub, ← hd.mem_languageFrom_iff hwf hs hx, hub, ← hvb, heq,
      hd.mem_languageFrom_iff hwf ht hx]
  cases b <;> simp at hboth

/-- Determinization makes one state for each set, and cannot do with fewer. -/
theorem Separates.determinize (h : m.Separates k) (hi : m.initial = some i)
    (fits : k ≤ UInt32.size) :
    ∃ d, m.determinize 0 = .ok d ∧ d.dfa.stateCount = k ∧
      ∀ p q, d.dfa.contains p = true → d.dfa.contains q = true →
        d.dfa.languageFrom p = d.dfa.languageFrom q → p = q := by
  have hcount : ∀ {found}, m.reachedSubsets 0 = .ok found → found.length = k :=
    fun hfound => h.length_reachedSubsets hi hfound
  obtain ⟨d, hok, hd⟩ := exists_determinize hi fun found hfound => (hcount hfound).trans_le fits
  refine ⟨d, hok, ?_, fun p q hp hq => h.languageFrom_inj hi hd (hd.wellFormed_dfa hok) hp hq⟩
  rw [hd.stateCount_eq, hcount (determinize_eq_ok_iff.1 hok).1]

/-- Fewer states than sets are never enough. -/
theorem Separates.determinize_limit (h : m.Separates k) (hi : m.initial = some i)
    (hpos : 0 < limit) (hlt : limit < k) :
    m.determinize limit = .error (.stateLimitExceeded (limit + 1) limit) := by
  obtain ⟨found, hfound⟩ := exists_reachedSubsets hi
  have hlimit := reachedSubsets_eq_atMost hi hpos hfound
  rw [atMost_of_lt (by rwa [h.length_reachedSubsets hi hfound])] at hlimit
  rw [Automaton.determinize, hlimit]
  rfl

end FiniteAutomata.Automaton
