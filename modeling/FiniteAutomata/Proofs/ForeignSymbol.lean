import FiniteAutomata.Proofs.Simulation

namespace FiniteAutomata

theorem Alphabet.over_or_foreign {α : Type} (s : Alphabet α) (w : List α) :
    (∀ a ∈ w, a ∈ s) ∨ ∃ u x v, w = u ++ x :: v ∧ (∀ a ∈ u, a ∈ s) ∧ x ∉ s := by
  induction w with
  | nil => exact .inl (by simp)
  | cons a w ih =>
    by_cases ha : a ∈ s
    · rcases ih with hw | ⟨u, x, v, rfl, hu, hx⟩
      · exact .inl (List.forall_mem_cons.2 ⟨ha, hw⟩)
      · exact .inr ⟨a :: u, x, v, rfl, List.forall_mem_cons.2 ⟨ha, hu⟩, hx⟩
    · exact .inr ⟨[], a, w, rfl, by simp, ha⟩

namespace Automaton
variable {α : Type} [DecidableEq α] {m : Automaton α} {i q : StateId} {s : StateSet} {x : α}
  {u v : List α}

theorem closureOf_ne_empty (m : Automaton α) (q : StateId) : m.closureOf q ≠ ∅ := by
  intro h
  have hq : q ∈ m.closureOf q := subset_closure (StateSet.mem_singleton.2 rfl)
  rw [h] at hq
  exact StateSet.not_mem_empty q hq

theorem moveOn_eq_error (hx : x ∉ m.alphabet) : m.moveOn s x = .error (.invalidSymbol x) := by
  rw [moveOn, checkSymbol, if_neg hx]
  rfl

/-- The run fails at the first foreign symbol, unless it has ended by then. -/
theorem runFrom_foreign (hu : ∀ a ∈ u, a ∈ m.alphabet) (hx : x ∉ m.alphabet) (hs : s ≠ ∅) :
    m.runFrom s (u ++ x :: v) =
      if m.stepAll s u = ∅ then .ok ∅ else .error (.invalidSymbol x) := by
  induction u generalizing s with
  | nil =>
    rw [List.nil_append, stepAll_nil, if_neg hs, runFrom, moveOn_eq_error hx]
    rfl
  | cons a u ih =>
    obtain ⟨ha, hu⟩ := List.forall_mem_cons.1 hu
    rw [List.cons_append, runFrom_cons ha, stepAll_cons]
    split_ifs with hempty hdead hdead
    · rw [StateSet.isEmpty_iff.1 hempty]
    · rw [StateSet.isEmpty_iff.1 hempty, stepAll_empty] at hdead
      exact absurd rfl hdead
    · rw [ih hu (mt StateSet.isEmpty_iff.2 hempty), if_pos hdead]
    · rw [ih hu (mt StateSet.isEmpty_iff.2 hempty), if_neg hdead]

theorem run_foreign (hi : m.initial = some i) (hu : ∀ a ∈ u, a ∈ m.alphabet)
    (hx : x ∉ m.alphabet) : m.run (u ++ x :: v) =
      if m.stepAll (m.closureOf i) u = ∅ then .ok ∅ else .error (.invalidSymbol x) := by
  rw [run, findInitial_eq_ok hi]
  exact runFrom_foreign hu hx (closureOf_ne_empty m i)

theorem accepts_foreign (hi : m.initial = some i) (hu : ∀ a ∈ u, a ∈ m.alphabet)
    (hx : x ∉ m.alphabet) : m.accepts (u ++ x :: v) =
      if m.stepAll (m.closureOf i) u = ∅ then .ok false else .error (.invalidSymbol x) := by
  rw [accepts, run_foreign hi hu hx]
  split_ifs <;> rfl

theorem accepts_foreign_eq_error_iff (hi : m.initial = some i) (hu : ∀ a ∈ u, a ∈ m.alphabet)
    (hx : x ∉ m.alphabet) {y : α} : m.accepts (u ++ x :: v) = .error (.invalidSymbol y) ↔
      m.stepAll (m.closureOf i) u ≠ ∅ ∧ x = y := by
  rw [accepts_foreign hi hu hx]
  split_ifs with h <;> simp [h]

/-- A run has died when no path reads the word. -/
theorem stepAll_closureOf_eq_empty_iff (hm : m.WellFormed) :
    m.stepAll (m.closureOf i) u = ∅ ↔ ∀ q, ¬m.Reads i u q := by
  simp only [← mem_stepAll_closureOf_iff hm]
  constructor
  · intro h q
    rw [h]
    exact StateSet.not_mem_empty q
  · intro h
    ext q
    simp [h q]

/-- Automata over the same symbols whose runs die on the same words and which accept the same words
answer alike, faults included. -/
theorem accepts_eq_of_reads {c : Automaton α} {j : StateId} (hm : m.WellFormed)
    (hc : c.WellFormed) (hi : m.initial = some i) (hj : c.initial = some j)
    (halphabet : c.alphabet = m.alphabet)
    (hlive : ∀ u, (∃ q, c.Reads j u q) ↔ ∃ q, m.Reads i u q)
    (hfinal : ∀ u, (∃ q ∈ c.finals, c.Reads j u q) ↔ ∃ q ∈ m.finals, m.Reads i u q)
    (w : List α) : c.accepts w = m.accepts w := by
  rcases m.alphabet.over_or_foreign w with hw | ⟨u, x, v, rfl, hu, hx⟩
  · rw [accepts_eq_ok hi hw, accepts_eq_ok hj (halphabet ▸ hw), Except.ok.injEq, Bool.eq_iff_iff,
      meets_finals_iff hm, meets_finals_iff hc, hfinal]
  · have hdead : c.stepAll (c.closureOf j) u = ∅ ↔ m.stepAll (m.closureOf i) u = ∅ := by
      rw [stepAll_closureOf_eq_empty_iff hc, stepAll_closureOf_eq_empty_iff hm, ← not_exists,
        ← not_exists, hlive]
    rw [accepts_foreign hi hu hx, accepts_foreign hj (halphabet ▸ hu) (halphabet ▸ hx)]
    simp only [hdead]

end Automaton
end FiniteAutomata
