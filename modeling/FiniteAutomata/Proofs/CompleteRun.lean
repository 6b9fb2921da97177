import FiniteAutomata.Proofs.Determinize
import FiniteAutomata.Proofs.Union

/-! A deterministic form has an edge for every symbol, so its run fails at the first foreign symbol.
A run of the original may have ended before that symbol and then rejects the word. -/
namespace FiniteAutomata

theorem StateSet.singleton_ne_empty (q : StateId) : ({q} : StateSet) ≠ ∅ := by
  intro h
  have hq : q ∈ ({q} : StateSet) := StateSet.mem_singleton.2 rfl
  rw [h] at hq
  exact StateSet.not_mem_empty q hq

namespace Automaton
variable {α : Type} [DecidableEq α] {m : Automaton α} {d : Determinized α} {i : StateId} {x : α}
  {u v w : List α}

namespace Determinizes

/-- The run of the deterministic automaton never ends early. -/
theorem run_dfa (h : m.Determinizes i d) (hu : ∀ a ∈ u, a ∈ m.alphabet) :
    d.dfa.run u = .ok {numberOf d.subsets (m.stepAll (m.closureOf i) u)} := by
  rw [run_eq_ok h.initial_dfa (h.alphabet_dfa ▸ hu), h.stepAll_closureOf_dfa hu]

theorem accepts_dfa_foreign (h : m.Determinizes i d) (hu : ∀ a ∈ u, a ∈ m.alphabet)
    (hx : x ∉ m.alphabet) : d.dfa.accepts (u ++ x :: v) = .error (.invalidSymbol x) := by
  rw [accepts_foreign h.initial_dfa (h.alphabet_dfa ▸ hu) (h.alphabet_dfa ▸ hx),
    h.stepAll_closureOf_dfa hu]
  exact if_neg (StateSet.singleton_ne_empty _)

/-- The answers differ if and only if the run of the original has ended before the first foreign
symbol. -/
theorem accepts_ne_iff (h : m.Determinizes i d) (hi : m.initial = some i) :
    m.accepts w ≠ d.dfa.accepts w ↔ ∃ u x v,
      w = u ++ x :: v ∧ (∀ a ∈ u, a ∈ m.alphabet) ∧ x ∉ m.alphabet ∧ m.run u = .ok ∅ := by
  constructor
  · intro hw
    rcases m.alphabet.over_or_foreign w with hover | ⟨u, x, v, rfl, hu, hx⟩
    · exact absurd (h.accepts_dfa hi hover).symm hw
    · refine ⟨u, x, v, rfl, hu, hx, ?_⟩
      rw [accepts_foreign hi hu hx, h.accepts_dfa_foreign hu hx] at hw
      rw [run_eq_ok hi hu]
      by_contra hlive
      exact hw (if_neg fun hdead => hlive (congrArg Except.ok hdead))
  · intro hdead
    obtain ⟨u, x, v, rfl, hu, hx, hrun⟩ := hdead
    rw [run_eq_ok hi hu, Except.ok.injEq] at hrun
    rw [accepts_foreign hi hu hx, if_pos hrun, h.accepts_dfa_foreign hu hx]
    simp

end Determinizes

/-- The answers of an automaton beside those of a deterministic form of it, on all words. -/
structure DiffersOnForeign (m dfa : Automaton α) : Prop where
  alive : ∀ {u}, (∀ a ∈ u, a ∈ m.alphabet) → ∃ k, dfa.run u = .ok {k}
  foreign : ∀ {w}, (∃ a ∈ w, a ∉ m.alphabet) → ∃ u x v,
    w = u ++ x :: v ∧ (∀ a ∈ u, a ∈ m.alphabet) ∧ x ∉ m.alphabet ∧
      dfa.accepts w = .error (.invalidSymbol x) ∧
      ∃ s, m.run u = .ok s ∧
        m.accepts w = if s = ∅ then .ok false else .error (.invalidSymbol x)
  fails_no_more : ∀ {w b}, dfa.accepts w = .ok b → m.accepts w = .ok b
  differ_iff : ∀ {w}, m.accepts w ≠ dfa.accepts w ↔ ∃ u x v,
    w = u ++ x :: v ∧ (∀ a ∈ u, a ∈ m.alphabet) ∧ x ∉ m.alphabet ∧ m.run u = .ok ∅
  only_difference : ∀ {w}, m.accepts w ≠ dfa.accepts w →
    m.accepts w = .ok false ∧ ∃ x, dfa.accepts w = .error (.invalidSymbol x)

/-- The deterministic form fails at the first foreign symbol of a word, and the original does so too
unless its run has ended before; in that case it rejects the word. -/
theorem toDfa_differs_on_foreign (hi : m.initial = some i)
    (hfit : ∀ found, m.reachedSubsets 0 = .ok found → found.length ≤ UInt32.size) :
    ∃ dfa, m.toDfa = .ok dfa ∧ m.DiffersOnForeign dfa := by
  obtain ⟨d, hok, h⟩ := exists_determinize hi hfit
  refine ⟨d.dfa, toDfa_eq_ok hok, ?_, ?_, ?_, h.accepts_ne_iff hi, ?_⟩
  · intro u hu
    exact ⟨_, h.run_dfa hu⟩
  · intro w hw
    rcases m.alphabet.over_or_foreign w with hover | ⟨u, x, v, rfl, hu, hx⟩
    · obtain ⟨a, ha, hforeign⟩ := hw
      exact absurd (hover a ha) hforeign
    · exact ⟨u, x, v, rfl, hu, hx, h.accepts_dfa_foreign hu hx, _, run_eq_ok hi hu,
        accepts_foreign hi hu hx⟩
  · intro w b hb
    by_contra hne
    have hdiffer : m.accepts w ≠ d.dfa.accepts w := fun heq => hne (heq.trans hb)
    obtain ⟨u, x, v, rfl, hu, hx, -⟩ := (h.accepts_ne_iff hi).1 hdiffer
    rw [h.accepts_dfa_foreign hu hx] at hb
    cases hb
  · intro w hw
    obtain ⟨u, x, v, rfl, hu, hx, hrun⟩ := (h.accepts_ne_iff hi).1 hw
    rw [run_eq_ok hi hu, Except.ok.injEq] at hrun
    exact ⟨(accepts_foreign hi hu hx).trans (if_pos hrun), x, h.accepts_dfa_foreign hu hx⟩

/-- One symbol is foreign, and a run that has read two of the other has ended. -/
theorem toDfa_differs_on_foreign_of_one_symbol : oneSymbol.initial = some 0 ∧
    (∀ found, oneSymbol.reachedSubsets 0 = .ok found → found.length ≤ UInt32.size) ∧
    ∃ dfa, oneSymbol.toDfa = .ok dfa ∧ oneSymbol.DiffersOnForeign dfa := by
  have hm : oneSymbol.Reachable := .afterAll (.empty _) _ (by decide +kernel)
  have hi : oneSymbol.initial = some 0 := by decide +kernel
  have hfit : ∀ found, oneSymbol.reachedSubsets 0 = .ok found → found.length ≤ UInt32.size :=
    fun _ => length_reachedSubsets_le_size hm.wellFormed hi (by decide +kernel)
  exact ⟨hi, hfit, toDfa_differs_on_foreign hi hfit⟩

end Automaton
end FiniteAutomata
