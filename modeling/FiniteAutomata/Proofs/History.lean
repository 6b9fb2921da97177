import FiniteAutomata.Proofs.Reachable

namespace FiniteAutomata.Automaton
variable {α : Type} [DecidableEq α] {m : Automaton α}

/-- Edges join states and read symbols of the alphabet, no label is kept without a target, and the
marks are on states, after any history of an automaton that operations built. -/
theorem wellFormed_after_history (hm : m.Reachable) (ops : List (Operation α))
    (numbers : m.slots.size + ops.countP Operation.addsState ≤ UInt32.size) :
    (m.afterAll ops).alphabet = m.alphabet ∧ (m.afterAll ops).WellFormed ∧
      ∀ e ∈ (m.afterAll ops).transitions, (m.afterAll ops).contains e.source = true ∧
        (m.afterAll ops).contains e.target = true ∧
          ∀ a, e.label = .literal a → a ∈ m.alphabet := by
  have fits : (m.afterAll ops).slots.size ≤ UInt32.size := by
    rw [size_afterAll]
    exact numbers
  have halphabet := alphabet_afterAll m ops
  have hwf := (hm.afterAll ops fits).wellFormed
  refine ⟨halphabet, hwf, fun e he => ?_⟩
  obtain ⟨p, x, q⟩ := e
  obtain ⟨hp, hq⟩ := hwf.ends_live he
  refine ⟨hp, hq, fun a ha => ?_⟩
  obtain rfl : x = .literal a := ha
  rw [← halphabet]
  exact hwf.label_valid ((mem_transitions_iff hwf.fits).1 he)

/-- Two of its edits are refused, and one removes the initial state. -/
def lossyHistory : List (Operation Bool) :=
  [.addTransition 0 .epsilon 1, .addState false true none, .addEpsilon 3 0, .removeState 0,
    .setInitial 0]

theorem wellFormed_after_lossyHistory : epsilonCycle.Reachable ∧
    epsilonCycle.slots.size + lossyHistory.countP Operation.addsState ≤ UInt32.size ∧
    (epsilonCycle.afterAll lossyHistory).alphabet = epsilonCycle.alphabet ∧
    (epsilonCycle.afterAll lossyHistory).WellFormed ∧
    ∀ e ∈ (epsilonCycle.afterAll lossyHistory).transitions,
      (epsilonCycle.afterAll lossyHistory).contains e.source = true ∧
        (epsilonCycle.afterAll lossyHistory).contains e.target = true ∧
          ∀ a, e.label = .literal a → a ∈ epsilonCycle.alphabet :=
  ⟨reachable_epsilonCycle, by decide +kernel,
    wellFormed_after_history reachable_epsilonCycle lossyHistory (by decide +kernel)⟩

end FiniteAutomata.Automaton
