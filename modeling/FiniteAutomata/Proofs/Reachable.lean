import FiniteAutomata.Proofs.Diagram
import FiniteAutomata.Regular
import FiniteAutomata.Subset.Determinize

namespace FiniteAutomata.Automaton
variable {α : Type} [DecidableEq α]

/-- What the operations of the library build from nothing. A refused edit changes nothing, so the
edits that count are those that succeed; `fits` says that the numbers of states never ran out. -/
inductive Reachable : Automaton α → Prop
  | empty (alphabet : Alphabet α) : Reachable (empty alphabet)
  | edit {m m' : Automaton α} {op : Operation α} (prior : Reachable m)
      (made : m.perform op = .ok m') (fits : m'.slots.size ≤ UInt32.size) : Reachable m'
  | ofWord {alphabet : Alphabet α} {w : List α} {m : Automaton α}
      (made : ofWord alphabet w = .ok m) (fits : m.slots.size ≤ UInt32.size) : Reachable m
  | concat {a b m : Automaton α} (first : Reachable a) (second : Reachable b)
      (made : a.concat b = .ok m) (fits : m.slots.size ≤ UInt32.size) : Reachable m
  | union {a b m : Automaton α} (first : Reachable a) (second : Reachable b)
      (made : a.union b = .ok m) (fits : m.slots.size ≤ UInt32.size) : Reachable m
  | star {a m : Automaton α} (operand : Reachable a)
      (made : a.star = .ok m) (fits : m.slots.size ≤ UInt32.size) : Reachable m
  | determinize {a : Automaton α} {limit : Nat} {d : Determinized α} (operand : Reachable a)
      (made : a.determinize limit = .ok d) (fits : d.dfa.slots.size ≤ UInt32.size) :
      Reachable d.dfa

/-- Every construction ends by building a diagram. -/
theorem determinize_eq_ok_iff {m : Automaton α} {limit : Nat} {d : Determinized α} :
    m.determinize limit = .ok d ↔ m.reachedSubsets limit = .ok d.subsets ∧
      (m.subsetDiagram d.subsets).build = .ok d.dfa := by
  obtain ⟨dfa, subsets⟩ := d
  simp only [determinize, bind_eq_ok_iff, pure_eq_ok_iff, Determinized.mk.injEq]
  constructor
  · intro h
    obtain ⟨found, hfound, m', hm', hdfa, hsubsets⟩ := h
    subst hdfa hsubsets
    exact ⟨hfound, hm'⟩
  · intro h
    obtain ⟨hfound, hm'⟩ := h
    exact ⟨subsets, hfound, dfa, hm', rfl, rfl⟩

/-- Whatever operations build is well-formed. -/
theorem Reachable.wellFormed {m : Automaton α} (h : Reachable m) : m.WellFormed := by
  induction h with
  | empty alphabet => exact wellFormed_empty alphabet
  | edit _ made fits ih => exact wellFormed_perform ih made fits
  | ofWord made fits => exact Diagram.wellFormed_build made fits
  | concat _ _ made fits =>
    obtain ⟨⟨i, j⟩, -, hbuild⟩ := bind_eq_ok_iff.1 made
    exact Diagram.wellFormed_build hbuild fits
  | union _ _ made fits =>
    obtain ⟨⟨i, j⟩, -, hbuild⟩ := bind_eq_ok_iff.1 made
    exact Diagram.wellFormed_build hbuild fits
  | star _ made fits =>
    obtain ⟨i, -, hbuild⟩ := bind_eq_ok_iff.1 made
    exact Diagram.wellFormed_build hbuild fits
  | determinize _ made fits =>
    obtain ⟨-, hbuild⟩ := determinize_eq_ok_iff.1 made
    exact Diagram.wellFormed_build hbuild fits

/-- An edit keeps the alphabet, and the slots count the states that were ever added. -/
theorem perform_keeps {m m' : Automaton α} {op : Operation α} (h : m.perform op = .ok m') :
    m'.alphabet = m.alphabet ∧
      m'.slots.size = m.slots.size + if op.addsState then 1 else 0 := by
  cases op with
  | addState i f name =>
    obtain rfl := Except.ok.inj h
    exact ⟨rfl, size_addState i f name⟩
  | removeState q =>
    obtain ⟨-, rfl⟩ := removeState_eq_ok_iff.1 h
    exact ⟨rfl, by simp [Operation.addsState]⟩
  | setInitial q =>
    obtain ⟨-, rfl⟩ := setInitial_eq_ok_iff.1 h
    exact ⟨rfl, rfl⟩
  | markFinal q =>
    obtain ⟨-, rfl⟩ := markFinal_eq_ok_iff.1 h
    exact ⟨rfl, rfl⟩
  | unmarkFinal q =>
    obtain ⟨-, rfl⟩ := unmarkFinal_eq_ok_iff.1 h
    exact ⟨rfl, rfl⟩
  | addTransition p x q | addEpsilon p q =>
    obtain ⟨-, -, -, rfl⟩ := addTransition_eq_ok_iff.1 h
    exact ⟨rfl, by simp [modifyTransitions, Operation.addsState]⟩
  | addTransitionSet p x qs =>
    obtain ⟨-, -, -, rfl⟩ := addTransitionSet_eq_ok_iff.1 h
    exact ⟨rfl, by simp [modifyTransitions, Operation.addsState]⟩
  | addMultiple p es =>
    obtain ⟨-, -, rfl⟩ := addMultiple_eq_ok_iff.1 h
    exact ⟨rfl, by simp [modifyTransitions, Operation.addsState]⟩

/-- The same of an edit that may be refused: one that adds a state never is. -/
theorem after_keeps (m : Automaton α) (op : Operation α) :
    (m.after op).alphabet = m.alphabet ∧
      (m.after op).slots.size = m.slots.size + if op.addsState then 1 else 0 := by
  unfold after
  cases h : m.perform op with
  | ok m' => exact perform_keeps h
  | error f =>
    have hadds : op.addsState = false := by
      cases op with
      | addState i f name => cases h
      | _ => rfl
    simp [hadds]

theorem alphabet_afterAll (m : Automaton α) (ops : List (Operation α)) :
    (m.afterAll ops).alphabet = m.alphabet := by
  induction ops generalizing m with
  | nil => rfl
  | cons op ops ih => exact (ih (m.after op)).trans (after_keeps m op).1

theorem size_afterAll (m : Automaton α) (ops : List (Operation α)) :
    (m.afterAll ops).slots.size = m.slots.size + ops.countP Operation.addsState := by
  induction ops generalizing m with
  | nil => rfl
  | cons op ops ih =>
    have hop := (after_keeps m op).2
    have hops := ih (m.after op)
    change ((m.after op).afterAll ops).slots.size = _
    rw [List.countP_cons]
    omega

/-- A history keeps an automaton reachable, whether its edits succeed or are refused. -/
theorem Reachable.afterAll {m : Automaton α} (h : Reachable m) (ops : List (Operation α))
    (fits : (m.afterAll ops).slots.size ≤ UInt32.size) : Reachable (m.afterAll ops) := by
  induction ops generalizing m with
  | nil => exact h
  | cons op ops ih =>
    have hsize : (m.after op).slots.size ≤ UInt32.size := by
      have hops := size_afterAll (m.after op) ops
      change ((m.after op).afterAll ops).slots.size ≤ _ at fits
      omega
    refine ih ?_ fits
    cases hop : m.perform op with
    | ok m' =>
      have hm' : m.after op = m' := by rw [after, hop]
      rw [hm'] at hsize ⊢
      exact .edit h hop hsize
    | error f =>
      have hm : m.after op = m := by rw [after, hop]
      rwa [hm]

/-- Two states on a cycle of epsilon edges, the one initial and the other final and reading ones,
beside the slot of a state that was removed. -/
def epsilonCycle : Automaton Bool :=
  (empty ⟨[false, true], by decide⟩).afterAll
    [.addState true false none, .addState false false none, .addState false true none,
      .addEpsilon 0 2, .addEpsilon 2 0, .addEpsilon 2 1, .addTransition 2 (.literal true) 2,
      .removeState 1]

theorem reachable_epsilonCycle : epsilonCycle.Reachable :=
  .afterAll (.empty _) _ (by decide +kernel)

theorem initial_epsilonCycle : epsilonCycle.initial = some 0 := by decide +kernel

end FiniteAutomata.Automaton
