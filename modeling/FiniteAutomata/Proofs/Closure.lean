import FiniteAutomata.Closure
import FiniteAutomata.Proofs.Path
import Mathlib.Logic.Relation

namespace FiniteAutomata.Automaton
variable {α : Type} [DecidableEq α] {m : Automaton α} {p q r : StateId} {s : StateSet}

/-- Any number of epsilon edges leads from one state to the other. -/
def EpsilonReach (m : Automaton α) : StateId → StateId → Prop :=
  Relation.ReflTransGen fun p q => q ∈ m.destinations p .epsilon

theorem reads_nil_iff (hm : m.WellFormed) : m.Reads p [] q ↔ m.EpsilonReach p q := by
  constructor
  · intro hr
    obtain ⟨xs, hxs, hw⟩ := hr
    induction hxs with
    | nil q => exact .refl
    | @cons p q r x xs edge _ ih =>
      cases x with
      | epsilon => exact .head ((mem_transitions_iff hm.fits).1 edge) (ih hw)
      | literal a => cases hw
  · intro h
    induction h using Relation.ReflTransGen.head_induction_on with
    | refl => exact .refl m q
    | head edge _ ih => exact ih.epsilon (mem_transitions edge)

theorem mem_closureRounds_sound {seen frontier : StateSet}
    (hs : s ∈ m.closureRounds seen frontier) (hq : q ∈ s) :
    ∃ p ∈ frontier, m.EpsilonReach p q := by
  fun_induction closureRounds m seen frontier with
  | case1 => cases hs
  | case2 seen frontier _ ih =>
    rcases List.mem_cons.1 hs with rfl | hs
    · exact ⟨q, (StateSet.mem_sdiff.1 hq).1, .refl⟩
    · obtain ⟨p, hp, hpq⟩ := ih hs
      obtain ⟨o, ho, hop⟩ := mem_image.1 hp
      exact ⟨o, (StateSet.mem_sdiff.1 ho).1, .head hop hpq⟩

theorem mem_unions_cons {t : StateSet} {l : List StateSet} :
    q ∈ StateSet.unions (t :: l) ↔ q ∈ t ∨ q ∈ StateSet.unions l := by
  simp

/-- The rounds miss nothing: the frontier is seen or found, and what is found leads only to what is
seen or found. -/
theorem closureRounds_complete (m : Automaton α) (seen frontier : StateSet) :
    (∀ q ∈ frontier, q ∈ seen ∪ .unions (m.closureRounds seen frontier)) ∧
      ∀ p ∈ StateSet.unions (m.closureRounds seen frontier), ∀ q ∈ m.destinations p .epsilon,
        q ∈ seen ∪ .unions (m.closureRounds seen frontier) := by
  fun_induction closureRounds m seen frontier with
  | case1 seen frontier hnew =>
    rw [StateSet.isEmpty_iff] at hnew
    refine ⟨fun q hq => StateSet.mem_union.2 (.inl ?_), fun p hp => absurd hp (by simp)⟩
    by_contra hqs
    have hq' : q ∈ frontier \ seen := StateSet.mem_sdiff.2 ⟨hq, hqs⟩
    rw [hnew] at hq'
    exact StateSet.not_mem_empty q hq'
  | case2 seen frontier _ ih =>
    simp only [StateSet.mem_union, mem_unions_cons, ← or_assoc] at ih ⊢
    refine ⟨fun q hq => .inl ?_, fun p hp q hpq => ?_⟩
    · by_cases hqs : q ∈ seen
      · exact .inl hqs
      · exact .inr (StateSet.mem_sdiff.2 ⟨hq, hqs⟩)
    · rcases hp with hp | hp
      · exact ih.1 q (mem_image.2 ⟨p, hp, hpq⟩)
      · exact ih.2 p hp q hpq

/-- Epsilon edges do not lead out of the set. -/
def EpsilonClosed (m : Automaton α) (s : StateSet) : Prop :=
  ∀ p ∈ s, ∀ q ∈ m.destinations p .epsilon, q ∈ s

theorem EpsilonClosed.mem_of_reach (hs : m.EpsilonClosed s) (hp : p ∈ s)
    (h : m.EpsilonReach p q) : q ∈ s := by
  induction h with
  | refl => exact hp
  | tail _ edge ih => exact hs _ ih _ edge

theorem subset_closure (hq : q ∈ s) : q ∈ m.closure s := by
  have h := (m.closureRounds_complete ∅ s).1 q hq
  rw [StateSet.mem_union] at h
  exact h.resolve_left (StateSet.not_mem_empty q)

theorem epsilonClosed_closure (m : Automaton α) (s : StateSet) :
    m.EpsilonClosed (m.closure s) := by
  intro p hp q hpq
  have h := (m.closureRounds_complete ∅ s).2 p hp q hpq
  rw [StateSet.mem_union] at h
  exact h.resolve_left (StateSet.not_mem_empty q)

theorem mem_closure_iff : q ∈ m.closure s ↔ ∃ p ∈ s, m.EpsilonReach p q := by
  constructor
  · intro hq
    obtain ⟨t, ht, hqt⟩ := StateSet.mem_unions.1 hq
    exact mem_closureRounds_sound ht hqt
  · intro h
    obtain ⟨p, hp, hpq⟩ := h
    exact (epsilonClosed_closure m s).mem_of_reach (subset_closure hp) hpq

/-- Only epsilon edges count, so the automata may even have symbols of different types. -/
theorem closure_congr {β : Type} [DecidableEq β] {m' : Automaton β}
    (h : ∀ p, m'.destinations p .epsilon = m.destinations p .epsilon) (s : StateSet) :
    m'.closure s = m.closure s := by
  have hreach : m'.EpsilonReach = m.EpsilonReach := by
    simp only [EpsilonReach, h]
  ext q
  rw [mem_closure_iff, mem_closure_iff, hreach]

theorem closure_eq_self (hs : m.EpsilonClosed s) : m.closure s = s := by
  ext q
  rw [mem_closure_iff]
  constructor
  · intro h
    obtain ⟨p, hp, hpq⟩ := h
    exact hs.mem_of_reach hp hpq
  · intro hq
    exact ⟨q, hq, .refl⟩

theorem epsilonClosed_step (m : Automaton α) (s : StateSet) (a : α) :
    m.EpsilonClosed (m.step s a) :=
  epsilonClosed_closure m _

theorem mem_step_iff {a : α} : q ∈ m.step s a ↔ ∃ p ∈ s, ∃ p' q', m.EpsilonReach p p' ∧
    q' ∈ m.destinations p' (.literal a) ∧ m.EpsilonReach q' q := by
  simp only [step, mem_closure_iff, mem_image]
  constructor
  · intro h
    obtain ⟨q', ⟨p', ⟨p, hp, hpp'⟩, edge⟩, hq⟩ := h
    exact ⟨p, hp, p', q', hpp', edge, hq⟩
  · intro h
    obtain ⟨p, hp, p', q', hpp', edge, hq⟩ := h
    exact ⟨q', ⟨p', ⟨p, hp, hpp'⟩, edge⟩, hq⟩

theorem step_empty (m : Automaton α) (a : α) : m.step ∅ a = ∅ := by
  ext q
  simp [mem_step_iff]

end FiniteAutomata.Automaton
