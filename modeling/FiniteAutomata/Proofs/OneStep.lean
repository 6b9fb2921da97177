import FiniteAutomata.Proofs.EarlyEnd

namespace FiniteAutomata.Automaton
variable {α : Type} {m : Automaton α} {p q r : StateId}

theorem Path.append_iff {xs ys : List (Label α)} :
    m.Path p (xs ++ ys) r ↔ ∃ q, m.Path p xs q ∧ m.Path q ys r := by
  constructor
  · intro h
    induction xs generalizing p with
    | nil => exact ⟨p, .nil p, h⟩
    | cons x xs ih =>
      cases h with
      | cons edge rest =>
        obtain ⟨q, hxs, hys⟩ := ih rest
        exact ⟨q, .cons edge hxs, hys⟩
  · rintro ⟨q, hxs, hys⟩
    exact hxs.append hys

theorem Path.cons_iff {x : Label α} {xs : List (Label α)} :
    m.Path p (x :: xs) r ↔ ∃ q, ⟨p, x, q⟩ ∈ m.transitions ∧ m.Path q xs r := by
  constructor
  · intro h
    cases h with
    | cons edge rest => exact ⟨_, edge, rest⟩
  · rintro ⟨q, edge, rest⟩
    exact .cons edge rest

variable [DecidableEq α] {s t : StateSet} {a : α}

theorem epsilonReach_iff_path (hm : m.WellFormed) :
    m.EpsilonReach p q ↔ ∃ k, m.Path p (List.replicate k .epsilon) q := by
  constructor
  · intro h
    induction h using Relation.ReflTransGen.head_induction_on with
    | refl => exact ⟨0, .nil q⟩
    | head edge _ ih =>
      obtain ⟨k, hk⟩ := ih
      exact ⟨k + 1, .cons (mem_transitions edge) hk⟩
  · rintro ⟨k, hk⟩
    rw [← reads_nil_iff hm]
    refine ⟨_, hk, List.filterMap_eq_nil_iff.2 fun x hx => ?_⟩
    rw [List.eq_of_mem_replicate hx]
    rfl

/-- The labels of a path that reads one symbol, with so many epsilon edges before and after it. -/
def labelsAround (j : Nat) (a : α) (k : Nat) : List (Label α) :=
  List.replicate j .epsilon ++ .literal a :: List.replicate k .epsilon

theorem mem_step_iff_path (hm : m.WellFormed) :
    q ∈ m.step s a ↔ ∃ p ∈ s, ∃ j k, m.Path p (labelsAround j a k) q := by
  simp only [mem_step_iff, labelsAround, Path.append_iff, Path.cons_iff,
    mem_transitions_iff hm.fits, epsilonReach_iff_path hm]
  refine exists_congr fun p => and_congr_right fun _ => ?_
  constructor
  · rintro ⟨p', q', ⟨j, hj⟩, edge, k, hk⟩
    exact ⟨j, k, p', hj, q', edge, hk⟩
  · rintro ⟨j, k, p', hj, q', edge, hk⟩
    exact ⟨p', q', ⟨j, hj⟩, edge, k, hk⟩

theorem step_live (hm : m.WellFormed) (hq : q ∈ m.step s a) : m.contains q = true := by
  obtain ⟨p, -, p', q', -, edge, hq'⟩ := mem_step_iff.1 hq
  exact ((reads_nil_iff hm).2 hq').target_live hm (hm.target_live edge)

/-- Closing the set first adds nothing that the step does not add. -/
theorem step_closure (m : Automaton α) (s : StateSet) (a : α) :
    m.step (m.closure s) a = m.step s a := by
  rw [step, closure_eq_self (epsilonClosed_closure m s), step]

theorem step_union (m : Automaton α) (s t : StateSet) (a : α) :
    m.step (s ∪ t) a = m.step s a ∪ m.step t a := by
  ext q
  simp only [mem_step_iff, StateSet.mem_union, or_and_right, exists_or]

theorem moveOn_eq_ok_iff : m.moveOn s a = .ok t ↔ a ∈ m.alphabet ∧ t = m.step s a := by
  by_cases ha : a ∈ m.alphabet
  · simp [moveOn_eq_ok ha, ha, eq_comm]
  · simp [moveOn_eq_error ha, ha]

theorem moveOn_closure (m : Automaton α) (s : StateSet) (a : α) :
    m.moveOn (m.closure s) a = m.moveOn s a := by
  rw [moveOn, step_closure, moveOn]

theorem moveOn_union (m : Automaton α) (s t : StateSet) (a : α) :
    m.moveOn (s ∪ t) a = do return (← m.moveOn s a) ∪ (← m.moveOn t a) := by
  by_cases ha : a ∈ m.alphabet
  · rw [moveOn_eq_ok ha, moveOn_eq_ok ha, moveOn_eq_ok ha, step_union]
    rfl
  · rw [moveOn_eq_error ha, moveOn_eq_error ha]
    rfl

/-- What a step from any set of numbers returns. -/
structure StepExact (m : Automaton α) (s : StateSet) (a : α) : Prop where
  foreign : m.moveOn s a = .error (.invalidSymbol a) ↔ a ∉ m.alphabet
  reached : a ∈ m.alphabet → ∃ t, m.moveOn s a = .ok t ∧
    ∀ q, q ∈ t ↔ ∃ p ∈ s, ∃ j k, m.Path p (labelsAround j a k) q
  closed : ∀ {t}, m.moveOn s a = .ok t → m.closure t = t ∧
    ∀ {p q}, p ∈ t → ⟨p, .epsilon, q⟩ ∈ m.transitions → q ∈ t
  live : ∀ {t}, m.moveOn s a = .ok t → ∀ q ∈ t, m.contains q = true
  closing_first : m.moveOn (m.closure s) a = m.moveOn s a
  union : ∀ s', m.moveOn (s ∪ s') a = do return (← m.moveOn s a) ∪ (← m.moveOn s' a)

theorem step_exact (hm : m.Reachable) (s : StateSet) (a : α) : m.StepExact s a := by
  have hwf := hm.wellFormed
  refine ⟨?_, fun ha => ⟨_, moveOn_eq_ok ha, fun q => mem_step_iff_path hwf⟩, fun {t} ht => ?_,
    fun {t} ht q hq => ?_, moveOn_closure m s a, fun s' => moveOn_union m s s' a⟩
  · simp [moveOn_eq_error_iff]
  · obtain ⟨-, rfl⟩ := moveOn_eq_ok_iff.1 ht
    have hclosed := epsilonClosed_step m s a
    refine ⟨closure_eq_self hclosed, fun {p q} hp edge => ?_⟩
    exact hclosed p hp q ((mem_transitions_iff hwf.fits).1 edge)
  · obtain ⟨-, rfl⟩ := moveOn_eq_ok_iff.1 ht
    exact step_live hwf hq

/-- The set holds a state on a cycle without the other one, the number of the removed state and one
that was never given out. -/
theorem step_exact_in_a_cycle :
    epsilonCycle.Reachable ∧ epsilonCycle.StepExact (.ofList [0, 1, 7]) true :=
  ⟨reachable_epsilonCycle, step_exact reachable_epsilonCycle _ _⟩

end FiniteAutomata.Automaton
