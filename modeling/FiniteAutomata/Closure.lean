import FiniteAutomata.Automaton.Basic

/-! The closure of a set is found in rounds. Each follows the epsilon edges of the states that the
round before has found; cycles do no harm, because a round is disjoint from all before it. -/
namespace FiniteAutomata.Automaton
variable {α : Type} [DecidableEq α]

def image (m : Automaton α) (x : Label α) (s : StateSet) : StateSet :=
  .unions (s.toList.map (m.destinations · x))

@[simp] theorem mem_image {m : Automaton α} {x : Label α} {s : StateSet} {q : StateId} :
    q ∈ m.image x s ↔ ∃ p ∈ s, q ∈ m.destinations p x := by
  simp only [image, StateSet.mem_unions, List.mem_map]
  constructor
  · rintro ⟨_, ⟨p, hp, rfl⟩, hq⟩
    exact ⟨p, hp, hq⟩
  · rintro ⟨p, hp, hq⟩
    exact ⟨_, ⟨p, hp, rfl⟩, hq⟩

theorem image_subset_targets (m : Automaton α) (x : Label α) (s : StateSet) :
    m.image x s ⊆ m.targets := fun _ hq =>
  have ⟨_, _, hd⟩ := mem_image.1 hq
  mem_targets hd

/-- What is still to be found shrinks in each round. -/
theorem closure_measure_lt (m : Automaton α) {seen frontier : StateSet}
    (h : ¬(frontier \ seen).isEmpty = true) :
    ((m.image .epsilon (frontier \ seen) ∪ m.targets) \ (seen ∪ frontier \ seen)).size <
      ((frontier ∪ m.targets) \ seen).size := by
  obtain ⟨q, hq⟩ := StateSet.exists_mem_of_ne_empty (mt StateSet.isEmpty_iff.2 h)
  refine StateSet.size_lt_size (fun r hr => ?_) (q := q) ?_ ?_
  · simp only [StateSet.mem_sdiff, StateSet.mem_union, not_or] at hr ⊢
    refine ⟨hr.1.elim (fun hi => .inr (m.image_subset_targets _ _ r hi)) .inr, hr.2.1⟩
  · simp only [StateSet.mem_sdiff, StateSet.mem_union] at hq ⊢
    exact ⟨.inl hq.1, hq.2⟩
  · simp only [StateSet.mem_sdiff, StateSet.mem_union, not_and] at hq ⊢
    exact fun _ hn => hn (.inr hq)

/-- The rounds of new states, beginning with those of `frontier` that were not seen before. -/
def closureRounds (m : Automaton α) (seen frontier : StateSet) : List StateSet :=
  if (frontier \ seen).isEmpty then []
  else (frontier \ seen) ::
    m.closureRounds (seen ∪ frontier \ seen) (m.image .epsilon (frontier \ seen))
termination_by ((frontier ∪ m.targets) \ seen).size
decreasing_by exact m.closure_measure_lt (by assumption)

/-- The least set that holds the given states and is closed under epsilon edges. -/
def closure (m : Automaton α) (s : StateSet) : StateSet := .unions (m.closureRounds ∅ s)

/-- The states reached from one state without reading, that state included. -/
def closureOf (m : Automaton α) (q : StateId) : StateSet := m.closure {q}

/-- The states reached by one edge on the symbol, with any number of epsilon edges before and
after it. -/
def step (m : Automaton α) (s : StateSet) (a : α) : StateSet :=
  m.closure (m.image (.literal a) (m.closure s))

def moveOn (m : Automaton α) (s : StateSet) (a : α) : Except (Fault α) StateSet := do
  m.checkSymbol a
  return m.step s a

theorem mem_closureRounds_imp {m : Automaton α} {seen frontier s : StateSet} {q : StateId}
    (hs : s ∈ m.closureRounds seen frontier) (hq : q ∈ s) : q ∈ frontier ∨ q ∈ m.targets := by
  fun_induction closureRounds m seen frontier with
  | case1 => simp at hs
  | case2 seen frontier _ ih =>
    rcases List.mem_cons.1 hs with rfl | hs
    · exact .inl (StateSet.mem_sdiff.1 hq).1
    · exact .inr ((ih hs).elim (m.image_subset_targets _ _ q) id)

theorem mem_closure_imp {m : Automaton α} {s : StateSet} {q : StateId} (hq : q ∈ m.closure s) :
    q ∈ s ∨ q ∈ m.targets := by
  obtain ⟨r, hr, hqr⟩ := StateSet.mem_unions.1 hq
  exact mem_closureRounds_imp hr hqr

/-- A step ends where some edge ends. -/
theorem step_subset_targets (m : Automaton α) (s : StateSet) (a : α) : m.step s a ⊆ m.targets :=
  fun q hq => (mem_closure_imp hq).elim (m.image_subset_targets _ _ q) id

end FiniteAutomata.Automaton
