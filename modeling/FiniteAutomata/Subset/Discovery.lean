import FiniteAutomata.Simulation

/-! Subsets are numbered in the order in which they are found, breadth first. The exploration ends
because every subset after the first holds only targets of edges: `missing` counts the sets of
targets that are still to be found. -/
namespace FiniteAutomata

/-- How many of the lists that are left when members of a list are struck out have a property. -/
def countSublists : (List StateId → Bool) → List StateId → Nat
  | p, [] => if p [] then 1 else 0
  | p, q :: u => countSublists p u + countSublists (fun l => p (q :: l)) u

section Sublists
variable {p r : List StateId → Bool} {l u : List StateId}

theorem countSublists_le (h : ∀ l, r l = true → p l = true) :
    countSublists r u ≤ countSublists p u := by
  induction u generalizing p r with
  | nil =>
    by_cases hr : r [] = true
    · simp [countSublists, hr, h [] hr]
    · simp [countSublists, hr]
  | cons q u ih => exact Nat.add_le_add (ih h) (ih fun l => h (q :: l))

/-- Fewer have the property that one of them has lost. -/
theorem countSublists_lt (hl : l.Sublist u) (h : ∀ l, r l = true → p l = true)
    (hp : p l = true) (hr : r l = false) : countSublists r u < countSublists p u := by
  induction hl generalizing p r with
  | slnil => simp [countSublists, hp, hr]
  | cons q _ ih =>
    exact Nat.add_lt_add_of_lt_of_le (ih h hp hr) (countSublists_le fun l => h (q :: l))
  | cons_cons q _ ih =>
    exact Nat.add_lt_add_of_le_of_lt (countSublists_le h) (ih (fun l => h (q :: l)) hp hr)

end Sublists

namespace Automaton
variable {α : Type}

/-- How many sets of targets are not among the subsets found so far. -/
def missing (m : Automaton α) (found : List StateSet) : Nat :=
  countSublists (fun l => l ∉ found.map StateSet.toList) m.targets.toList

/-- A subset that was found before keeps its number, a new one gets the next. A `limit` other than
zero is the greatest number of subsets allowed. -/
def discover (limit : Nat) (found : List StateSet)
    (s : StateSet) : Except (Fault α) (List StateSet) :=
  if s ∈ found then .ok found
  else if 0 < limit ∧ limit ≤ found.length then
    .error (.stateLimitExceeded (found.length + 1) limit)
  else .ok (found ++ [s])

/-- Discovers the steps from one subset on all symbols, in order. -/
def discoverSteps [DecidableEq α] (m : Automaton α) (limit : Nat) (found : List StateSet)
    (s : StateSet) : Except (Fault α) (List StateSet) :=
  (m.alphabet.symbols.map (m.step s)).foldlM (discover limit) found

theorem missing_append_lt (m : Automaton α) {found : List StateSet} {s : StateSet}
    (hs : s ⊆ m.targets) (hnew : s ∉ found) : m.missing (found ++ [s]) < m.missing found := by
  refine countSublists_lt (StateSet.sublist_of_subset hs) (fun l hl => ?_) ?_ ?_
  · simp only [List.map_append, List.mem_append, not_or, decide_eq_true_eq] at hl ⊢
    exact hl.1
  · simp only [List.mem_map, decide_eq_true_eq]
    rintro ⟨t, ht, e⟩
    exact hnew (StateSet.toList_injective e ▸ ht)
  · simp

theorem foldlM_discover {m : Automaton α} {limit : Nat} {l found found' : List StateSet}
    (hl : ∀ s ∈ l, s ⊆ m.targets)
    (h : l.foldlM (discover (α := α) limit) found = .ok found') :
    m.missing found' + found'.length ≤ m.missing found + found.length := by
  induction l generalizing found with
  | nil => cases h; exact Nat.le_refl _
  | cons s l ih =>
    have hl' : ∀ t ∈ l, t ⊆ m.targets := fun t ht => hl t (List.mem_cons_of_mem _ ht)
    simp only [List.foldlM_cons, discover] at h
    split at h
    · exact ih hl' h
    · next hnew =>
      split at h
      · exact nomatch h
      · have hlt := m.missing_append_lt (hl s List.mem_cons_self) hnew
        have hle := ih hl' h
        simp only [List.length_append, List.length_singleton] at hle
        omega

theorem length_le_of_foldlM_discover {limit : Nat} {l found found' : List StateSet}
    (h : l.foldlM (discover (α := α) limit) found = .ok found') :
    found.length ≤ found'.length := by
  induction l generalizing found with
  | nil => cases h; exact Nat.le_refl _
  | cons s l ih =>
    simp only [List.foldlM_cons, discover] at h
    split at h
    · exact ih h
    · split at h
      · exact nomatch h
      · have hle := ih h
        simp only [List.length_append, List.length_singleton] at hle
        omega

variable [DecidableEq α]

/-- Every subset that an expansion finds is one fewer to be found. -/
theorem missing_add_length_le {m : Automaton α} {limit : Nat} {found found' : List StateSet}
    {s : StateSet} (h : m.discoverSteps limit found s = .ok found') :
    m.missing found' + found'.length ≤ m.missing found + found.length :=
  foldlM_discover (fun _ ht =>
    have ⟨a, _, e⟩ := List.mem_map.1 ht
    e ▸ m.step_subset_targets s a) h

theorem length_le_of_discoverSteps {m : Automaton α} {limit : Nat}
    {found found' : List StateSet} {s : StateSet} (h : m.discoverSteps limit found s = .ok found') :
    found.length ≤ found'.length :=
  length_le_of_foldlM_discover h

/-- Expands the subsets from number `next` on, in turn, until none is left. -/
def explore (m : Automaton α) (limit : Nat) (found : List StateSet) (next : Nat) :
    Except (Fault α) (List StateSet) :=
  if hnext : next < found.length then
    match _h : m.discoverSteps limit found found[next] with
    | .ok found' => m.explore limit found' (next + 1)
    | .error fault => .error fault
  else .ok found
termination_by m.missing found + (found.length - next)
decreasing_by
  have := missing_add_length_le _h
  have := length_le_of_discoverSteps _h
  omega

/-- All subsets that runs reach, each at the place of its number. -/
def reachedSubsets (m : Automaton α) (limit : Nat) : Except (Fault α) (List StateSet) := do
  let q ← m.findInitial
  m.explore limit [m.closureOf q] 0

end Automaton
end FiniteAutomata
