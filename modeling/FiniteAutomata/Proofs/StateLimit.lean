import FiniteAutomata.Proofs.SubsetShape

/-! An exploration with a limit finds what the one without finds, until it would have to number one
subset too many (`atMost`). Lists only grow, so nothing that follows makes up for that. -/
namespace FiniteAutomata.Automaton
variable {α : Type} {limit next : Nat} {s : StateSet} {l found mid found' : List StateSet}

/-- What is left of a list of subsets if so many are allowed. -/
def atMost (limit : Nat) (found : List StateSet) : Except (Fault α) (List StateSet) :=
  if found.length ≤ limit then .ok found else .error (.stateLimitExceeded (limit + 1) limit)

theorem atMost_of_le (h : found.length ≤ limit) : atMost (α := α) limit found = .ok found :=
  if_pos h

theorem atMost_of_lt (h : limit < found.length) :
    atMost (α := α) limit found = .error (.stateLimitExceeded (limit + 1) limit) :=
  if_neg (Nat.not_le.2 h)

theorem discover_eq_atMost (hpos : 0 < limit) (h : found.length ≤ limit)
    (hok : discover (α := α) 0 found s = .ok mid) :
    discover (α := α) limit found s = atMost limit mid := by
  rcases discover_eq_ok_iff.1 hok with ⟨hs, rfl⟩ | ⟨hs, -, rfl⟩
  · rw [atMost_of_le h, discover, if_pos hs]
  · have hlen : (found ++ [s]).length = found.length + 1 := by simp
    rw [discover, if_neg hs]
    split_ifs with hfull
    · rw [atMost_of_lt (by omega), h.antisymm hfull.2]
    · rw [atMost_of_le (by omega)]

theorem foldlM_discover_eq_atMost (hpos : 0 < limit) (h : found.length ≤ limit)
    (hok : l.foldlM (discover (α := α) 0) found = .ok found') :
    l.foldlM (discover (α := α) limit) found = atMost limit found' := by
  induction l generalizing found with
  | nil =>
    obtain rfl := Except.ok.inj hok
    exact (atMost_of_le h).symm
  | cons s l ih =>
    rw [List.foldlM_cons] at hok ⊢
    obtain ⟨mid, hmid, hok⟩ := bind_eq_ok_iff.1 hok
    rw [discover_eq_atMost hpos h hmid]
    rcases Nat.lt_or_ge limit mid.length with hlt | hle
    · have hgrow := length_le_of_foldlM_discover hok
      rw [atMost_of_lt hlt, atMost_of_lt (by omega)]
      rfl
    · rw [atMost_of_le hle]
      exact ih hle hok

variable [DecidableEq α] {m : Automaton α} {d : Determinized α} {i : StateId}

theorem explore_eq_atMost (hpos : 0 < limit) (h : found.length ≤ limit)
    (hok : m.explore 0 found next = .ok found') :
    m.explore limit found next = atMost limit found' := by
  fun_induction Automaton.explore m 0 found next with
  | case1 found next hnext mid hmid ih =>
    have hsteps : m.discoverSteps limit found found[next] = atMost limit mid :=
      foldlM_discover_eq_atMost hpos h hmid
    rw [explore_of_lt hnext, hsteps]
    rcases Nat.lt_or_ge limit mid.length with hlt | hle
    · have hgrow := length_le_of_explore hok
      rw [atMost_of_lt hlt, atMost_of_lt (by omega)]
      rfl
    · rw [atMost_of_le hle]
      exact ih hle hok
  | case2 found next hnext fault hfault => cases hok
  | case3 found next hnext =>
    obtain rfl := Except.ok.inj hok
    rw [atMost_of_le h, Automaton.explore, dif_neg hnext]

theorem reachedSubsets_eq_atMost (hi : m.initial = some i) (hpos : 0 < limit)
    (hok : m.reachedSubsets 0 = .ok found) : m.reachedSubsets limit = atMost limit found := by
  rw [reachedSubsets_eq hi] at hok ⊢
  exact explore_eq_atMost hpos hpos hok

end FiniteAutomata.Automaton
