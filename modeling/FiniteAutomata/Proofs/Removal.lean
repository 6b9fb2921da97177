import FiniteAutomata.Proofs.Simulation

/-! A removal takes away one state, the edges at it and the marks on it, and nothing else. So the
paths that are left are the old paths that do not visit the state. -/
namespace FiniteAutomata

theorem StateSet.erase_comm (s : StateSet) (p q : StateId) :
    (s.erase p).erase q = (s.erase q).erase p := by
  ext r
  simp only [mem_erase]
  exact and_right_comm

namespace Transitions
variable {α : Type}

/-- An entry that the first removal drops would have no target left after the second one either. -/
theorem forgetEntries_forgetEntries (p q : StateId) (l : List (Label α × StateSet)) :
    forgetEntries q (forgetEntries p l) =
      (l.map fun e => (e.1, (e.2.erase p).erase q)).filter fun e => !e.2.isEmpty := by
  have hdrop : ∀ d : StateSet,
      (d.erase p).isEmpty = true → ((d.erase p).erase q).isEmpty = true := by
    intro d hd
    rw [StateSet.isEmpty_iff] at hd ⊢
    rw [hd]
    rfl
  simp only [forgetEntries, List.filter_map, List.map_map, List.filter_filter]
  refine congrArg (List.map _) (List.filter_congr fun e _ => ?_)
  have he := hdrop e.2
  simp only [Function.comp_apply]
  cases hp : (e.2.erase p).isEmpty with
  | false => simp
  | true => simp [he hp]

theorem forget_comm (t : Transitions α) (p q : StateId) :
    (t.forget p).forget q = (t.forget q).forget p := by
  have hentries : forgetEntries q (forgetEntries p t.entries) =
      forgetEntries p (forgetEntries q t.entries) := by
    simp only [forgetEntries_forgetEntries, StateSet.erase_comm _ p q]
  simp only [forget, hentries]

end Transitions

namespace Automaton
variable {α : Type} {m m' : Automaton α} {i p q r : StateId} {x : Label α} {xs : List (Label α)}
  {visited : List StateId}

theorem exists_removeState (hq : m.contains q = true) : ∃ m', m.removeState q = .ok m' :=
  ⟨_, removeState_eq_ok_iff.2 ⟨hq, rfl⟩⟩

theorem name?_removeState (h : m.removeState q = .ok m') (hp : p ≠ q) :
    m'.name? p = m.name? p := by
  rw [name?, state?_removeState h, if_neg hp, name?, Option.map_map]
  rfl

theorem size_removeState (h : m.removeState q = .ok m') : m'.slots.size = m.slots.size := by
  rw [(removeState_eq_ok_iff.1 h).2]
  simp

theorem alphabet_removeState (h : m.removeState q = .ok m') : m'.alphabet = m.alphabet := by
  rw [(removeState_eq_ok_iff.1 h).2]

theorem initial_removeState (h : m.removeState q = .ok m') :
    m'.initial = if m.initial = some q then none else m.initial := by
  rw [(removeState_eq_ok_iff.1 h).2]

theorem finals_removeState (h : m.removeState q = .ok m') : m'.finals = m.finals.erase q := by
  rw [(removeState_eq_ok_iff.1 h).2]

theorem stateIds_removeState (fits : m.slots.size ≤ UInt32.size) (h : m.removeState q = .ok m') :
    m'.stateIds = m.stateIds.filter (· ≠ q) := by
  apply stateIds_eq ((size_removeState h).trans_le fits)
  · exact (stateIds_ascending fits).filter _
  · intro p
    rw [List.mem_filter, mem_stateIds_iff fits, contains_removeState h]
    simp [and_comm]

/-- The other states keep their numbers and names. -/
theorem states_removeState (fits : m.slots.size ≤ UInt32.size) (h : m.removeState q = .ok m') :
    m'.states = m.states.filter (·.1 ≠ q) := by
  rw [states_eq_map ((size_removeState h).trans_le fits), states_eq_map fits,
    stateIds_removeState fits h, List.filter_map]
  refine List.map_congr_left fun p hp => ?_
  have hne : p ≠ q := by simpa using (List.mem_filter.1 hp).2
  rw [name?_removeState h hne]

/-- A path with the states on it, both ends included. -/
inductive Visits (m : Automaton α) : StateId → List (Label α) → StateId → List StateId → Prop
  | nil (q : StateId) : Visits m q [] q [q]
  | cons {p q r : StateId} {x : Label α} {xs : List (Label α)} {visited : List StateId}
      (edge : ⟨p, x, q⟩ ∈ m.transitions) (rest : Visits m q xs r visited) :
      Visits m p (x :: xs) r (p :: visited)

theorem Visits.start_mem (h : m.Visits p xs r visited) : p ∈ visited := by
  cases h with
  | nil => exact List.mem_singleton.2 rfl
  | cons => exact List.mem_cons_self

theorem Visits.end_mem (h : m.Visits p xs r visited) : r ∈ visited := by
  induction h with
  | nil => exact List.mem_singleton.2 rfl
  | cons _ _ ih => exact List.mem_cons_of_mem _ ih

/-- A path from the initial state to a final one reads the word and does not visit the state. -/
def AcceptsAvoiding (m : Automaton α) (q : StateId) (w : List α) : Prop :=
  ∃ i f xs visited, m.initial = some i ∧ f ∈ m.finals ∧ m.Visits i xs f visited ∧
    Label.word xs = w ∧ q ∉ visited

variable [DecidableEq α]

theorem mem_transitions_removeState (fits : m.slots.size ≤ UInt32.size)
    (h : m.removeState q = .ok m') {e : Edge α} :
    e ∈ m'.transitions ↔ e ∈ m.transitions ∧ e.source ≠ q ∧ e.target ≠ q := by
  obtain ⟨p, x, r⟩ := e
  rw [mem_transitions_iff ((size_removeState h).trans_le fits), mem_transitions_iff fits,
    mem_destinations_removeState h]

/-- The paths after a removal are the paths that do not visit the removed state. -/
theorem path_removeState_iff (fits : m.slots.size ≤ UInt32.size) (h : m.removeState q = .ok m')
    (hp : p ≠ q) : m'.Path p xs r ↔ ∃ visited, m.Visits p xs r visited ∧ q ∉ visited := by
  constructor
  · intro hpath
    induction hpath with
    | nil p => exact ⟨[p], .nil p, by simpa using hp.symm⟩
    | cons edge _ ih =>
      obtain ⟨edge, -, htarget⟩ := (mem_transitions_removeState fits h).1 edge
      obtain ⟨visited, hvisits, hq⟩ := ih htarget
      exact ⟨_, .cons edge hvisits, by simp [hq, hp.symm]⟩
  · intro hvisits
    obtain ⟨visited, hvisits, hq⟩ := hvisits
    induction hvisits with
    | nil p => exact .nil p
    | cons edge rest ih =>
      rw [List.mem_cons, not_or] at hq
      have htarget := ne_of_mem_of_not_mem rest.start_mem hq.2
      exact .cons ((mem_transitions_removeState fits h).2 ⟨edge, hp, htarget⟩) (ih htarget hq.2)

omit [DecidableEq α] in
/-- Two states can be removed in either order, and the same automaton is left. -/
theorem removeState_comm (hp : m.contains p = true) (hq : m.contains q = true) (hne : p ≠ q) :
    ∃ m', (m.removeState q >>= fun m₁ => m₁.removeState p) = .ok m' ∧
      (m.removeState p >>= fun m₁ => m₁.removeState q) = .ok m' := by
  obtain ⟨m₁, h₁⟩ := exists_removeState hq
  obtain ⟨m₂, h₂⟩ := exists_removeState hp
  obtain ⟨m₁₂, h₁₂⟩ := exists_removeState ((contains_removeState h₁).2 ⟨hne, hp⟩)
  obtain ⟨m₂₁, h₂₁⟩ := exists_removeState ((contains_removeState h₂).2 ⟨hne.symm, hq⟩)
  have hsame : m₂₁ = m₁₂ := by
    obtain ⟨-, rfl⟩ := removeState_eq_ok_iff.1 h₁
    obtain ⟨-, rfl⟩ := removeState_eq_ok_iff.1 h₂
    obtain ⟨-, rfl⟩ := removeState_eq_ok_iff.1 h₁₂
    obtain ⟨-, rfl⟩ := removeState_eq_ok_iff.1 h₂₁
    have hslots := setIfInBounds_map_comm
      (f := fun s : State α => { s with transitions := s.transitions.forget p })
      (g := fun s : State α => { s with transitions := s.transitions.forget q })
      (fun s => by simp only [Transitions.forget_comm s.transitions p q]) m.slots p.toNat q.toNat
    have hinitial : (if (if m.initial = some p then none else m.initial) = some q then none
        else if m.initial = some p then none else m.initial) =
        if (if m.initial = some q then none else m.initial) = some p then none
        else if m.initial = some q then none else m.initial := by
      by_cases hip : m.initial = some p
      · simp [hip]
      · by_cases hiq : m.initial = some q
        · simp [hiq]
        · simp [hip, hiq]
    simp only [hslots, hinitial, StateSet.erase_comm m.finals p q]
  refine ⟨m₁₂, bind_eq_ok_iff.2 ⟨m₁, h₁, h₁₂⟩, bind_eq_ok_iff.2 ⟨m₂, h₂, hsame ▸ h₂₁⟩⟩

/-- What is accepted after a removal was accepted along a path that does not visit the state. -/
theorem accepts_removeState_iff (hm : m.WellFormed) (h : m.removeState q = .ok m')
    (hq : m.initial ≠ some q) {w : List α} :
    m'.accepts w = .ok true ↔ m.AcceptsAvoiding q w := by
  have hinitial : m'.initial = m.initial := (initial_removeState h).trans (if_neg hq)
  cases hi : m.initial with
  | none =>
    rw [accepts, run, findInitial, hinitial, hi]
    constructor
    · intro hw
      cases hw
    · intro hw
      obtain ⟨i, f, xs, visited, hsome, -⟩ := hw
      cases hi.symm.trans hsome
  | some i =>
    have hiq : i ≠ q := fun heq => hq (hi.trans (congrArg some heq))
    change w ∈ m'.language ↔ _
    rw [mem_language_iff (wellFormed_removeState hm h) (hinitial.trans hi), finals_removeState h]
    constructor
    · intro hw
      obtain ⟨f, hf, xs, hpath, hword⟩ := hw
      obtain ⟨visited, hvisits, hvisited⟩ := (path_removeState_iff hm.fits h hiq).1 hpath
      exact ⟨i, f, xs, visited, hi, (StateSet.mem_erase.1 hf).1, hvisits, hword, hvisited⟩
    · intro hw
      obtain ⟨j, f, xs, visited, hj, hf, hvisits, hword, hvisited⟩ := hw
      obtain rfl := Option.some.inj (hi.symm.trans hj)
      have hfq := ne_of_mem_of_not_mem hvisits.end_mem hvisited
      exact ⟨f, StateSet.mem_erase.2 ⟨hf, hfq⟩, xs,
        (path_removeState_iff hm.fits h hiq).2 ⟨visited, hvisits, hvisited⟩, hword⟩

/-- The second automaton is what the removal of the state leaves of the first. -/
structure Removal (m : Automaton α) (q : StateId) (m' : Automaton α) : Prop where
  alphabet : m'.alphabet = m.alphabet
  states : m'.states = m.states.filter (·.1 ≠ q)
  transitions : ∀ e, e ∈ m'.transitions ↔ e ∈ m.transitions ∧ e.source ≠ q ∧ e.target ≠ q
  finals : ∀ p, p ∈ m'.finals ↔ p ∈ m.finals ∧ p ≠ q
  initial : m'.initial = if m.initial = some q then none else m.initial
  accepts_iff : m.initial ≠ some q → ∀ w, m'.accepts w = .ok true ↔ m.AcceptsAvoiding q w
  answers : ∀ {i}, m.initial = some i → i ≠ q → ∀ w, (∀ a ∈ w, a ∈ m.alphabet) →
    ∃ b, m'.accepts w = .ok b
  no_initial : m.initial = some q → ∀ w, m'.accepts w = .error .noInitialState
  any_order : ∀ {p}, m.contains p = true → p ≠ q → ∃ m'', m'.removeState p = .ok m'' ∧
    (m.removeState p >>= fun m₁ => m₁.removeState q) = .ok m''

/-- A state can be removed, and the removal takes away the state, its marks and the edges at it. The
words that are still accepted are those with an accepting path elsewhere. -/
theorem removal_exact (hm : m.Reachable) (hq : m.contains q = true) :
    ∃ m', m.removeState q = .ok m' ∧ m.Removal q m' := by
  have hwf := hm.wellFormed
  obtain ⟨m', h⟩ := exists_removeState hq
  refine ⟨m', h, alphabet_removeState h, states_removeState hwf.fits h,
    fun e => mem_transitions_removeState hwf.fits h, fun p => ?_, initial_removeState h,
    fun hne w => accepts_removeState_iff hwf h hne, ?_, ?_, ?_⟩
  · rw [finals_removeState h]
    exact StateSet.mem_erase
  · intro i hi hiq w hw
    have hinitial : m'.initial = some i := by
      rw [initial_removeState h, hi, if_neg (mt Option.some.inj hiq)]
    exact ⟨_, accepts_eq_ok hinitial (alphabet_removeState h ▸ hw)⟩
  · intro hi w
    rw [accepts, run, findInitial, initial_removeState h, if_pos hi]
    rfl
  · intro p hp hne
    obtain ⟨m'', hfirst, hsecond⟩ := removeState_comm hp hq hne
    rw [h] at hfirst
    exact ⟨m'', hfirst, hsecond⟩

theorem removal_exact_in_a_cycle : epsilonCycle.Reachable ∧ epsilonCycle.contains 2 = true ∧
    ∃ m', epsilonCycle.removeState 2 = .ok m' ∧ epsilonCycle.Removal 2 m' := by
  have hlive : epsilonCycle.contains 2 = true := by decide +kernel
  exact ⟨reachable_epsilonCycle, hlive, removal_exact reachable_epsilonCycle hlive⟩

end Automaton
end FiniteAutomata
