import FiniteAutomata.Proofs.Queries
import FiniteAutomata.Proofs.Reachable
import FiniteAutomata.Session.Change

/-! A removed state leaves its slot behind. A number whose slot is empty is `Spent`, and no edit
fills that slot again. -/
namespace FiniteAutomata

namespace Automaton
variable {α : Type} {m m' : Automaton α} {p q r : StateId}

section Given
variable [DecidableEq α] {op : Operation α} {ops : List (Operation α)}

/-- The numbers that a history answers with when it adds states, in order. -/
def idsGiven (m : Automaton α) : List (Operation α) → List StateId
  | [] => []
  | op :: ops =>
    match op.addsState, Session.answerTo m op with
    | true, .state (some q) => q :: (m.after op).idsGiven ops
    | _, _ => (m.after op).idsGiven ops

theorem idsGiven_cons : m.idsGiven (op :: ops) =
    if op.addsState then m.nextId :: (m.after op).idsGiven ops else (m.after op).idsGiven ops := by
  cases op <;> rfl

/-- The numbers count on from the states that were added before. -/
theorem idsGiven_eq (m : Automaton α) (ops : List (Operation α)) : m.idsGiven ops =
    (List.range' m.slots.size (ops.countP Operation.addsState)).map UInt32.ofNat := by
  induction ops generalizing m with
  | nil => rfl
  | cons op ops ih =>
    have hsize := (after_keeps m op).2
    rw [idsGiven_cons, ih, List.countP_cons, hsize]
    cases op.addsState with
    | true => simp [List.range'_succ, nextId]
    | false => simp

end Given

/-- The number was given out, and the state that had it is gone. -/
def Spent (m : Automaton α) (q : StateId) : Prop :=
  q.toNat < m.slots.size ∧ m.contains q = false

theorem toNat_lt_size (h : m.contains q = true) : q.toNat < m.slots.size := by
  obtain ⟨s, hs⟩ := contains_iff.1 h
  rw [state?, Option.join_eq_some_iff] at hs
  exact (Array.getElem?_eq_some_iff.1 hs).1

theorem spent_removeState (h : m.removeState q = .ok m') : m'.Spent q := by
  have hlt := toNat_lt_size (removeState_eq_ok_iff.1 h).1
  constructor
  · rw [(removeState_eq_ok_iff.1 h).2]
    simpa using hlt
  · rw [Bool.eq_false_iff, ne_eq, contains_removeState h]
    simp

variable [DecidableEq α] {op : Operation α} {x : Label α}

/-- A state that is there after an edit was there before, or it is the new one. -/
theorem contains_of_perform (h : m.perform op = .ok m') (fits : m'.slots.size ≤ UInt32.size)
    (hq : m'.contains q = true) : m.contains q = true ∨ op.addsState = true ∧ q = m.nextId := by
  cases op with
  | addState i f name =>
    obtain rfl := Except.ok.inj h
    rw [size_addState] at fits
    exact ((contains_addState fits i f name).1 hq).symm.imp_right fun hnew => ⟨rfl, hnew⟩
  | removeState p => exact .inl ((contains_removeState h).1 hq).2
  | setInitial p =>
    obtain ⟨-, rfl⟩ := setInitial_eq_ok_iff.1 h
    exact .inl hq
  | markFinal p =>
    obtain ⟨-, rfl⟩ := markFinal_eq_ok_iff.1 h
    exact .inl hq
  | unmarkFinal p =>
    obtain ⟨-, rfl⟩ := unmarkFinal_eq_ok_iff.1 h
    exact .inl hq
  | addTransition p x r | addEpsilon p r =>
    obtain ⟨-, -, -, rfl⟩ := addTransition_eq_ok_iff.1 h
    exact .inl ((contains_modifyTransitions _).symm.trans hq)
  | addTransitionSet p x rs =>
    obtain ⟨-, -, -, rfl⟩ := addTransitionSet_eq_ok_iff.1 h
    exact .inl ((contains_modifyTransitions _).symm.trans hq)
  | addMultiple p es =>
    obtain ⟨-, -, rfl⟩ := addMultiple_eq_ok_iff.1 h
    exact .inl ((contains_modifyTransitions _).symm.trans hq)

theorem Spent.perform (hq : m.Spent q) (h : m.perform op = .ok m')
    (fits : m'.slots.size ≤ UInt32.size) : m'.Spent q := by
  have hsize := (perform_keeps h).2
  constructor
  · have := hq.1
    omega
  · rw [Bool.eq_false_iff]
    intro hlive
    rcases contains_of_perform h fits hlive with hold | ⟨hadds, rfl⟩
    · rw [hq.2] at hold
      cases hold
    · -- the new number is that of the next slot, which was not there yet
      rw [hadds, if_pos rfl] at hsize
      have hnext := toNat_nextId (m := m) (by omega)
      have := hq.1
      omega

theorem after_eq (h : m.perform op = .ok m') : m.after op = m' := by
  rw [after, h]

theorem Spent.afterAll (hq : m.Spent q) (ops : List (Operation α))
    (fits : (m.afterAll ops).slots.size ≤ UInt32.size) : (m.afterAll ops).Spent q := by
  induction ops generalizing m with
  | nil => exact hq
  | cons op ops ih =>
    have hsize := size_afterAll (m.after op) ops
    change ((m.after op).afterAll ops).slots.size ≤ _ at fits
    refine ih ?_ fits
    cases h : m.perform op with
    | ok m' =>
      rw [after_eq h] at hsize fits ⊢
      exact hq.perform h (by omega)
    | error f =>
      rw [after, h]
      exact hq

/-- No number comes a second time. -/
theorem not_mem_idsGiven {ops : List (Operation α)} (hq : q.toNat < m.slots.size)
    (fits : m.slots.size + ops.countP Operation.addsState ≤ UInt32.size) :
    q ∉ m.idsGiven ops := by
  rw [idsGiven_eq, List.mem_map]
  intro h
  obtain ⟨k, hk, rfl⟩ := h
  rw [List.mem_range'_1] at hk
  rw [UInt32.toNat_ofNat_of_lt' (by omega)] at hq
  omega

/-- Of the states that are named, this one is missing and the others are there. -/
structure OnlyMissing (m : Automaton α) (q : StateId) (named : List StateId) : Prop where
  missing : m.contains q = false
  is_named : q ∈ named
  others : ∀ r ∈ named, r ≠ q → m.contains r = true

namespace OnlyMissing
variable {named rs : List StateId} {es : List (Label α × StateId)}

omit [DecidableEq α] in
theorem findState_bind {β : Type} {c : Except (Fault α) β} (h : m.OnlyMissing q named)
    (hr : r ∈ named) : (m.findState r >>= fun _ => c) =
      if r = q then .error (.unknownState q) else c := by
  split_ifs with heq
  · rw [heq]
    exact findState_bind_of_not_contains (by simp [h.missing])
  · obtain ⟨s, hs⟩ := contains_iff.1 (h.others r hr heq)
    exact findState_bind_eq hs

theorem addTransition (h : m.OnlyMissing q [p, r]) (hx : m.checkLabel x = .ok ()) :
    m.addTransition p x r = .error (.unknownState q) := by
  have hnamed := h.is_named
  rw [Automaton.addTransition, hx]
  change (m.findState r >>= fun _ => m.findState p >>= fun _ => _) = _
  rw [h.findState_bind (by simp), h.findState_bind (by simp)]
  split_ifs with hr hp
  · rfl
  · rfl
  · simp [Ne.symm hr, Ne.symm hp] at hnamed

omit [DecidableEq α] in
/-- The targets are looked for before the source. -/
theorem check_targets {β γ : Type} {c : Except (Fault α) γ} (target : β → StateId) {l : List β}
    {check : β → Except (Fault α) Unit} (h : m.OnlyMissing q (p :: l.map target))
    (hcheck : ∀ b ∈ l, check b = m.findState (target b) >>= fun _ => pure ()) :
    (forM l check >>= fun _ => m.findState p >>= fun _ => c) = .error (.unknownState q) := by
  have hnamed := h.is_named
  have hone : ∀ b ∈ l, check b =
      if target b = q then .error (.unknownState q) else .ok () := by
    intro b hb
    rw [hcheck b hb]
    exact h.findState_bind (List.mem_cons_of_mem p (List.mem_map_of_mem hb))
  rw [forM_eq_ite hone, h.findState_bind List.mem_cons_self]
  by_cases hl : ∃ b ∈ l, target b = q
  · rw [if_pos hl]
    rfl
  · rw [if_neg hl]
    have hp : p = q := by
      rw [List.mem_cons, List.mem_map] at hnamed
      exact (hnamed.resolve_right hl).symm
    exact if_pos hp

theorem addTransitionSet (h : m.OnlyMissing q (p :: rs)) (hx : m.checkLabel x = .ok ()) :
    m.addTransitionSet p x rs = .error (.unknownState q) := by
  rw [Automaton.addTransitionSet, hx]
  exact check_targets id (by simpa using h) fun _ _ => rfl

theorem addMultiple (h : m.OnlyMissing q (p :: es.map Prod.snd))
    (hes : ∀ e ∈ es, m.checkLabel e.1 = .ok ()) :
    m.addMultiple p es = .error (.unknownState q) := by
  refine check_targets Prod.snd h fun e he => ?_
  rw [hes e he]
  rfl

end OnlyMissing

/-- No state, mark or edge has the number, and whatever names it is refused. -/
structure Retired (m : Automaton α) (q : StateId) : Prop where
  not_live : m.contains q = false
  not_initial : m.initial ≠ some q
  not_final : q ∉ m.finals
  no_edge : ∀ e ∈ m.transitions, e.source ≠ q ∧ e.target ≠ q
  setInitial : m.setInitial q = .error (.unknownState q)
  markFinal : m.markFinal q = .error (.unknownState q)
  unmarkFinal : m.unmarkFinal q = .error (.missingFinalState q)
  removeState : m.removeState q = .error (.unknownState q)
  transitionsFrom : m.transitionsFrom q = .error (.unknownState q)
  addTransition : ∀ {p x r}, m.OnlyMissing q [p, r] → x ∈ m.alphabet.labels →
    m.addTransition p x r = .error (.unknownState q)
  addTransitionSet : ∀ {p x rs}, m.OnlyMissing q (p :: rs) → x ∈ m.alphabet.labels →
    m.addTransitionSet p x rs = .error (.unknownState q)
  addMultiple : ∀ {p es}, m.OnlyMissing q (p :: es.map Prod.snd) →
    (∀ e ∈ es, e.1 ∈ m.alphabet.labels) → m.addMultiple p es = .error (.unknownState q)

theorem WellFormed.retired (hm : m.WellFormed) (hq : m.contains q = false) : m.Retired q := by
  have hmissing : ¬m.contains q = true := by simp [hq]
  have hfinal : q ∉ m.finals := fun hf => hmissing (hm.final_live hf)
  refine ⟨hq, ?_, hfinal, ?_, ?_, ?_, ?_, ?_, ?_, ?_, ?_, ?_⟩
  · intro hi
    exact hmissing (hm.initial_live hi)
  · intro e he
    obtain ⟨hp, hr⟩ := hm.ends_live he
    constructor
    · rintro rfl
      exact hmissing hp
    · rintro rfl
      exact hmissing hr
  · exact findState_bind_of_not_contains hmissing
  · exact findState_bind_of_not_contains hmissing
  · exact if_neg hfinal
  · exact findState_bind_of_not_contains hmissing
  · exact findState_bind_of_not_contains hmissing
  · intro p x r h hx
    exact h.addTransition (mem_labels_iff_checkLabel.1 hx)
  · intro p x rs h hx
    exact h.addTransitionSet (mem_labels_iff_checkLabel.1 hx)
  · intro p es h hes
    exact h.addMultiple fun e he => mem_labels_iff_checkLabel.1 (hes e he)

theorem afterAll_append (m : Automaton α) (ops ops' : List (Operation α)) :
    m.afterAll (ops ++ ops') = (m.afterAll ops).afterAll ops' :=
  List.foldl_append

/-- A history numbers its new states in order, from zero on. Once it has removed a state, the number
of that state is out of use at every later point: it is retired, and it is not given out again. -/
theorem state_numbers_given_once (alphabet : Alphabet α) (ops : List (Operation α))
    (numbers : ops.countP Operation.addsState ≤ UInt32.size) :
    (empty alphabet).idsGiven ops =
        (List.range (ops.countP Operation.addsState)).map UInt32.ofNat ∧
      ∀ {before mid rest q m}, ops = before ++ .removeState q :: (mid ++ rest) →
        ((empty alphabet).afterAll before).removeState q = .ok m →
        (m.afterAll mid).Retired q ∧ q ∉ (m.afterAll mid).idsGiven rest := by
  constructor
  · rw [idsGiven_eq, List.range_eq_range']
    rfl
  · intro before mid rest q m hops hm
    subst hops
    have made : ((empty alphabet).afterAll before).perform (.removeState q) = .ok m := hm
    have hafter : m = (empty alphabet).afterAll (before ++ [.removeState q]) := by
      rw [afterAll_append]
      exact (after_eq made).symm
    have hsize : m.slots.size = before.countP Operation.addsState := by
      rw [hafter, size_afterAll]
      simp [empty, Operation.addsState]
    have hmid := size_afterAll m mid
    simp only [List.countP_append, List.countP_cons, Operation.addsState] at numbers
    have hreach : m.Reachable := by
      rw [hafter]
      refine (Reachable.empty alphabet).afterAll _ ?_
      rw [← hafter]
      omega
    have hspent := (spent_removeState hm).afterAll mid (by omega)
    have hwf := (hreach.afterAll mid (by omega)).wellFormed
    exact ⟨hwf.retired hspent.2, not_mem_idsGiven hspent.1 (by omega)⟩

/-- Two states and an edge between them. -/
def linkedPair : List (Operation Bool) :=
  [.addState true false none, .addState false true none, .addEpsilon 0 1]

/-- The second of them is removed, asked for in vain, and followed by another new state. -/
def refilledHistory : List (Operation Bool) :=
  linkedPair ++ .removeState 1 :: ([.setInitial 1] ++ [.addState false false none, .addEpsilon 1 0])

theorem state_numbers_given_once_when_refilled :
    refilledHistory.countP Operation.addsState ≤ UInt32.size ∧
      (empty epsilonCycle.alphabet).idsGiven refilledHistory =
        (List.range (refilledHistory.countP Operation.addsState)).map UInt32.ofNat ∧
      ∃ m, ((empty epsilonCycle.alphabet).afterAll linkedPair).removeState 1 = .ok m ∧
        (m.afterAll [.setInitial 1]).Retired 1 ∧
        1 ∉ (m.afterAll [.setInitial 1]).idsGiven
          [.addState false false none, .addEpsilon 1 0] := by
  have numbers : refilledHistory.countP Operation.addsState ≤ UInt32.size := by decide +kernel
  have hlive : ((empty epsilonCycle.alphabet).afterAll linkedPair).contains 1 = true := by
    decide +kernel
  obtain ⟨hgiven, hretired⟩ :=
    state_numbers_given_once epsilonCycle.alphabet refilledHistory numbers
  have hm := removeState_eq_ok_iff.2 ⟨hlive, rfl⟩
  exact ⟨numbers, hgiven, _, hm, hretired rfl hm⟩

end Automaton
end FiniteAutomata
