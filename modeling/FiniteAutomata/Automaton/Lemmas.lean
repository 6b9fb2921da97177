import FiniteAutomata.Automaton.Edit

namespace FiniteAutomata.Automaton
variable {α : Type} {m m' : Automaton α} {p q r : StateId}

theorem findState_eq_ok_iff {s : State α} : m.findState q = .ok s ↔ m.state? q = some s := by
  unfold findState
  cases m.state? q <;> simp

theorem findState_eq_error_iff {f : Fault α} :
    m.findState q = .error f ↔ m.state? q = none ∧ f = .unknownState q := by
  unfold findState
  cases m.state? q <;> simp [eq_comm]

theorem contains_iff : m.contains q = true ↔ ∃ s, m.state? q = some s := Option.isSome_iff_exists

theorem contains_iff_findState : m.contains q = true ↔ ∃ s, m.findState q = .ok s := by
  simp only [contains_iff, findState_eq_ok_iff]

theorem findInitial_eq_ok (h : m.initial = some q) : m.findInitial = .ok q := by
  rw [findInitial, h]

@[simp] theorem state?_empty (s : Alphabet α) : (empty s).state? q = none := rfl

theorem toNat_nextId (h : m.slots.size < UInt32.size) : m.nextId.toNat = m.slots.size := by
  simpa [nextId] using h

theorem state?_nextId (h : m.slots.size < UInt32.size) : m.state? m.nextId = none := by
  simp [state?, toNat_nextId h]

theorem state?_addState (h : m.slots.size < UInt32.size) (i f : Bool) (name : Option String) :
    (m.addState i f name).state? q =
      if q = m.nextId then some ⟨name.getD (decimalName m.nextId), ∅⟩ else m.state? q := by
  have hq : q = m.nextId ↔ q.toNat = m.slots.size := by
    rw [← toNat_nextId h, UInt32.toNat_inj]
  simp only [state?, addState, Array.getElem?_push, hq]
  split <;> rfl

theorem state?_modifyTransitions (f : Transitions α → Transitions α) :
    (m.modifyTransitions p f).state? q =
      if q = p then (m.state? q).map fun s => { s with transitions := f s.transitions }
      else m.state? q := by
  have hp : p.toNat = q.toNat ↔ q = p := by rw [UInt32.toNat_inj]; exact eq_comm
  simp only [state?, modifyTransitions, Array.getElem?_modify, hp]
  split
  · cases m.slots[q.toNat]? <;> rfl
  · rfl

theorem removeState_eq_ok_iff : m.removeState q = .ok m' ↔ m.contains q = true ∧ m' =
    { m with
      slots := (m.slots.setIfInBounds q.toNat none).map
        (·.map fun s => { s with transitions := s.transitions.forget q })
      initial := if m.initial = some q then none else m.initial
      finals := m.finals.erase q } := by
  rw [contains_iff_findState]
  unfold removeState
  cases m.findState q with
  | ok s => exact ⟨fun h => ⟨⟨s, rfl⟩, (Except.ok.inj h).symm⟩, fun h => congrArg _ h.2.symm⟩
  | error f => exact ⟨fun h => (nomatch h), fun ⟨⟨_, h⟩, _⟩ => nomatch h⟩

theorem state?_removeState (h : m.removeState q = .ok m') :
    m'.state? p = if p = q then none
      else (m.state? p).map fun s => { s with transitions := s.transitions.forget q } := by
  obtain ⟨_, rfl⟩ := removeState_eq_ok_iff.1 h
  have hq : q.toNat = p.toNat ↔ p = q := by rw [UInt32.toNat_inj]; exact eq_comm
  simp only [state?, Array.getElem?_map, Array.getElem?_setIfInBounds, hq]
  split
  · split <;> rfl
  · cases m.slots[p.toNat]? with
    | none => rfl
    | some s => rfl

variable [DecidableEq α] {x y : Label α}

theorem checkLabel_eq_ok_iff :
    m.checkLabel x = .ok () ↔ ∀ a, x = .literal a → a ∈ m.alphabet := by
  cases x with
  | epsilon => exact ⟨fun _ _ h => (nomatch h), fun _ => rfl⟩
  | literal a =>
    simp only [checkLabel, checkSymbol]
    constructor
    · intro h b hb
      cases hb
      split at h
      · assumption
      · exact nomatch h
    · intro h
      rw [if_pos (h a rfl)]

theorem mem_labels_iff_checkLabel : x ∈ m.alphabet.labels ↔ m.checkLabel x = .ok () := by
  rw [Alphabet.mem_labels_iff, checkLabel_eq_ok_iff]

@[simp] theorem destinations_empty (s : Alphabet α) : (empty s).destinations p x = ∅ := rfl

theorem destinations_eq_empty (h : m.state? p = none) : m.destinations p x = ∅ := by
  simp [destinations, h]

theorem destinations_eq {s : State α} (h : m.state? p = some s) :
    m.destinations p x = s.transitions.destinations x := by
  simp [destinations, h]

theorem destinations_addState (h : m.slots.size < UInt32.size) (i f : Bool) (name : Option String) :
    (m.addState i f name).destinations p x = m.destinations p x := by
  by_cases hp : p = m.nextId
  · rw [destinations_eq (x := x) ((state?_addState h i f name).trans (if_pos hp)),
      destinations_eq_empty (hp ▸ state?_nextId h), Transitions.destinations_empty]
  · have hs : (m.addState i f name).state? p = m.state? p :=
      (state?_addState h i f name).trans (if_neg hp)
    simp [destinations, hs]

theorem addTransition_eq_ok_iff : m.addTransition p x q = .ok m' ↔
    m.checkLabel x = .ok () ∧ m.contains q = true ∧ m.contains p = true ∧
      m' = m.modifyTransitions p (·.insert x q) := by
  simp only [contains_iff_findState]
  unfold addTransition
  cases m.checkLabel x with
  | error f => exact ⟨fun h => (nomatch h), fun h => nomatch h.1⟩
  | ok _ =>
    cases m.findState q with
    | error f => exact ⟨fun h => (nomatch h), fun ⟨_, ⟨_, h⟩, _⟩ => nomatch h⟩
    | ok s =>
      cases m.findState p with
      | error f => exact ⟨fun h => (nomatch h), fun ⟨_, _, ⟨_, h⟩, _⟩ => nomatch h⟩
      | ok t =>
        exact ⟨fun h => ⟨rfl, ⟨s, rfl⟩, ⟨t, rfl⟩, (Except.ok.inj h).symm⟩,
          fun h => congrArg _ h.2.2.2.symm⟩

/-- An accepted edge is the only one that is new. -/
theorem mem_destinations_addTransition (h : m.addTransition p x q = .ok m') {s : StateId} :
    r ∈ m'.destinations s y ↔ r ∈ m.destinations s y ∨ s = p ∧ y = x ∧ r = q := by
  obtain ⟨_, _, hp, rfl⟩ := addTransition_eq_ok_iff.1 h
  obtain ⟨t, ht⟩ := contains_iff.1 hp
  by_cases hs : s = p
  · subst hs
    rw [destinations_eq ht, destinations_eq ((state?_modifyTransitions _).trans
      ((if_pos rfl).trans (congrArg _ ht))), Transitions.destinations_insert]
    by_cases hy : y = x
    · simp [hy, or_comm]
    · simp [hy]
  · have hst : (m.modifyTransitions p (·.insert x q)).state? s = m.state? s :=
      (state?_modifyTransitions _).trans (if_neg hs)
    simp [destinations, hst, hs]

/-- The edges that are left after a removal neither start nor end in the removed state. -/
theorem mem_destinations_removeState (h : m.removeState q = .ok m') {s : StateId} :
    r ∈ m'.destinations s y ↔ r ∈ m.destinations s y ∧ s ≠ q ∧ r ≠ q := by
  rw [mem_destinations_iff, mem_destinations_iff, state?_removeState h]
  by_cases hs : s = q
  · simp [hs]
  · simp only [hs, if_false, Option.map_eq_some_iff]
    constructor
    · rintro ⟨_, ⟨t, ht, rfl⟩, hr⟩
      have := Transitions.mem_destinations_forget.1 hr
      exact ⟨⟨t, ht, this.1⟩, hs, this.2⟩
    · rintro ⟨⟨t, ht, hr⟩, _, hrq⟩
      exact ⟨_, ⟨t, ht, rfl⟩, Transitions.mem_destinations_forget.2 ⟨hr, hrq⟩⟩

end FiniteAutomata.Automaton
