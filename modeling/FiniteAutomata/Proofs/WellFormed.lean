import FiniteAutomata.Automaton.Lemmas
import FiniteAutomata.Automaton.Operation
import FiniteAutomata.Proofs.General
import Mathlib.Tactic.Common

namespace FiniteAutomata

namespace Transitions
variable {α : Type} [DecidableEq α] {t : Transitions α} {x : Label α} {q : StateId}

theorem mem_destinations_foldl_insert {es : List (Label α × StateId)} :
    q ∈ (es.foldl (fun t e => t.insert e.1 e.2) t).destinations x ↔
      q ∈ t.destinations x ∨ (x, q) ∈ es := by
  induction es generalizing t with
  | nil => simp
  | cons e es ih =>
    have he : q ∈ (t.insert e.1 e.2).destinations x ↔ q ∈ t.destinations x ∨ (x, q) = e := by
      rw [destinations_insert, Prod.ext_iff]
      split_ifs with hx
      · subst hx
        simp [or_comm]
      · simp [hx]
    rw [List.foldl_cons, ih, he, List.mem_cons, or_assoc]

theorem pruned_foldl_insert (h : t.Pruned) (es : List (Label α × StateId)) :
    (es.foldl (fun t e => t.insert e.1 e.2) t).Pruned := by
  induction es generalizing t with
  | nil => exact h
  | cons e es ih => exact ih (pruned_insert h e.1 e.2)

end Transitions

namespace Automaton
variable {α : Type} {m m' : Automaton α} {p q : StateId}

theorem mem_liveStates_iff (h : m.slots.size ≤ UInt32.size) {s : State α} :
    (q, s) ∈ m.liveStates ↔ m.state? q = some s := by
  refine ⟨fun hq => ?_, mem_liveStates⟩
  obtain ⟨⟨slot, k⟩, hk, he⟩ := List.mem_filterMap.1 hq
  have hslot : m.slots[k]? = some slot := by
    simpa [List.mem_zipIdx_iff_getElem?] using hk
  have hlt : k < m.slots.size := (Array.getElem?_eq_some_iff.1 hslot).1
  obtain ⟨t, rfl, ht⟩ := Option.map_eq_some_iff.1 he
  obtain ⟨rfl, rfl⟩ := Prod.mk.inj ht
  have hnat : (UInt32.ofNat k).toNat = k := UInt32.toNat_ofNat_of_lt' (by omega)
  rw [state?, hnat, hslot]
  rfl

theorem mem_stateIds_iff (h : m.slots.size ≤ UInt32.size) :
    q ∈ m.stateIds ↔ m.contains q = true := by
  simp [stateIds, mem_liveStates_iff h, contains_iff]

theorem stateIds_ascending (h : m.slots.size ≤ UInt32.size) : m.stateIds.Pairwise (· < ·) := by
  have hlt : m.slots.toList.zipIdx.Pairwise fun s t => s.2 < t.2 := by
    rw [← List.pairwise_map (f := Prod.snd), List.zipIdx_map_snd]
    exact List.pairwise_lt_range'
  have hbound : m.slots.toList.zipIdx.Pairwise fun s t => s.2 < t.2 ∧ t.2 < UInt32.size := by
    refine hlt.imp_of_mem fun {s t} _ ht hst => ⟨hst, ?_⟩
    have hsize := List.snd_lt_of_mem_zipIdx ht
    rw [Array.length_toList] at hsize
    omega
  rw [stateIds, List.pairwise_map, liveStates]
  refine hbound.filterMap _ fun s t hst b hb c hc => ?_
  obtain ⟨_, -, rfl⟩ := Option.map_eq_some_iff.1 hb
  obtain ⟨_, -, rfl⟩ := Option.map_eq_some_iff.1 hc
  rw [UInt32.lt_iff_toNat_lt, UInt32.toNat_ofNat_of_lt' (by omega),
    UInt32.toNat_ofNat_of_lt' hst.2]
  exact hst.1

theorem stateIds_nodup (h : m.slots.size ≤ UInt32.size) : m.stateIds.Nodup :=
  (stateIds_ascending h).imp UInt32.ne_of_lt

/-- The listing is the only ascending one of the states that are there. -/
theorem stateIds_eq (h : m.slots.size ≤ UInt32.size) {ids : List StateId}
    (hascending : ids.Pairwise (· < ·)) (hids : ∀ q, q ∈ ids ↔ m.contains q = true) :
    m.stateIds = ids := by
  have hsets : (⟨m.stateIds, stateIds_ascending h⟩ : StateSet) = ⟨ids, hascending⟩ := by
    ext q
    change q ∈ m.stateIds ↔ q ∈ ids
    rw [mem_stateIds_iff h, hids]
  exact congrArg StateSet.toList hsets

theorem length_stateIds (m : Automaton α) : m.stateIds.length = m.stateCount := by
  rw [stateIds, List.length_map, stateCount]

theorem mem_states_iff (h : m.slots.size ≤ UInt32.size) {name : String} :
    (q, name) ∈ m.states ↔ m.name? q = some name := by
  simp [states, name?, mem_liveStates_iff h]

theorem states_eq_map (h : m.slots.size ≤ UInt32.size) :
    m.states = m.stateIds.map fun q => (q, (m.name? q).getD "") := by
  rw [states, stateIds, List.map_map]
  refine List.map_congr_left fun s hs => ?_
  have hname : m.name? s.1 = some s.2.name := by rw [name?, (mem_liveStates_iff h).1 hs]; rfl
  rw [Function.comp_apply, hname]
  rfl

theorem findState_bind_eq_ok_iff {β : Type} {c : Except (Fault α) β} {b : β} :
    (m.findState q >>= fun _ => c) = .ok b ↔ m.contains q = true ∧ c = .ok b := by
  rw [bind_eq_ok_iff, exists_and_right, contains_iff_findState]

theorem contains_modifyTransitions (f : Transitions α → Transitions α) :
    (m.modifyTransitions p f).contains q = m.contains q := by
  rw [contains, state?_modifyTransitions, contains]
  split_ifs <;> simp

theorem size_addState (i f : Bool) (name : Option String) :
    (m.addState i f name).slots.size = m.slots.size + 1 := by
  simp [addState]

theorem contains_addState (h : m.slots.size < UInt32.size) (i f : Bool) (name : Option String) :
    (m.addState i f name).contains q = true ↔ q = m.nextId ∨ m.contains q = true := by
  rw [contains, state?_addState h]
  split_ifs with hq
  · simp [hq]
  · simp [hq, contains]

theorem contains_removeState (h : m.removeState q = .ok m') :
    m'.contains p = true ↔ p ≠ q ∧ m.contains p = true := by
  rw [contains, state?_removeState h]
  split_ifs with hp
  · simp [hp]
  · simp [hp, contains]

theorem setInitial_eq_ok_iff :
    m.setInitial q = .ok m' ↔ m.contains q = true ∧ m' = { m with initial := some q } := by
  unfold setInitial contains findState
  cases m.state? q <;> simp [bind, Except.bind, pure, Except.pure, eq_comm]

theorem markFinal_eq_ok_iff :
    m.markFinal q = .ok m' ↔
      m.contains q = true ∧ m' = { m with finals := m.finals.insert q } := by
  unfold markFinal contains findState
  cases m.state? q <;> simp [bind, Except.bind, pure, Except.pure, eq_comm]

theorem unmarkFinal_eq_ok_iff :
    m.unmarkFinal q = .ok m' ↔ q ∈ m.finals ∧ m' = { m with finals := m.finals.erase q } := by
  unfold unmarkFinal
  split_ifs with h <;> simp [h, eq_comm]

variable [DecidableEq α] {x : Label α}

/-- The listed edges are those of the edge relation. -/
theorem mem_transitions_iff (h : m.slots.size ≤ UInt32.size) :
    ⟨p, x, q⟩ ∈ m.transitions ↔ q ∈ m.destinations p x := by
  refine ⟨fun he => ?_, mem_transitions⟩
  obtain ⟨⟨r, s⟩, hs, he⟩ := List.mem_flatMap.1 he
  obtain ⟨⟨y, d⟩, hd, he⟩ := List.mem_flatMap.1 he
  obtain ⟨t, ht, he⟩ := List.mem_map.1 he
  obtain ⟨rfl, rfl, rfl⟩ := Edge.mk.inj he
  exact mem_destinations_iff.2 ⟨s, (mem_liveStates_iff h).1 hs,
    Transitions.mem_destinations_iff.2 ⟨d, hd, ht⟩⟩

theorem contains_of_mem_destinations (h : q ∈ m.destinations p x) : m.contains p = true := by
  obtain ⟨s, hs, -⟩ := mem_destinations_iff.1 h
  exact contains_iff.2 ⟨s, hs⟩

/-- What every history of operations keeps. -/
structure WellFormed (m : Automaton α) : Prop where
  fits : m.slots.size ≤ UInt32.size
  target_live : ∀ {p x q}, q ∈ m.destinations p x → m.contains q = true
  label_valid : ∀ {p a q}, q ∈ m.destinations p (.literal a) → a ∈ m.alphabet
  pruned : ∀ {q s}, m.state? q = some s → s.transitions.Pruned
  initial_live : ∀ {q}, m.initial = some q → m.contains q = true
  final_live : ∀ {q}, q ∈ m.finals → m.contains q = true

/-- Both ends of a listed edge are states. -/
theorem WellFormed.ends_live (hm : m.WellFormed) (he : ⟨p, x, q⟩ ∈ m.transitions) :
    m.contains p = true ∧ m.contains q = true := by
  have hd := (mem_transitions_iff hm.fits).1 he
  exact ⟨contains_of_mem_destinations hd, hm.target_live hd⟩

theorem wellFormed_empty (alphabet : Alphabet α) : WellFormed (empty alphabet) where
  fits := Nat.zero_le _
  target_live h := absurd h (StateSet.not_mem_empty _)
  label_valid h := absurd h (StateSet.not_mem_empty _)
  pruned h := by simp at h
  initial_live h := by simp [empty] at h
  final_live h := absurd h (StateSet.not_mem_empty _)

theorem wellFormed_addState (hm : WellFormed m) (h : m.slots.size < UInt32.size) (i f : Bool)
    (name : Option String) : WellFormed (m.addState i f name) where
  fits := by
    rw [size_addState]
    omega
  target_live hq := by
    rw [destinations_addState h] at hq
    exact (contains_addState h i f name).2 (.inr (hm.target_live hq))
  label_valid hq := by
    rw [destinations_addState h] at hq
    exact hm.label_valid hq
  pruned hs := by
    rw [state?_addState h] at hs
    split_ifs at hs with hq
    · cases hs
      exact Transitions.pruned_empty
    · exact hm.pruned hs
  initial_live hq := by
    rw [contains_addState h]
    cases i with
    | true => exact .inl (Option.some.inj hq).symm
    | false => exact .inr (hm.initial_live hq)
  final_live hq := by
    rw [contains_addState h]
    cases f with
    | true => exact (StateSet.mem_insert.1 hq).imp_right hm.final_live
    | false => exact .inr (hm.final_live hq)

theorem wellFormed_removeState (hm : WellFormed m) (h : m.removeState q = .ok m') :
    WellFormed m' := by
  have he := (removeState_eq_ok_iff.1 h).2
  refine ⟨?_, ?_, ?_, ?_, ?_, ?_⟩
  · rw [he]
    simpa using hm.fits
  · intro p x r hr
    have hr' := (mem_destinations_removeState h).1 hr
    exact (contains_removeState h).2 ⟨hr'.2.2, hm.target_live hr'.1⟩
  · intro p a r hr
    have ha := hm.label_valid ((mem_destinations_removeState h).1 hr).1
    rwa [he]
  · intro p s hs
    rw [state?_removeState h] at hs
    split_ifs at hs
    obtain ⟨t, -, rfl⟩ := Option.map_eq_some_iff.1 hs
    exact Transitions.pruned_forget _ _
  · intro p hp
    rw [he] at hp
    dsimp only at hp
    split_ifs at hp with hq
    have hne : p ≠ q := fun e => hq (e ▸ hp)
    exact (contains_removeState h).2 ⟨hne, hm.initial_live hp⟩
  · intro p hp
    rw [he] at hp
    have hp' := StateSet.mem_erase.1 hp
    exact (contains_removeState h).2 ⟨hp'.2, hm.final_live hp'.1⟩

theorem wellFormed_setInitial (hm : WellFormed m) (h : m.setInitial q = .ok m') :
    WellFormed m' := by
  obtain ⟨hq, rfl⟩ := setInitial_eq_ok_iff.1 h
  exact { hm with initial_live := fun e => Option.some.inj e ▸ hq }

theorem wellFormed_markFinal (hm : WellFormed m) (h : m.markFinal q = .ok m') :
    WellFormed m' := by
  obtain ⟨hq, rfl⟩ := markFinal_eq_ok_iff.1 h
  refine { hm with final_live := fun {p} hp => ?_ }
  rcases StateSet.mem_insert.1 hp with rfl | hp
  · exact hq
  · exact hm.final_live hp

theorem wellFormed_unmarkFinal (hm : WellFormed m) (h : m.unmarkFinal q = .ok m') :
    WellFormed m' := by
  obtain ⟨-, rfl⟩ := unmarkFinal_eq_ok_iff.1 h
  exact { hm with final_live := fun hp => hm.final_live (StateSet.mem_erase.1 hp).1 }

theorem addTransitionSet_eq_ok_iff {qs : List StateId} :
    m.addTransitionSet p x qs = .ok m' ↔
      m.checkLabel x = .ok () ∧ (∀ q ∈ qs, m.contains q = true) ∧ m.contains p = true ∧
        m' = m.modifyTransitions p fun t => qs.foldl (·.insert x ·) t := by
  rw [addTransitionSet, check_bind_eq_ok_iff, List.forM_eq_forM, check_bind_eq_ok_iff,
    findState_bind_eq_ok_iff, forM_eq_ok_iff, pure_eq_ok_iff]
  simp only [findState_bind_eq_ok_iff, pure_eq_ok_iff, and_true]

theorem addMultiple_eq_ok_iff {es : List (Label α × StateId)} :
    m.addMultiple p es = .ok m' ↔
      (∀ e ∈ es, m.checkLabel e.1 = .ok () ∧ m.contains e.2 = true) ∧ m.contains p = true ∧
        m' = m.modifyTransitions p fun t => es.foldl (fun t e => t.insert e.1 e.2) t := by
  rw [addMultiple, List.forM_eq_forM, check_bind_eq_ok_iff, findState_bind_eq_ok_iff,
    forM_eq_ok_iff, pure_eq_ok_iff]
  simp only [check_bind_eq_ok_iff, findState_bind_eq_ok_iff, pure_eq_ok_iff, and_true]

/-- The three ways of adding edges change the edges of one state only, and add what they list. -/
theorem mem_destinations_modifyTransitions {es : List (Label α × StateId)} {r s : StateId}
    (hp : m.contains p = true) :
    r ∈ (m.modifyTransitions p fun t => es.foldl (fun t e => t.insert e.1 e.2) t).destinations s x ↔
      r ∈ m.destinations s x ∨ s = p ∧ (x, r) ∈ es := by
  obtain ⟨t, ht⟩ := contains_iff.1 hp
  by_cases hs : s = p
  · subst hs
    have hst := state?_modifyTransitions (m := m) (p := s) (q := s)
      fun t => es.foldl (fun t e => t.insert e.1 e.2) t
    rw [if_pos rfl, ht] at hst
    rw [destinations_eq hst, destinations_eq ht, Transitions.mem_destinations_foldl_insert]
    simp
  · have hst := state?_modifyTransitions (m := m) (p := p) (q := s)
      fun t => es.foldl (fun t e => t.insert e.1 e.2) t
    rw [if_neg hs] at hst
    simp [destinations, hst, hs]

theorem wellFormed_modifyTransitions (hm : WellFormed m) {es : List (Label α × StateId)}
    (hp : m.contains p = true)
    (hes : ∀ e ∈ es, m.checkLabel e.1 = .ok () ∧ m.contains e.2 = true) :
    WellFormed (m.modifyTransitions p fun t => es.foldl (fun t e => t.insert e.1 e.2) t) where
  fits := by simpa [modifyTransitions] using hm.fits
  target_live hq := by
    rw [contains_modifyTransitions]
    rcases (mem_destinations_modifyTransitions hp).1 hq with hq | ⟨-, hq⟩
    · exact hm.target_live hq
    · exact (hes _ hq).2
  label_valid hq := by
    rcases (mem_destinations_modifyTransitions hp).1 hq with hq | ⟨-, hq⟩
    · exact hm.label_valid hq
    · exact checkLabel_eq_ok_iff.1 (hes _ hq).1 _ rfl
  pruned hs := by
    rw [state?_modifyTransitions] at hs
    split_ifs at hs
    · obtain ⟨t, ht, rfl⟩ := Option.map_eq_some_iff.1 hs
      exact Transitions.pruned_foldl_insert (hm.pruned ht) es
    · exact hm.pruned hs
  initial_live hq := (contains_modifyTransitions _).trans (hm.initial_live hq)
  final_live hq := (contains_modifyTransitions _).trans (hm.final_live hq)

theorem wellFormed_addMultiple (hm : WellFormed m) {es : List (Label α × StateId)}
    (h : m.addMultiple p es = .ok m') : WellFormed m' := by
  obtain ⟨hes, hp, rfl⟩ := addMultiple_eq_ok_iff.1 h
  exact wellFormed_modifyTransitions hm hp hes

theorem wellFormed_addTransitionSet (hm : WellFormed m) {qs : List StateId}
    (h : m.addTransitionSet p x qs = .ok m') : WellFormed m' := by
  obtain ⟨hx, hqs, hp, rfl⟩ := addTransitionSet_eq_ok_iff.1 h
  have hes : ∀ e ∈ qs.map (x, ·), m.checkLabel e.1 = .ok () ∧ m.contains e.2 = true := by
    intro e he
    obtain ⟨q, hq, rfl⟩ := List.mem_map.1 he
    exact ⟨hx, hqs q hq⟩
  simpa only [List.foldl_map] using wellFormed_modifyTransitions hm hp hes

theorem wellFormed_addTransition (hm : WellFormed m) (h : m.addTransition p x q = .ok m') :
    WellFormed m' := by
  obtain ⟨hx, hq, hp, rfl⟩ := addTransition_eq_ok_iff.1 h
  have hes : ∀ e ∈ [(x, q)], m.checkLabel e.1 = .ok () ∧ m.contains e.2 = true := by
    simp [hx, hq]
  exact wellFormed_modifyTransitions hm hp hes

/-- Whatever the edit is, an automaton stays well-formed while there are numbers for its states. -/
theorem wellFormed_perform (hm : WellFormed m) {op : Operation α} (h : m.perform op = .ok m')
    (fits : m'.slots.size ≤ UInt32.size) : WellFormed m' := by
  cases op with
  | addState i f name =>
    obtain rfl := Except.ok.inj h
    rw [size_addState] at fits
    exact wellFormed_addState hm fits i f name
  | removeState q => exact wellFormed_removeState hm h
  | setInitial q => exact wellFormed_setInitial hm h
  | markFinal q => exact wellFormed_markFinal hm h
  | unmarkFinal q => exact wellFormed_unmarkFinal hm h
  | addTransition p x q => exact wellFormed_addTransition hm h
  | addEpsilon p q => exact wellFormed_addTransition hm h
  | addTransitionSet p x qs => exact wellFormed_addTransitionSet hm h
  | addMultiple p es => exact wellFormed_addMultiple hm h

end Automaton
end FiniteAutomata
