import FiniteAutomata.Proofs.Renaming.Basic

namespace FiniteAutomata
variable {α β : Type}

/-- The edit with its labels renamed. Numbers and names stay. -/
def Operation.map (f : α → β) : Operation α → Operation β
  | addState i g name => addState i g name
  | removeState q => removeState q
  | setInitial q => setInitial q
  | markFinal q => markFinal q
  | unmarkFinal q => unmarkFinal q
  | addTransition p x q => addTransition p (x.map f) q
  | addEpsilon p q => addEpsilon p q
  | addTransitionSet p x qs => addTransitionSet p (x.map f) qs
  | addMultiple p es => addMultiple p (es.map fun e => (e.1.map f, e.2))

theorem Transitions.foldl_insert_map [DecidableEq α] [DecidableEq β] (f : α ↪ β)
    (es : List (Label α × StateId)) (t : Transitions α) :
    (es.map fun e => (e.1.map f, e.2)).foldl (fun t e => t.insert e.1 e.2) (t.map f) =
      (es.foldl (fun t e => t.insert e.1 e.2) t).map f := by
  induction es generalizing t with
  | nil => rfl
  | cons e es ih => simp [insert_map, ih]

namespace Automaton
variable (f : α ↪ β) (m : Automaton α) {p q : StateId}

theorem addState_map (i g : Bool) (name : Option String) :
    (m.map f).addState i g name = (m.addState i g name).map f := by
  simp [addState, map, State.map, nextId]

theorem removeState_map :
    (m.map f).removeState q = mapResult f (map f) (m.removeState q) := by
  have hslots : ((m.slots.map (Option.map (State.map f))).setIfInBounds q.toNat none).map
      (·.map fun s => { s with transitions := s.transitions.forget q }) =
      ((m.slots.setIfInBounds q.toNat none).map
        (·.map fun s => { s with transitions := s.transitions.forget q })).map
          (Option.map (State.map f)) := by
    rw [← Option.map_none (State.map f), ← Array.map_setIfInBounds, Array.map_map, Array.map_map]
    congr 1
    funext s
    cases s with
    | none => rfl
    | some s => simp [State.map, Transitions.forget_map]
  rw [removeState, findState_map]
  refine mapResult_bind fun _ => ?_
  simp only [map, hslots]
  rfl

theorem setInitial_map : (m.map f).setInitial q = mapResult f (map f) (m.setInitial q) := by
  rw [setInitial, findState_map]
  exact mapResult_bind fun _ => rfl

theorem markFinal_map : (m.map f).markFinal q = mapResult f (map f) (m.markFinal q) := by
  rw [markFinal, findState_map]
  exact mapResult_bind fun _ => rfl

theorem unmarkFinal_map : (m.map f).unmarkFinal q = mapResult f (map f) (m.unmarkFinal q) := by
  unfold unmarkFinal
  by_cases hq : q ∈ m.finals
  · simp [hq, map]
  · simp [hq, Fault.map]

theorem modifyTransitions_map {g : Transitions α → Transitions α}
    {g' : Transitions β → Transitions β} (hg : ∀ t, g' (t.map f) = (g t).map f) :
    (m.map f).modifyTransitions p g' = (m.modifyTransitions p g).map f := by
  have hslots : (m.slots.map (Option.map (State.map f))).modify p.toNat
      (·.map fun s => { s with transitions := g' s.transitions }) =
      (m.slots.modify p.toNat (·.map fun s => { s with transitions := g s.transitions })).map
        (Option.map (State.map f)) := by
    refine Array.ext_getElem? fun k => ?_
    simp only [Array.getElem?_modify, Array.getElem?_map]
    split_ifs
    · simp [State.map, hg, Function.comp_def]
    · rfl
  simp only [modifyTransitions, map, hslots]

variable [DecidableEq α] [DecidableEq β] {x : Label α}

theorem addTransition_map :
    (m.map f).addTransition p (x.map f) q = mapResult f (map f) (m.addTransition p x q) := by
  rw [addTransition, checkLabel_map, findState_map, findState_map]
  refine mapResult_bind fun _ => mapResult_bind fun _ => mapResult_bind fun _ => ?_
  exact congrArg Except.ok (modifyTransitions_map f m fun t => t.insert_map f)

theorem addTransitionSet_map (qs : List StateId) : (m.map f).addTransitionSet p (x.map f) qs =
    mapResult f (map f) (m.addTransitionSet p x qs) := by
  have htarget : ∀ q, (do let _ ← (m.map f).findState q) =
      mapResult f id (do let _ ← m.findState q) := by
    intro q
    rw [findState_map]
    exact mapResult_bind fun _ => rfl
  have hinsert : ∀ t : Transitions α, qs.foldl (·.insert (x.map f) ·) (t.map f) =
      (qs.foldl (·.insert x ·) t).map f := by
    intro t
    simpa [List.foldl_map] using t.foldl_insert_map f (qs.map (x, ·))
  rw [addTransitionSet, checkLabel_map, List.forM_eq_forM, mapResult_forM htarget, findState_map]
  refine mapResult_bind fun _ => mapResult_bind fun _ => mapResult_bind fun _ => ?_
  exact congrArg Except.ok (modifyTransitions_map f m hinsert)

theorem addMultiple_map (es : List (Label α × StateId)) :
    (m.map f).addMultiple p (es.map fun e => (e.1.map f, e.2)) =
      mapResult f (map f) (m.addMultiple p es) := by
  have hedge : ∀ e : Label α × StateId, (do
      (m.map f).checkLabel (e.1.map f)
      let _ ← (m.map f).findState e.2) = mapResult f id (do
        m.checkLabel e.1
        let _ ← m.findState e.2) := by
    intro e
    rw [checkLabel_map, findState_map]
    exact mapResult_bind fun _ => mapResult_bind fun _ => rfl
  rw [addMultiple, List.forM_eq_forM, List.forM_map, mapResult_forM hedge, findState_map]
  refine mapResult_bind fun _ => mapResult_bind fun _ => ?_
  exact congrArg Except.ok (modifyTransitions_map f m (Transitions.foldl_insert_map f es))

theorem perform_map (op : Operation α) :
    (m.map f).perform (op.map f) = mapResult f (map f) (m.perform op) := by
  cases op with
  | addState i g name => exact congrArg Except.ok (addState_map f m i g name)
  | removeState q => exact removeState_map f m
  | setInitial q => exact setInitial_map f m
  | markFinal q => exact markFinal_map f m
  | unmarkFinal q => exact unmarkFinal_map f m
  | addTransition p x q => exact addTransition_map f m
  | addEpsilon p q => exact addTransition_map f m (x := Label.epsilon)
  | addTransitionSet p x qs => exact addTransitionSet_map f m qs
  | addMultiple p es => exact addMultiple_map f m es

end Automaton
end FiniteAutomata
