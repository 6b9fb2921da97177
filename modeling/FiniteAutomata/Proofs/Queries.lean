import FiniteAutomata.Proofs.Diagram
import Mathlib.Data.List.Basic

namespace FiniteAutomata

namespace Transitions
variable {α : Type} [DecidableEq α] {t : Transitions α} {x : Label α} {d : StateSet}

theorem destinations_of_mem (h : (x, d) ∈ t.entries) : t.destinations x = d := by
  rw [destinations, find?_eq_some_iff.2 h, Option.getD_some]

theorem destinations_of_find?_eq_none (h : t.find? x = none) : t.destinations x = ∅ := by
  rw [destinations, h, Option.getD_none]

/-- What is true of the empty set is true of all entries if and only if it is true of the targets
on every label. -/
theorem forall_entries_iff {P : Label α → StateSet → Prop} (hempty : ∀ x, P x ∅) :
    (∀ e ∈ t.entries, P e.1 e.2) ↔ ∀ x, P x (t.destinations x) := by
  constructor
  · intro h x
    cases hx : t.find? x with
    | none =>
      rw [destinations_of_find?_eq_none hx]
      exact hempty x
    | some d =>
      have hmem := find?_eq_some_iff.1 hx
      rw [destinations_of_mem hmem]
      exact h _ hmem
  · intro h e he
    have hd := h e.1
    rwa [destinations_of_mem he] at hd

/-- A label is listed with its targets if it has one, and not at all otherwise. -/
theorem find?_eq_guard (h : t.Pruned) :
    t.find? x = Option.guard (!·.isEmpty) (t.destinations x) := by
  cases hx : t.find? x with
  | none =>
    rw [destinations_of_find?_eq_none hx]
    rfl
  | some d =>
    have hmem := find?_eq_some_iff.1 hx
    have hne : d.isEmpty = false := Bool.eq_false_iff.2 (mt StateSet.isEmpty_iff.1 (h _ hmem))
    rw [destinations_of_mem hmem, Option.guard, hne]
    rfl

end Transitions

namespace Automaton
variable {α : Type} [DecidableEq α] {m : Automaton α} {p q : StateId} {x : Label α}

omit [DecidableEq α] in
theorem findState_bind_eq {β : Type} {f : State α → Except (Fault α) β} {s : State α}
    (h : m.state? p = some s) : m.findState p >>= f = f s := by
  rw [findState_eq_ok_iff.2 h]
  rfl

omit [DecidableEq α] in
theorem findState_bind_of_not_contains {β : Type} {f : State α → Except (Fault α) β}
    (h : ¬m.contains p = true) : m.findState p >>= f = .error (.unknownState p) := by
  have hnone : m.state? p = none := by simpa [contains] using h
  rw [findState_eq_error_iff.2 ⟨hnone, rfl⟩]
  rfl

theorem delta_eq : m.delta p x = m.checkLabel x >>= fun _ =>
    if m.contains p then .ok (m.destinations p x) else .error (.unknownState p) := by
  rw [delta]
  congr 1
  funext _
  split_ifs with hp
  · obtain ⟨s, hs⟩ := contains_iff.1 hp
    rw [findState_bind_eq hs, destinations_eq hs]
    rfl
  · exact findState_bind_of_not_contains hp

/-- The table that is returned, as a map from labels to sets of targets. -/
theorem transitionsFrom_eq (hm : m.WellFormed) :
    (m.transitionsFrom p).map Transitions.find? =
      if m.contains p then
        .ok fun x => Option.guard (!·.isEmpty) (m.destinations p x)
      else .error (.unknownState p) := by
  rw [transitionsFrom]
  split_ifs with hp
  · obtain ⟨s, hs⟩ := contains_iff.1 hp
    rw [findState_bind_eq hs]
    refine congrArg Except.ok (funext fun x => ?_)
    rw [destinations_eq hs]
    exact Transitions.find?_eq_guard (hm.pruned hs)
  · rw [findState_bind_of_not_contains hp]
    rfl

theorem hasAnyTransition_iff : m.hasAnyTransition p q = true ↔ ∃ x, q ∈ m.destinations p x := by
  rw [hasAnyTransition]
  cases hs : m.state? p with
  | none => simp [destinations_eq_empty hs]
  | some s => simp [destinations_eq hs, Transitions.pointsTo_iff]

theorem transitionsOn_eq (hm : m.WellFormed) : m.transitionsOn x = m.checkLabel x >>= fun _ =>
    .ok (m.stateIds.filterMap fun p =>
      (Option.guard (!·.isEmpty) (m.destinations p x)).map fun d => (p, d)) := by
  rw [transitionsOn, stateIds, List.filterMap_map]
  congr 1
  funext _
  refine congrArg Except.ok (List.filterMap_congr fun s hs => ?_)
  have hstate := (mem_liveStates_iff hm.fits).1 hs
  rw [Transitions.find?_eq_guard (hm.pruned hstate), Function.comp_apply, destinations_eq hstate]

/-- The check looks at the entries of the tables, and each of them has a target. -/
theorem isDeterministic_iff (hm : m.WellFormed) : m.isDeterministic = true ↔
    ∀ p x, (x = .epsilon → m.destinations p x = ∅) ∧ (m.destinations p x).size ≤ 1 := by
  have hstate : ∀ {p s}, m.state? p = some s →
      (s.transitions.entries.all (fun e => !e.1.isEpsilon && e.2.size ≤ 1) = true ↔
        ∀ x, (x = .epsilon → m.destinations p x = ∅) ∧ (m.destinations p x).size ≤ 1) := by
    intro p s hs
    simp only [destinations_eq hs]
    -- an entry is not empty, so one for epsilon is ruled out by the first part
    rw [← Transitions.forall_entries_iff (P := fun x d => (x = .epsilon → d = ∅) ∧ d.size ≤ 1)
      (fun x => ⟨fun _ => rfl, Nat.zero_le 1⟩), List.all_eq_true]
    refine forall₂_congr fun e he => ?_
    have hne := hm.pruned hs e he
    simp [hne, Bool.eq_false_iff]
  rw [isDeterministic, List.all_eq_true]
  constructor
  · intro h p x
    cases hs : m.state? p with
    | none =>
      rw [destinations_eq_empty hs]
      exact ⟨fun _ => rfl, Nat.zero_le 1⟩
    | some s => exact (hstate hs).1 (h (p, s) (mem_liveStates hs)) x
  · intro h s hs
    exact (hstate ((mem_liveStates_iff hm.fits).1 hs)).2 (h s.1)

end Automaton
end FiniteAutomata
