import FiniteAutomata.Automaton.InPlace
import FiniteAutomata.Proofs.Queries
import FiniteAutomata.Proofs.Reachable

/-! Each edit is compared with the list of the faults that its checks come upon: it goes through if
the list is empty, and ends with the first fault otherwise. One by one the source is checked for
every edge, and together once at the end; but for a list of edges that is not empty, one list of
faults is empty if and only if the other is. -/
namespace FiniteAutomata

/-- Ends with the first of the faults, if there are any. -/
def refuse {α : Type} : List (Fault α) → Except (Fault α) Unit
  | [] => .ok ()
  | f :: _ => .error f

section Refuse
variable {α β : Type}

theorem refuse_append (fs gs : List (Fault α)) :
    refuse (fs ++ gs) = refuse fs >>= fun _ => refuse gs := by
  cases fs <;> rfl

theorem forM_refuse (faults : β → List (Fault α)) (l : List β) :
    (forM l fun b => refuse (faults b)) = refuse (l.flatMap faults) := by
  induction l with
  | nil => rfl
  | cons b l ih => rw [List.forM_cons, ih, List.flatMap_cons, refuse_append]

end Refuse

namespace Automaton
variable {α β : Type} {m : Automaton α} {p q : StateId}

def stateFaults (m : Automaton α) (q : StateId) : List (Fault α) :=
  if m.contains q then [] else [.unknownState q]

theorem stateFaults_eq_nil_iff : m.stateFaults q = [] ↔ m.contains q = true := by
  simp [stateFaults]

theorem findState_bind_eq_refuse (c : Except (Fault α) β) :
    (m.findState q >>= fun _ => c) = refuse (m.stateFaults q) >>= fun _ => c := by
  unfold stateFaults contains findState
  cases m.state? q <;> rfl

variable [DecidableEq α] {x : Label α} {es : List (Label α × StateId)} {qs : List StateId}

def labelFaults (m : Automaton α) : Label α → List (Fault α)
  | .epsilon => []
  | .literal a => if a ∈ m.alphabet then [] else [.invalidSymbol a]

theorem checkLabel_eq_refuse (m : Automaton α) (x : Label α) :
    m.checkLabel x = refuse (m.labelFaults x) := by
  cases x with
  | epsilon => rfl
  | literal a =>
    simp only [checkLabel, checkSymbol, labelFaults]
    split <;> rfl

theorem labelFaults_eq_nil_iff : m.labelFaults x = [] ↔ m.checkLabel x = .ok () := by
  rw [checkLabel_eq_refuse]
  cases m.labelFaults x <;> simp [refuse]

/-- For a single edge: its label, its target, its source. -/
def edgeFaults (m : Automaton α) (p : StateId) (e : Label α × StateId) : List (Fault α) :=
  m.labelFaults e.1 ++ m.stateFaults e.2 ++ m.stateFaults p

/-- For targets on one label: the label, the targets as listed, and then the source. -/
def setFaults (m : Automaton α) (p : StateId) (x : Label α) (qs : List StateId) :
    List (Fault α) :=
  m.labelFaults x ++ qs.flatMap m.stateFaults ++ m.stateFaults p

/-- For any edges: label and target of each as listed, and then the source. -/
def multipleFaults (m : Automaton α) (p : StateId) (es : List (Label α × StateId)) :
    List (Fault α) :=
  (es.flatMap fun e => m.labelFaults e.1 ++ m.stateFaults e.2) ++ m.stateFaults p

theorem setFaults_eq_nil_iff (h : qs ≠ []) :
    m.setFaults p x qs = [] ↔ ∀ e ∈ qs.map (x, ·), m.edgeFaults p e = [] := by
  obtain ⟨q, hq⟩ := List.exists_mem_of_ne_nil qs h
  simp only [setFaults, edgeFaults, List.append_eq_nil_iff, List.flatMap_eq_nil_iff,
    List.forall_mem_map]
  grind

theorem multipleFaults_eq_nil_iff (h : es ≠ []) :
    m.multipleFaults p es = [] ↔ ∀ e ∈ es, m.edgeFaults p e = [] := by
  obtain ⟨e, he⟩ := List.exists_mem_of_ne_nil es h
  simp only [multipleFaults, edgeFaults, List.append_eq_nil_iff, List.flatMap_eq_nil_iff]
  grind

/-- The automaton with more edges from one state. -/
def withEdges (m : Automaton α) (p : StateId) (es : List (Label α × StateId)) : Automaton α :=
  m.modifyTransitions p fun t => es.foldl (fun t e => t.insert e.1 e.2) t

omit [DecidableEq α] in
theorem modifyTransitions_comp (f g : Transitions α → Transitions α) :
    (m.modifyTransitions p f).modifyTransitions p g = m.modifyTransitions p (g ∘ f) := by
  simp only [modifyTransitions, mk.injEq, true_and, and_true]
  apply Array.ext_getElem?
  intro k
  simp only [Array.getElem?_modify]
  split_ifs
  · simp [Function.comp_def]
  · rfl

theorem withEdges_nil : m.withEdges p [] = m := by
  obtain ⟨alphabet, slots, initial, finals⟩ := m
  simp only [withEdges, modifyTransitions, List.foldl_nil, mk.injEq, true_and, and_true]
  apply Array.ext_getElem?
  intro k
  simp [Array.getElem?_modify]

theorem withEdges_append (es es' : List (Label α × StateId)) :
    (m.withEdges p es).withEdges p es' = m.withEdges p (es ++ es') := by
  simp [withEdges, modifyTransitions_comp, Function.comp_def]

/-- The edges are added unless there are faults. -/
def addUnless (m : Automaton α) (faults : List (Fault α)) (p : StateId)
    (es : List (Label α × StateId)) : Except (Fault α) (Automaton α) := do
  refuse faults
  return m.withEdges p es

theorem addUnless_append (fs gs : List (Fault α)) : m.addUnless (fs ++ gs) p es =
    refuse fs >>= fun _ => m.addUnless gs p es := by
  rw [addUnless, refuse_append, bind_assoc]
  rfl

theorem addTransition_eq : m.addTransition p x q =
    m.addUnless (m.edgeFaults p (x, q)) p [(x, q)] := by
  rw [addTransition, findState_bind_eq_refuse, findState_bind_eq_refuse, checkLabel_eq_refuse,
    edgeFaults, List.append_assoc, addUnless_append, addUnless_append]
  rfl

theorem addTransitionSet_eq : m.addTransitionSet p x qs =
    m.addUnless (m.setFaults p x qs) p (qs.map (x, ·)) := by
  rw [addTransitionSet, List.forM_eq_forM]
  simp only [findState_bind_eq_refuse, bind_pure_unit]
  rw [checkLabel_eq_refuse, forM_refuse, setFaults, List.append_assoc, addUnless_append,
    addUnless_append, addUnless, withEdges]
  simp only [List.foldl_map]

theorem addMultiple_eq : m.addMultiple p es = m.addUnless (m.multipleFaults p es) p es := by
  rw [addMultiple, List.forM_eq_forM]
  simp only [findState_bind_eq_refuse, bind_pure_unit, checkLabel_eq_refuse, ← refuse_append]
  rw [forM_refuse, multipleFaults, addUnless_append]
  rfl

end Automaton

namespace Editing
variable {α β : Type} {m : Automaton α} {p q : StateId} {faults : List (Fault α)}

/-- How an edit in place ends that leaves the automaton alone unless it succeeds. -/
def atOnce (m : Automaton α) : Except (Fault α) (Automaton α) →
    EStateM.Result (Fault α) (Automaton α) Unit
  | .ok m' => .ok () m'
  | .error f => .error f m

/-- The computation looks for faults and changes nothing. -/
def Checks (check : Editing α Unit) (m : Automaton α) (faults : List (Fault α)) : Prop :=
  check.run m = atOnce m (refuse faults >>= fun _ => .ok m)

theorem Checks.run_bind {check : Editing α Unit} (h : Checks check m faults)
    {next : Editing α Unit} {edit : Except (Fault α) (Automaton α)}
    (hnext : next.run m = atOnce m edit) :
    (check >>= fun _ => next).run m = atOnce m (refuse faults >>= fun _ => edit) := by
  rw [EStateM.run_bind, h]
  cases faults with
  | nil => exact hnext
  | cons f fs => rfl

theorem Checks.append {check check' : Editing α Unit} {faults' : List (Fault α)}
    (h : Checks check m faults) (h' : Checks check' m faults') :
    Checks (check >>= fun _ => check') m (faults ++ faults') := by
  rw [Checks, h.run_bind h', refuse_append, bind_assoc]

theorem Checks.forM {check : β → Editing α Unit} {faults : β → List (Fault α)}
    (h : ∀ b, Checks (check b) m (faults b)) (l : List β) :
    Checks (l.forM check) m (l.flatMap faults) := by
  induction l with
  | nil => rfl
  | cons b l ih => exact (h b).append ih

theorem checks_ask {query : Automaton α → Except (Fault α) Unit} (h : query m = refuse faults) :
    Checks (ask query) m faults := by
  change EStateM.run (MonadExcept.ofExcept (query m)) m = _
  rw [h]
  cases faults <;> rfl

theorem checks_needState (m : Automaton α) (q : StateId) :
    Checks (needState q) m (m.stateFaults q) := by
  apply checks_ask
  rw [Automaton.findState_bind_eq_refuse]
  exact bind_pure_unit

variable [DecidableEq α] {x : Label α} {es : List (Label α × StateId)} {qs : List StateId}

theorem checks_needLabel (m : Automaton α) (x : Label α) :
    Checks (needLabel x) m (m.labelFaults x) :=
  checks_ask (m.checkLabel_eq_refuse x)

theorem run_forM_modify (m : Automaton α) (p : StateId) (es : List (Label α × StateId)) :
    EStateM.run (es.forM fun e => modify (·.modifyTransitions p (·.insert e.1 e.2))) m =
      (.ok () (m.withEdges p es) : EStateM.Result (Fault α) (Automaton α) Unit) := by
  induction es generalizing m with
  | nil =>
    rw [Automaton.withEdges_nil]
    rfl
  | cons e es ih =>
    have hrest := ih (m.withEdges p [e])
    rwa [Automaton.withEdges_append] at hrest

theorem run_insertEdges : (insertEdges p es).run m =
    atOnce m (m.addUnless (m.stateFaults p) p es) :=
  (checks_needState m p).run_bind (run_forM_modify m p es)

theorem run_addTransition : (addTransition p x q).run m = atOnce m (m.addTransition p x q) := by
  rw [Automaton.addTransition_eq, Automaton.edgeFaults, List.append_assoc,
    Automaton.addUnless_append, Automaton.addUnless_append]
  exact (checks_needLabel m x).run_bind ((checks_needState m q).run_bind run_insertEdges)

theorem run_addTransitionSet :
    (addTransitionSet p x qs).run m = atOnce m (m.addTransitionSet p x qs) := by
  rw [Automaton.addTransitionSet_eq, Automaton.setFaults, List.append_assoc,
    Automaton.addUnless_append, Automaton.addUnless_append]
  exact (checks_needLabel m x).run_bind
    ((Checks.forM (checks_needState m) qs).run_bind run_insertEdges)

theorem run_addMultiple : (addMultiple p es).run m = atOnce m (m.addMultiple p es) := by
  rw [Automaton.addMultiple_eq, Automaton.multipleFaults, Automaton.addUnless_append]
  have hentry : ∀ e : Label α × StateId, Checks (do needLabel e.1; needState e.2) m
      (m.labelFaults e.1 ++ m.stateFaults e.2) := fun e =>
    (checks_needLabel m e.1).append (checks_needState m e.2)
  exact (Checks.forM hentry es).run_bind run_insertEdges

theorem edgeFaults_withEdges (m : Automaton α) (p : StateId) (es : List (Label α × StateId)) :
    (m.withEdges p es).edgeFaults p = m.edgeFaults p := by
  have hlabel : (m.withEdges p es).labelFaults = m.labelFaults := by
    funext x
    cases x <;> rfl
  have hstate : (m.withEdges p es).stateFaults = m.stateFaults := by
    funext q
    rw [Automaton.stateFaults, Automaton.withEdges, Automaton.contains_modifyTransitions]
    rfl
  funext e
  rw [Automaton.edgeFaults, hlabel, hstate]
  rfl

/-- The edges go in until one has faults, and those before it stay in. -/
theorem run_addEach (m : Automaton α) (p : StateId) (es : List (Label α × StateId)) :
    ((∀ e ∈ es, m.edgeFaults p e = []) ∧ (addEach p es).run m = .ok () (m.withEdges p es)) ∨
      ∃ before e after f fs, es = before ++ e :: after ∧ (∀ e ∈ before, m.edgeFaults p e = []) ∧
        m.edgeFaults p e = f :: fs ∧ (addEach p es).run m = .error f (m.withEdges p before) := by
  -- for any automaton: an edge that goes in changes it, but not the faults of those that follow
  induction es generalizing m with
  | nil =>
    refine .inl ⟨by simp, ?_⟩
    rw [Automaton.withEdges_nil]
    rfl
  | cons e es ih =>
    have hfirst : (addTransition p e.1 e.2).run m =
        atOnce m (m.addUnless (m.edgeFaults p e) p [e]) := by
      rw [run_addTransition, Automaton.addTransition_eq]
    have hcons : addEach p (e :: es) = addTransition p e.1 e.2 >>= fun _ => addEach p es := rfl
    rw [hcons, EStateM.run_bind, hfirst]
    cases hfaults : m.edgeFaults p e with
    | nil =>
      have hrest := ih (m.withEdges p [e])
      simp only [edgeFaults_withEdges, Automaton.withEdges_append, List.singleton_append] at hrest
      rcases hrest with ⟨hes, hok⟩ | ⟨before, e', after, f, fs, rfl, hbefore, hf, herror⟩
      · exact .inl ⟨List.forall_mem_cons.2 ⟨hfaults, hes⟩, hok⟩
      · exact .inr ⟨e :: before, e', after, f, fs, rfl, List.forall_mem_cons.2 ⟨hfaults, hbefore⟩,
          hf, herror⟩
    | cons f fs =>
      refine .inr ⟨[], e, es, f, fs, rfl, by simp, hfaults, ?_⟩
      rw [Automaton.withEdges_nil]
      rfl

theorem run_addEach_of_faultless (h : ∀ e ∈ es, m.edgeFaults p e = []) :
    (addEach p es).run m = .ok () (m.withEdges p es) := by
  rcases run_addEach m p es with ⟨-, hok⟩ | ⟨before, e, after, f, fs, rfl, -, hf, -⟩
  · exact hok
  · simp [h e] at hf

theorem exists_addEach_error {e : Label α × StateId} (he : e ∈ es)
    (hfaults : m.edgeFaults p e ≠ []) : ∃ f m', (addEach p es).run m = .error f m' := by
  rcases run_addEach m p es with ⟨hall, -⟩ | ⟨before, _, _, f, _, -, -, -, herror⟩
  · exact absurd (hall e he) hfaults
  · exact ⟨f, _, herror⟩

end Editing

namespace Automaton
variable {α : Type} [DecidableEq α] {m : Automaton α} {p : StateId}
  {es : List (Label α × StateId)} {faults : List (Fault α)}

theorem mem_transitions_withEdges (hm : m.WellFormed) (h : ∀ e ∈ es, m.edgeFaults p e = [])
    {s r : StateId} {y : Label α} : ⟨s, y, r⟩ ∈ (m.withEdges p es).transitions ↔
      ⟨s, y, r⟩ ∈ m.transitions ∨ s = p ∧ (y, r) ∈ es := by
  cases es with
  | nil => simp [withEdges_nil]
  | cons e es =>
    have hp : m.contains p = true := by
      have he := h e List.mem_cons_self
      rw [edgeFaults, List.append_eq_nil_iff] at he
      exact stateFaults_eq_nil_iff.1 he.2
    have hsize : (m.withEdges p (e :: es)).slots.size ≤ UInt32.size := by
      simpa [withEdges, modifyTransitions] using hm.fits
    rw [mem_transitions_iff hsize, mem_transitions_iff hm.fits, withEdges,
      mem_destinations_modifyTransitions hp]

/-- Edges that leave one state are added by one edit, in place or of a whole automaton, or one by
one. Together none is added if there is a fault, and the fault is the first of the list. -/
structure AllOrNothing (m : Automaton α) (p : StateId) (es : List (Label α × StateId))
    (faults : List (Fault α)) (edit : Except (Fault α) (Automaton α))
    (inPlace : Editing α Unit) : Prop where
  together : es ≠ [] → ∀ {m'}, (Editing.addEach p es).run m = .ok () m' →
    edit = .ok m' ∧ inPlace.run m = .ok () m' ∧ ∀ {s y r}, ⟨s, y, r⟩ ∈ m'.transitions ↔
      ⟨s, y, r⟩ ∈ m.transitions ∨ s = p ∧ (y, r) ∈ es
  refused : ∀ {f m'}, (Editing.addEach p es).run m = .error f m' →
    ∃ first, faults.head? = some first ∧ edit = .error first ∧ inPlace.run m = .error first m
  kept : ∀ {f m'}, (Editing.addEach p es).run m = .error f m' →
    ∃ k < es.length, ∀ {s y r}, ⟨s, y, r⟩ ∈ m'.transitions ↔
      ⟨s, y, r⟩ ∈ m.transitions ∨ s = p ∧ (y, r) ∈ es.take k

theorem allOrNothing {edit : Except (Fault α) (Automaton α)} {inPlace : Editing α Unit}
    (hm : m.WellFormed) (hfaults : es ≠ [] → (faults = [] ↔ ∀ e ∈ es, m.edgeFaults p e = []))
    (hedit : edit = m.addUnless faults p es) (hrun : inPlace.run m = Editing.atOnce m edit) :
    m.AllOrNothing p es faults edit inPlace := by
  subst hedit
  have houtcome := Editing.run_addEach m p es
  refine ⟨fun hne m' hok => ?_, fun {f m'} herror => ?_, fun {f m'} herror => ?_⟩
  · rcases houtcome with ⟨hes, hok'⟩ | ⟨before, e, after, f, fs, -, -, -, herror⟩
    · obtain rfl : m.withEdges p es = m' := by simpa [hok'] using hok
      have hnil := (hfaults hne).2 hes
      rw [hnil] at hrun ⊢
      exact ⟨rfl, hrun, mem_transitions_withEdges hm hes⟩
    · simp [herror] at hok
  · rcases houtcome with ⟨-, hok⟩ | ⟨before, e, after, g, gs, rfl, -, hg, -⟩
    · simp [hok] at herror
    · cases hfirst : faults with
      | nil =>
        have hall := (hfaults (by simp)).1 hfirst e (by simp)
        simp [hall] at hg
      | cons first rest =>
        rw [hfirst] at hrun
        exact ⟨first, rfl, rfl, hrun⟩
  · rcases houtcome with ⟨-, hok⟩ | ⟨before, e, after, g, gs, rfl, hbefore, -, herror'⟩
    · simp [hok] at herror
    · obtain ⟨-, rfl⟩ : g = f ∧ m.withEdges p before = m' := by simpa [herror'] using herror
      refine ⟨before.length, by simp, ?_⟩
      rw [List.take_left]
      exact mem_transitions_withEdges hm hbefore

/-- No edges are to be added: nothing changes, and no label without a target comes up. -/
structure NothingToAdd (m : Automaton α) (allowed : Prop) (edit : Except (Fault α) (Automaton α))
    (inPlace : Editing α Unit) : Prop where
  ok_iff : (∃ m', edit = .ok m') ↔ allowed
  unchanged : ∀ {m'}, edit = .ok m' → m' = m ∧ inPlace.run m = .ok () m
  refused : ∀ {f}, edit = .error f → inPlace.run m = .error f m
  pruned : ∀ {m' q t}, edit = .ok m' → m'.transitionsFrom q = .ok t → t.Pruned
  isDeterministic : ∀ {m'}, edit = .ok m' → m'.isDeterministic = m.isDeterministic

theorem nothingToAdd {allowed : Prop} {edit : Except (Fault α) (Automaton α)}
    {inPlace : Editing α Unit} (hm : m.WellFormed) (hallowed : faults = [] ↔ allowed)
    (hedit : edit = m.addUnless faults p []) (hrun : inPlace.run m = Editing.atOnce m edit) :
    m.NothingToAdd allowed edit inPlace := by
  subst hedit
  have hok : ∀ {m'}, m.addUnless faults p [] = .ok m' ↔ allowed ∧ m' = m := by
    intro m'
    rw [← hallowed, addUnless, check_bind_eq_ok_iff, withEdges_nil, pure_eq_ok_iff]
    cases faults <;> simp [refuse]
  refine ⟨by simp [hok], fun h => ?_, fun h => ?_, fun {m' q t} h ht => ?_, fun h => ?_⟩
  · obtain rfl := (hok.1 h).2
    rw [h] at hrun
    exact ⟨rfl, hrun⟩
  · rwa [h] at hrun
  · obtain rfl := (hok.1 h).2
    rw [transitionsFrom, bind_eq_ok_iff] at ht
    obtain ⟨s, hs, ht⟩ := ht
    obtain rfl := pure_eq_ok_iff.1 ht
    exact hm.pruned (findState_eq_ok_iff.1 hs)
  · rw [(hok.1 h).2]

/-- Adding edges from one state together is adding them one by one, except that it is all or
nothing, and that for no edges at all the source is still looked for. -/
theorem bulk_insertion_exact (hm : m.Reachable) (p : StateId) :
    (∀ x qs, m.AllOrNothing p (qs.map (x, ·)) (m.setFaults p x qs) (m.addTransitionSet p x qs)
      (Editing.addTransitionSet p x qs)) ∧
    (∀ es, m.AllOrNothing p es (m.multipleFaults p es) (m.addMultiple p es)
      (Editing.addMultiple p es)) ∧
    (∀ x, m.NothingToAdd (m.checkLabel x = .ok () ∧ m.contains p = true)
      (m.addTransitionSet p x []) (Editing.addTransitionSet p x [])) ∧
    m.NothingToAdd (m.contains p = true) (m.addMultiple p []) (Editing.addMultiple p []) := by
  have hwf := hm.wellFormed
  refine ⟨fun x qs => ?_, fun es => ?_, fun x => ?_, ?_⟩
  · exact allOrNothing hwf (fun hne => setFaults_eq_nil_iff (by simpa using hne))
      addTransitionSet_eq Editing.run_addTransitionSet
  · exact allOrNothing hwf multipleFaults_eq_nil_iff addMultiple_eq Editing.run_addMultiple
  · refine nothingToAdd hwf ?_ addTransitionSet_eq Editing.run_addTransitionSet
    simp [setFaults, labelFaults_eq_nil_iff, stateFaults_eq_nil_iff]
  · refine nothingToAdd hwf ?_ addMultiple_eq Editing.run_addMultiple
    simp [multipleFaults, stateFaults_eq_nil_iff]

/-- Two states, the number of a third that is removed again, and one symbol. -/
def withVacancy : Automaton Bool :=
  (empty (.ofList [true])).afterAll
    [.addState true false none, .addState false true none, .addState false false none,
      .removeState 2]

/-- Edges between states are added together, one of them twice. With an edge to a removed state none
is. A symbol outside the alphabet is found first, although the source and the target are missing
too. -/
theorem bulk_insertion_exact_with_vacancy : withVacancy.Reachable ∧
    (∃ m', (Editing.addEach 1 [(.epsilon, 0), (.literal true, 0), (.epsilon, 0)]).run withVacancy =
        .ok () m' ∧
      withVacancy.addMultiple 1 [(.epsilon, 0), (.literal true, 0), (.epsilon, 0)] = .ok m') ∧
    (∃ f m', (Editing.addEach 0 [(.literal true, 1), (.epsilon, 2)]).run withVacancy =
      .error f m') ∧
    (Editing.addMultiple 0 [(.literal true, 1), (.epsilon, 2)]).run withVacancy =
      .error (.unknownState 2) withVacancy ∧
    (Editing.addTransitionSet 2 (.literal false) [2]).run withVacancy =
      .error (.invalidSymbol false) withVacancy ∧
    withVacancy.NothingToAdd (withVacancy.contains 1 = true) (withVacancy.addMultiple 1 [])
      (Editing.addMultiple 1 []) := by
  have hm : withVacancy.Reachable := .afterAll (.empty _) _ (by decide +kernel)
  obtain ⟨-, hvacancy, -, -⟩ := bulk_insertion_exact hm 0
  obtain ⟨-, hmultiple, -, hnone⟩ := bulk_insertion_exact hm 1
  obtain ⟨hset, -, -, -⟩ := bulk_insertion_exact hm 2
  have hfaultless : ∀ e ∈ [(.epsilon, 0), (.literal true, 0), (.epsilon, 0)],
      withVacancy.edgeFaults 1 e = [] := by decide +kernel
  have hvacant : withVacancy.edgeFaults 0 (.epsilon, 2) ≠ [] := by decide +kernel
  have hforeign : withVacancy.edgeFaults 2 (.literal false, 2) ≠ [] := by decide +kernel
  have hlast : (.epsilon, 2) ∈ [((.literal true, 1) : Label Bool × StateId), (.epsilon, 2)] := by
    simp
  have honly : (.literal false, 2) ∈ ([2] : List StateId).map (Label.literal false, ·) := by simp
  have hadded := Editing.run_addEach_of_faultless hfaultless
  obtain ⟨f, m', hrefused⟩ := Editing.exists_addEach_error hlast hvacant
  obtain ⟨g, m'', hrefused'⟩ := Editing.exists_addEach_error honly hforeign
  obtain ⟨htogether, -, -⟩ := (hmultiple _).together (by simp) hadded
  obtain ⟨first, hfirst, -, hbulk⟩ := (hvacancy _).refused hrefused
  obtain rfl : .unknownState 2 = first := Option.some.inj (.trans (by decide +kernel) hfirst)
  obtain ⟨first, hfirst, -, hbulk'⟩ := (hset _ _).refused hrefused'
  obtain rfl : .invalidSymbol false = first := Option.some.inj (.trans (by decide +kernel) hfirst)
  exact ⟨hm, ⟨_, hadded, htogether⟩, ⟨f, m', hrefused⟩, hbulk, hbulk', hnone⟩

end Automaton
end FiniteAutomata
