import FiniteAutomata.Proofs.Union

/-! Final states are led on to one new final state by epsilon edges. No edge leaves the new state,
so every path is one of the old automaton, perhaps with one epsilon edge more at its end. -/
namespace FiniteAutomata.Automaton
variable {α : Type} [DecidableEq α] {m c : Automaton α} {e f i p q : StateId}
  {fs : List StateId} {w : List α}

/-- All of the edits, up to the first that is refused. -/
def performAll (m : Automaton α) (ops : List (Operation α)) : Except (Fault α) (Automaton α) :=
  ops.foldlM perform m

theorem performAll_append (m : Automaton α) (ops ops' : List (Operation α)) :
    m.performAll (ops ++ ops') = m.performAll ops >>= fun c => c.performAll ops' :=
  List.foldlM_append

omit [DecidableEq α] in
/-- Leads each of the states on to `e`, and then it is final no more. -/
def funnelEdits (e : StateId) (fs : List StateId) : List (Operation α) :=
  fs.flatMap fun f => [.addEpsilon f e, .unmarkFinal f]

/-- `c` is `m` with a new final state `e`, where the listed states are led on to `e` and are not
final any more. -/
structure Funnelled (m c : Automaton α) (e : StateId) (fs : List StateId) : Prop where
  alphabet : c.alphabet = m.alphabet
  initial : c.initial = m.initial
  mem_finals : ∀ {q}, q ∈ c.finals ↔ q = e ∨ q ∈ m.finals ∧ q ∉ fs
  mem_destinations : ∀ {p x q}, q ∈ c.destinations p x ↔
    q ∈ m.destinations p x ∨ p ∈ fs ∧ x = .epsilon ∧ q = e
  wellFormed : c.WellFormed

theorem funnelled_addState (hm : m.WellFormed) (fits : m.slots.size < UInt32.size)
    (name : Option String) : Funnelled m (m.addState false true name) m.nextId [] where
  alphabet := rfl
  initial := rfl
  mem_finals := by simp [addState]
  mem_destinations := by simp [destinations_addState fits]
  wellFormed := wellFormed_addState hm fits false true name

/-- One more of the final states is led on. -/
theorem Funnelled.step (h : Funnelled m c e fs) (hf : f ∈ m.finals) (hfe : f ≠ e) (hfs : f ∉ fs) :
    ∃ c', c.performAll (funnelEdits e [f]) = .ok c' ∧ Funnelled m c' e (fs ++ [f]) := by
  have hfinal : f ∈ c.finals := h.mem_finals.2 (.inr ⟨hf, hfs⟩)
  have hend : c.contains e = true := h.wellFormed.final_live (h.mem_finals.2 (.inl rfl))
  obtain ⟨b, hedge⟩ : ∃ b, c.addTransition f .epsilon e = .ok b :=
    ⟨_, addTransition_eq_ok_iff.2 ⟨rfl, hend, h.wellFormed.final_live hfinal, rfl⟩⟩
  have hsame : SameStates c b := by
    obtain ⟨-, -, -, rfl⟩ := addTransition_eq_ok_iff.1 hedge
    exact sameStates_modifyTransitions _
  have hmark : b.unmarkFinal f = .ok { b with finals := b.finals.erase f } :=
    unmarkFinal_eq_ok_iff.2 ⟨hsame.finals ▸ hfinal, rfl⟩
  have hb := wellFormed_addTransition h.wellFormed hedge
  refine ⟨{ b with finals := b.finals.erase f }, ?_, hsame.alphabet.trans h.alphabet,
    hsame.initial.trans h.initial, ?_, ?_, wellFormed_unmarkFinal hb hmark⟩
  · change (c.addTransition f .epsilon e >>= fun b => b.unmarkFinal f >>= pure) = _
    rw [hedge]
    exact congrArg (· >>= pure) hmark
  · -- the new state is not the one that loses its mark
    intro q
    rw [StateSet.mem_erase, hsame.finals, h.mem_finals, List.mem_append, List.mem_singleton]
    constructor
    · rintro ⟨rfl | ⟨hq, hqs⟩, hqf⟩
      · exact .inl rfl
      · exact .inr ⟨hq, not_or.2 ⟨hqs, hqf⟩⟩
    · rintro (rfl | ⟨hq, hqs⟩)
      · exact ⟨.inl rfl, hfe.symm⟩
      · exact ⟨.inr ⟨hq, (not_or.1 hqs).1⟩, (not_or.1 hqs).2⟩
  · intro p x q
    have hdest : q ∈ b.destinations p x ↔ q ∈ c.destinations p x ∨ p = f ∧ x = .epsilon ∧ q = e :=
      mem_destinations_addTransition hedge
    rw [List.mem_append, List.mem_singleton, or_and_right, ← or_assoc, ← h.mem_destinations]
    exact hdest

/-- By induction from the end of the list: each edit finds its state still final. -/
theorem Funnelled.run (h : Funnelled m c e []) (hfs : fs.Nodup) (hfinal : ∀ f ∈ fs, f ∈ m.finals)
    (he : e ∉ m.finals) :
    ∃ c', c.performAll (funnelEdits e fs) = .ok c' ∧ Funnelled m c' e fs := by
  induction fs using List.reverseRecOn with
  | nil => exact ⟨c, rfl, h⟩
  | append_singleton fs f ih =>
    obtain ⟨hfs, -, hdisjoint⟩ := List.nodup_append.1 hfs
    obtain ⟨hfinal, hlast⟩ := List.forall_mem_append.1 hfinal
    have hf := hlast f (List.mem_singleton.2 rfl)
    obtain ⟨c₁, hc₁, h₁⟩ := ih hfs hfinal
    obtain ⟨c₂, hc₂, h₂⟩ := h₁.step hf (fun hfe => he (hfe ▸ hf))
      fun hmem => hdisjoint f hmem f (List.mem_singleton.2 rfl) rfl
    refine ⟨c₂, ?_, h₂⟩
    rw [funnelEdits, List.flatMap_append, performAll_append, ← funnelEdits, hc₁]
    exact hc₂

/-- As a copy in its old place, `m` leads to the new final state from the listed states. -/
theorem Funnelled.leadsTo (h : Funnelled m c e fs) (hm : m.WellFormed) (he : m.contains e = false)
    (hfs : ∀ f ∈ fs, f ∈ m.finals) : LeadsTo { m with finals := .ofList fs } c id e := by
  have hedge : ∀ {p x q}, ⟨p, x, q⟩ ∈ c.transitions ↔
      ⟨p, x, q⟩ ∈ m.transitions ∨ p ∈ fs ∧ x = .epsilon ∧ q = e := by
    intro p x q
    rw [mem_transitions_iff h.wellFormed.fits, mem_transitions_iff hm.fits, h.mem_destinations]
  have hnot : ∀ {p}, m.contains p = true → p ≠ e := by
    rintro p hp rfl
    rw [he] at hp
    cases hp
  refine ⟨fun hmem => hedge.2 (.inl hmem), fun hp => ?_, fun hp hmem => ?_, fun hmem => ?_, hnot⟩
  · exact hedge.2 (.inr ⟨StateSet.mem_ofList.1 hp, rfl, rfl⟩)
  · rcases hedge.1 hmem with hold | ⟨hp, hx, hr⟩
    · exact .inl ⟨_, hold, rfl⟩
    · exact .inr ⟨StateSet.mem_ofList.2 hp, hx, hr⟩
  · rcases hedge.1 hmem with hold | ⟨he', -⟩
    · exact hnot (hm.ends_live hold).1 rfl
    · exact hnot (hm.final_live (hfs e he')) rfl

omit [DecidableEq α] in
theorem reads_finals_iff (m : Automaton α) (finals : StateSet) :
    Reads { m with finals := finals } p w q ↔ m.Reads p w q :=
  ⟨Reads.map (f := id) id, Reads.map (f := id) id⟩

section Answers
variable (h : Funnelled m c e fs) (hm : m.WellFormed) (he : m.contains e = false)
  (hfs : ∀ f ∈ fs, f ∈ m.finals)
include h hm he hfs

/-- A word leads to the old states as before, and to the new one if it leads to a listed one. -/
theorem Funnelled.reads_iff (hi : m.contains i = true) :
    c.Reads i w q ↔ m.Reads i w q ∨ q = e ∧ ∃ f ∈ fs, m.Reads i w f := by
  have hmarked : WellFormed { m with finals := .ofList fs } :=
    { hm with final_live := fun hq => hm.final_live (hfs _ (StateSet.mem_ofList.1 hq)) }
  have hread := (h.leadsTo hm he hfs).reads_iff (w := w) (r := q) hmarked hi
  simp only [reads_finals_iff, StateSet.mem_ofList, id_eq, exists_eq_right'] at hread
  exact hread

theorem Funnelled.exists_reads_iff (hi : m.contains i = true) :
    (∃ q, c.Reads i w q) ↔ ∃ q, m.Reads i w q := by
  simp only [h.reads_iff hm he hfs hi]
  constructor
  · rintro ⟨q, hq | ⟨-, f, -, hf⟩⟩
    · exact ⟨q, hq⟩
    · exact ⟨f, hf⟩
  · rintro ⟨q, hq⟩
    exact ⟨q, .inl hq⟩

theorem Funnelled.exists_final_reads_iff (hi : m.contains i = true) :
    (∃ q ∈ c.finals, c.Reads i w q) ↔ ∃ q ∈ m.finals, m.Reads i w q := by
  simp only [h.mem_finals, h.reads_iff hm he hfs hi]
  constructor
  · rintro ⟨q, rfl | ⟨hq, -⟩, hread | ⟨-, f, hf, hread⟩⟩
    · -- no path of the old automaton ends in the new state
      rw [hread.target_live hm hi] at he
      cases he
    · exact ⟨f, hfs f hf, hread⟩
    · exact ⟨q, hq, hread⟩
    · exact ⟨f, hfs f hf, hread⟩
  · rintro ⟨q, hq, hread⟩
    by_cases hmem : q ∈ fs
    · exact ⟨e, .inl rfl, .inr ⟨rfl, q, hmem, hread⟩⟩
    · exact ⟨q, .inr ⟨hq, hmem⟩, .inl hread⟩

theorem Funnelled.accepts_eq (w : List α) : c.accepts w = m.accepts w := by
  cases hi : m.initial with
  | none => rw [accepts_eq_error hi, accepts_eq_error (h.initial.trans hi)]
  | some i =>
    have hlive := hm.initial_live hi
    exact accepts_eq_of_reads hm h.wellFormed hi (h.initial.trans hi) h.alphabet
      (fun _ => h.exists_reads_iff hm he hfs hlive)
      (fun _ => h.exists_final_reads_iff hm he hfs hlive) w

end Answers

/-- Any final states can be led on to a new final state and made plain. No edit is refused, and
every word gets the answer that it had, faults included. -/
theorem funnel_keeps_answers (hm : m.Reachable) (fits : m.slots.size < UInt32.size)
    (hfs : fs.Nodup) (hfinal : ∀ f ∈ fs, f ∈ m.finals) (name : Option String) :
    ∃ c, m.performAll (.addState false true name :: funnelEdits m.nextId fs) = .ok c ∧
      Funnelled m c m.nextId fs ∧ ∀ w, c.accepts w = m.accepts w := by
  have hwf := hm.wellFormed
  have hnew : m.contains m.nextId = false := by rw [contains, state?_nextId fits]; rfl
  have hnot : m.nextId ∉ m.finals := by
    intro hmem
    rw [hwf.final_live hmem] at hnew
    cases hnew
  obtain ⟨c, hc, h⟩ := (funnelled_addState hwf fits name).run hfs hfinal hnot
  exact ⟨c, hc, h, h.accepts_eq hwf hnew hfinal⟩

/-- Both states of the cycle are final, and reading goes on from one of them. -/
def finalCycle : Automaton Bool := epsilonCycle.after (.markFinal 0)

theorem funnel_keeps_answers_in_a_cycle : finalCycle.Reachable ∧
    finalCycle.slots.size < UInt32.size ∧ [(2 : StateId), 0].Nodup ∧
    (∀ f ∈ [2, 0], f ∈ finalCycle.finals) ∧
    ∃ c, finalCycle.performAll (.addState false true none :: funnelEdits finalCycle.nextId [2, 0]) =
        .ok c ∧ Funnelled finalCycle c finalCycle.nextId [2, 0] ∧
      ∀ w, c.accepts w = finalCycle.accepts w := by
  have hreachable : finalCycle.Reachable :=
    reachable_epsilonCycle.afterAll [.markFinal 0] (by decide +kernel)
  have fits : finalCycle.slots.size < UInt32.size := by decide +kernel
  have hfs : [(2 : StateId), 0].Nodup := by decide
  have hmarks : 2 ∈ finalCycle.finals ∧ 0 ∈ finalCycle.finals := by decide +kernel
  have hfinal : ∀ f ∈ [2, 0], f ∈ finalCycle.finals := by simpa using hmarks
  exact ⟨hreachable, fits, hfs, hfinal, funnel_keeps_answers hreachable fits hfs hfinal none⟩

end FiniteAutomata.Automaton
