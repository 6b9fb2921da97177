import FiniteAutomata.Proofs.WellFormed
import FiniteAutomata.Regular
import Mathlib.Data.List.Perm.Subperm

namespace FiniteAutomata.Automaton
variable {α : Type} {m : Automaton α} {offset k : Nat} {p q r : StateId} {x : Label α}

theorem idxOf_lt_stateCount (hq : q ∈ m.stateIds) : m.stateIds.idxOf q < m.stateCount := by
  rw [← length_stateIds]
  exact List.idxOf_lt_length_of_mem hq

theorem getElem?_stateIds_iff (h : m.slots.size ≤ UInt32.size) :
    m.stateIds[k]? = some q ↔ q ∈ m.stateIds ∧ m.stateIds.idxOf q = k := by
  constructor
  · intro hk
    obtain ⟨hlt, rfl⟩ := List.getElem?_eq_some_iff.1 hk
    exact ⟨List.getElem_mem hlt, (stateIds_nodup h).idxOf_getElem k hlt⟩
  · intro hr
    obtain ⟨hq, hk⟩ := hr
    rw [← hk]
    exact List.getElem?_idxOf hq

variable [DecidableEq α]

theorem toNat_renumbered (hm : m.WellFormed) (fits : offset + m.stateCount ≤ UInt32.size)
    (hq : m.contains q = true) : (m.renumbered offset q).toNat = offset + m.stateIds.idxOf q := by
  have hlt := idxOf_lt_stateCount ((mem_stateIds_iff hm.fits).2 hq)
  exact UInt32.toNat_ofNat_of_lt' (by omega)

theorem renumbered_inj (hm : m.WellFormed) (fits : offset + m.stateCount ≤ UInt32.size)
    (hp : m.contains p = true) (hq : m.contains q = true) :
    m.renumbered offset p = m.renumbered offset q ↔ p = q := by
  rw [← UInt32.toNat_inj, toNat_renumbered hm fits hp, toNat_renumbered hm fits hq,
    Nat.add_left_cancel_iff]
  exact List.idxOf_inj ((mem_stateIds_iff hm.fits).2 hp)

omit [DecidableEq α] in
/-- The number is one of those that the copy takes up. -/
def InCopy (m : Automaton α) (offset : Nat) (r : StateId) : Prop :=
  offset ≤ r.toNat ∧ r.toNat < offset + m.stateCount

theorem inCopy_renumbered (hm : m.WellFormed) (fits : offset + m.stateCount ≤ UInt32.size)
    (hq : m.contains q = true) : m.InCopy offset (m.renumbered offset q) := by
  have hlt := idxOf_lt_stateCount ((mem_stateIds_iff hm.fits).2 hq)
  have hnat := toNat_renumbered hm fits hq
  constructor <;> omega

omit [DecidableEq α] in
theorem mem_copiedEdges_iff : ⟨p, x, q⟩ ∈ m.copiedEdges offset ↔ ∃ p' q',
    ⟨p', x, q'⟩ ∈ m.transitions ∧ m.renumbered offset p' = p ∧ m.renumbered offset q' = q := by
  rw [copiedEdges, List.mem_map]
  constructor
  · intro h
    obtain ⟨e, he, heq⟩ := h
    obtain ⟨rfl, rfl, rfl⟩ := Edge.mk.inj heq
    exact ⟨e.source, e.target, he, rfl, rfl⟩
  · intro h
    obtain ⟨p', q', he, hp, hq⟩ := h
    exact ⟨_, he, by rw [Edge.renumber, hp, hq]⟩

omit [DecidableEq α] in
theorem mem_copiedEdges_of_mem_transitions (he : ⟨p, x, q⟩ ∈ m.transitions) :
    ⟨m.renumbered offset p, x, m.renumbered offset q⟩ ∈ m.copiedEdges offset :=
  mem_copiedEdges_iff.2 ⟨p, q, he, rfl, rfl⟩

theorem inCopy_of_mem_copiedEdges (hm : m.WellFormed) (fits : offset + m.stateCount ≤ UInt32.size)
    (he : ⟨p, x, q⟩ ∈ m.copiedEdges offset) : m.InCopy offset p ∧ m.InCopy offset q := by
  obtain ⟨p', q', he', rfl, rfl⟩ := mem_copiedEdges_iff.1 he
  obtain ⟨hp, hq⟩ := hm.ends_live he'
  exact ⟨inCopy_renumbered hm fits hp, inCopy_renumbered hm fits hq⟩

theorem label_valid_of_mem_copiedEdges (hm : m.WellFormed) {a : α}
    (he : ⟨p, .literal a, q⟩ ∈ m.copiedEdges offset) : a ∈ m.alphabet := by
  obtain ⟨p', q', he', -, -⟩ := mem_copiedEdges_iff.1 he
  exact hm.label_valid ((mem_transitions_iff hm.fits).1 he')

/-- An edge that leaves a state of the copy stands for one that leaves the original state. -/
theorem exists_of_mem_copiedEdges (hm : m.WellFormed)
    (fits : offset + m.stateCount ≤ UInt32.size) (hp : m.contains p = true)
    (he : ⟨m.renumbered offset p, x, r⟩ ∈ m.copiedEdges offset) :
    ∃ q, ⟨p, x, q⟩ ∈ m.transitions ∧ r = m.renumbered offset q := by
  obtain ⟨p', q', he', hp', rfl⟩ := mem_copiedEdges_iff.1 he
  have hlive := (hm.ends_live he').1
  obtain rfl := (renumbered_inj hm fits hlive hp).1 hp'
  exact ⟨q', he', rfl⟩

omit [DecidableEq α] in
@[simp] theorem length_nodes (m : Automaton α) : m.nodes.length = m.stateCount := by
  simp [nodes, states, stateCount]

omit [DecidableEq α] in
@[simp] theorem length_innerNodes (m : Automaton α) : m.innerNodes.length = m.stateCount := by
  simp [innerNodes, states, stateCount]

omit [DecidableEq α] in
theorem isFinal_of_mem_innerNodes {n : Node} (hn : n ∈ m.innerNodes) : n.isFinal = false := by
  obtain ⟨s, -, rfl⟩ := List.mem_map.1 hn
  rfl

/-- A node of the copy is final where the state it stands for is. -/
theorem exists_final_node_iff (hm : m.WellFormed) :
    (∃ n, m.nodes[k]? = some n ∧ n.isFinal = true) ↔
      ∃ q ∈ m.finals, m.stateIds.idxOf q = k := by
  have hnode : (∃ n, m.nodes[k]? = some n ∧ n.isFinal = true) ↔
      ∃ q ∈ m.finals, m.stateIds[k]? = some q := by
    simp only [nodes, states, stateIds, List.getElem?_map, Option.map_map]
    cases m.liveStates[k]? <;> simp [isFinal]
  rw [hnode]
  constructor
  · intro h
    obtain ⟨q, hf, hq⟩ := h
    exact ⟨q, hf, ((getElem?_stateIds_iff hm.fits).1 hq).2⟩
  · intro h
    obtain ⟨q, hf, hk⟩ := h
    have hq := (mem_stateIds_iff hm.fits).2 (hm.final_live hf)
    exact ⟨q, hf, (getElem?_stateIds_iff hm.fits).2 ⟨hq, hk⟩⟩

/-- Lists without repetition that are equally long hold the same, if the one is within the other. -/
theorem sameSymbols_iff {s t : Alphabet α} : s.sameSymbols t = true ↔ ∀ x, x ∈ s ↔ x ∈ t := by
  rw [Alphabet.sameSymbols, Bool.and_eq_true, beq_iff_eq, List.all_eq_true]
  constructor
  · intro h
    obtain ⟨hsize, hall⟩ := h
    have hsub : s.symbols ⊆ t.symbols := fun x hx => of_decide_eq_true (hall x hx)
    have hperm := (s.nodup.subperm hsub).perm_of_length_le (Nat.le_of_eq hsize.symm)
    exact fun x => hperm.mem_iff
  · intro h
    have hperm := (List.perm_ext_iff_of_nodup s.nodup t.nodup).2 h
    exact ⟨hperm.length_eq, fun x hx => decide_eq_true ((h x).1 hx)⟩

omit [DecidableEq α] in
theorem findInitial_eq_ok_iff {q : StateId} : m.findInitial = .ok q ↔ m.initial = some q := by
  unfold findInitial
  cases m.initial <;> simp

theorem findOperands_eq_ok_iff {a b : Automaton α} {i j : StateId} :
    a.findOperands b = .ok (i, j) ↔
      (∀ x, x ∈ a.alphabet ↔ x ∈ b.alphabet) ∧ a.initial = some i ∧ b.initial = some j := by
  rw [← sameSymbols_iff, ← findInitial_eq_ok_iff, ← findInitial_eq_ok_iff, findOperands]
  cases a.alphabet.sameSymbols b.alphabet with
  | false => exact ⟨fun h => (nomatch h), fun h => nomatch h.1⟩
  | true =>
    change (a.findInitial >>= fun i => b.findInitial >>= fun j => pure (i, j)) = _ ↔ _
    simp only [bind_eq_ok_iff, pure_eq_ok_iff, Prod.mk.injEq, true_and]
    constructor
    · intro h
      obtain ⟨_, hi, _, hj, rfl, rfl⟩ := h
      exact ⟨hi, hj⟩
    · intro h
      exact ⟨i, h.1, j, h.2, rfl, rfl⟩

theorem findOperands_eq_ok {a b : Automaton α} {i j : StateId} (hi : a.initial = some i)
    (hj : b.initial = some j) (hab : ∀ x, x ∈ a.alphabet ↔ x ∈ b.alphabet) :
    a.findOperands b = .ok (i, j) :=
  findOperands_eq_ok_iff.2 ⟨hab, hi, hj⟩

end FiniteAutomata.Automaton
