import FiniteAutomata.Proofs.Simulation
import FiniteAutomata.Regular

namespace FiniteAutomata.Automaton
variable {α : Type} {m : Automaton α} {alphabet : Alphabet α} {a : α} {v w : List α} {k : Nat}
  {p q : StateId} {x : Label α}

theorem word_edge_iff : ⟨p, x, q⟩ ∈ (wordDiagram alphabet w).edges ↔
    ∃ k a, w[k]? = some a ∧ p = UInt32.ofNat k ∧ x = .literal a ∧ q = UInt32.ofNat (k + 1) := by
  have hedges : (wordDiagram alphabet w).edges =
      w.zipIdx.map fun c => ⟨UInt32.ofNat c.2, .literal c.1, UInt32.ofNat (c.2 + 1)⟩ := rfl
  simp only [hedges, List.mem_map, Prod.exists, List.mem_zipIdx_iff_getElem?, Edge.mk.injEq]
  rw [exists_comm]
  simp only [eq_comm]

theorem length_word_nodes : (wordDiagram alphabet w).nodes.length = w.length + 1 := by
  simp [wordDiagram]

theorem valid_wordDiagram (hw : ∀ a ∈ w, a ∈ alphabet) (fits : w.length < UInt32.size) :
    (wordDiagram alphabet w).Valid := by
  refine ⟨?_, ?_, ?_, ?_⟩
  · rw [length_word_nodes]
    exact fits
  · intro p x q he
    obtain ⟨k, a, ha, rfl, -, rfl⟩ := word_edge_iff.1 he
    have hlt := (List.getElem?_eq_some_iff.1 ha).1
    have hsource : (UInt32.ofNat k).toNat = k := UInt32.toNat_ofNat_of_lt' (by omega)
    have htarget : (UInt32.ofNat (k + 1)).toNat = k + 1 := UInt32.toNat_ofNat_of_lt' (by omega)
    rw [length_word_nodes]
    omega
  · intro p b q he
    obtain ⟨k, a, ha, -, hx, -⟩ := word_edge_iff.1 he
    obtain rfl := Label.literal.inj hx
    exact hw _ (List.mem_of_getElem? ha)
  · intro q hq
    obtain rfl := Option.some.inj hq
    rw [length_word_nodes]
    exact Nat.succ_pos _

variable [DecidableEq α]

theorem mem_finals_word_iff (hd : (wordDiagram alphabet w).Depicts m) :
    q ∈ m.finals ↔ q.toNat = w.length := by
  have hinner : ∀ n ∈ w.map fun _ => (⟨none, false⟩ : Node), n.isFinal = false := by simp
  rw [hd.mem_finals_iff_last rfl hinner, List.length_map]

theorem epsilonReach_iff_eq (h : ∀ p q, q ∉ m.destinations p .epsilon) :
    m.EpsilonReach p q ↔ p = q := by
  constructor
  · intro hpq
    rcases hpq.cases_head with heq | ⟨r, edge, -⟩
    · exact heq
    · exact absurd edge (h p r)
  · rintro rfl
    exact .refl

section Chain
variable (hm : m.WellFormed) (hd : (wordDiagram alphabet w).Depicts m)
  (fits : w.length < UInt32.size)
include hm hd

theorem reads_nil_word_iff : m.Reads p [] q ↔ p = q := by
  refine (reads_nil_iff hm).trans (epsilonReach_iff_eq fun p q edge => ?_)
  obtain ⟨_, _, -, -, hx, -⟩ := word_edge_iff.1 (hd.mem_destinations.1 edge)
  cases hx

include fits

/-- The one edge that leaves a place reads the symbol of the word there. -/
theorem edge_of_place_iff (hk : k ≤ w.length) :
    ⟨UInt32.ofNat k, .literal a, q⟩ ∈ m.transitions ↔
      w[k]? = some a ∧ q = UInt32.ofNat (k + 1) := by
  rw [hd.mem_transitions_iff hm.fits, word_edge_iff]
  constructor
  · intro h
    obtain ⟨j, b, hb, hplace, hx, rfl⟩ := h
    obtain rfl := Label.literal.inj hx
    have hlt := (List.getElem?_eq_some_iff.1 hb).1
    have hj : (UInt32.ofNat j).toNat = j := UInt32.toNat_ofNat_of_lt' (hlt.trans fits)
    rw [← hplace, UInt32.toNat_ofNat_of_lt' (hk.trans_lt fits)] at hj
    subst hj
    exact ⟨hb, rfl⟩
  · intro h
    exact ⟨k, a, h.1, rfl, rfl, h.2⟩

/-- From the state at a place the prefixes of the rest of the word are read. -/
theorem reads_place_iff (hk : k ≤ w.length) : m.Reads (UInt32.ofNat k) v q ↔
    v <+: w.drop k ∧ q = UInt32.ofNat (k + v.length) := by
  induction v generalizing k with
  | nil =>
    rw [reads_nil_word_iff hm hd, List.length_nil, Nat.add_zero]
    exact ⟨fun h => ⟨List.nil_prefix, h.symm⟩, fun h => h.2.symm⟩
  | cons a v ih =>
    have hfirst : a :: v <+: w.drop k ↔ w[k]? = some a ∧ v <+: w.drop (k + 1) := by
      rcases hk.lt_or_eq with hlt | rfl
      · rw [List.drop_eq_getElem_cons hlt, List.cons_prefix_cons, List.getElem?_eq_getElem hlt,
          Option.some.injEq, eq_comm]
      · simp
    have hlen : k + (a :: v).length = k + 1 + v.length := by
      rw [List.length_cons, Nat.add_assoc, Nat.add_comm 1]
    rw [reads_cons_iff, hfirst, hlen]
    constructor
    · intro h
      obtain ⟨p, r, hp, edge, hrest⟩ := h
      obtain rfl := (reads_nil_word_iff hm hd).1 hp
      obtain ⟨ha, rfl⟩ := (edge_of_place_iff hm hd fits hk).1 edge
      have hlt := (List.getElem?_eq_some_iff.1 ha).1
      obtain ⟨hv, hq⟩ := (ih hlt).1 hrest
      exact ⟨⟨ha, hv⟩, hq⟩
    · intro h
      obtain ⟨⟨ha, hv⟩, hq⟩ := h
      have hlt := (List.getElem?_eq_some_iff.1 ha).1
      exact ⟨_, _, .refl m _, (edge_of_place_iff hm hd fits hk).2 ⟨ha, rfl⟩, (ih hlt).2 ⟨hv, hq⟩⟩

theorem reads_start_iff : m.Reads 0 v q ↔ v <+: w ∧ q = UInt32.ofNat v.length := by
  have h := reads_place_iff (v := v) (q := q) hm hd fits (Nat.zero_le _)
  rwa [List.drop_zero, Nat.zero_add] at h

theorem language_of_wordDiagram : m.language = {w} := by
  ext v
  change v ∈ m.language ↔ v = w
  rw [mem_language_iff hm hd.initial]
  constructor
  · intro h
    obtain ⟨q, hq, hv⟩ := h
    obtain ⟨hstart, rfl⟩ := (reads_start_iff hm hd fits).1 hv
    have hlen := (mem_finals_word_iff hd).1 hq
    rw [UInt32.toNat_ofNat_of_lt' (hstart.length_le.trans_lt fits)] at hlen
    exact hstart.eq_of_length hlen
  · rintro rfl
    exact ⟨_, (mem_finals_word_iff hd).2 (UInt32.toNat_ofNat_of_lt' fits),
      (reads_start_iff hm hd fits).2 ⟨List.prefix_rfl, rfl⟩⟩

end Chain

end FiniteAutomata.Automaton
