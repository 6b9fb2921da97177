import FiniteAutomata.Proofs.Copy
import FiniteAutomata.Proofs.Simulation

/-! An accepting path of the concatenation crosses over once, from a final state of the first copy
to the initial state of the second. It is cut there, and both parts are taken back to the operands.
-/
namespace FiniteAutomata.Automaton
variable {α : Type} [DecidableEq α] {a b c : Automaton α} {i j p q r : StateId} {x : Label α}
  {xs : List (Label α)}

omit [DecidableEq α] in
theorem concat_edge_iff : ⟨p, x, r⟩ ∈ (a.concatDiagram b i j).edges ↔
    ⟨p, x, r⟩ ∈ a.copiedEdges 0 ∨ ⟨p, x, r⟩ ∈ b.copiedEdges a.stateCount ∨
      ∃ k ∈ a.finals, p = a.renumbered 0 k ∧ x = .epsilon ∧ r = b.renumbered a.stateCount j := by
  simp only [concatDiagram, List.mem_append, List.mem_map, or_assoc, Edge.epsilon, Edge.mk.injEq,
    StateSet.mem_toList]
  simp only [eq_comm]

omit [DecidableEq α] in
theorem length_concat_nodes :
    (a.concatDiagram b i j).nodes.length = a.stateCount + b.stateCount := by
  simp [concatDiagram]

theorem valid_concatDiagram (ha : a.WellFormed) (hb : b.WellFormed) (hi : a.initial = some i)
    (hj : b.initial = some j) (hab : ∀ x, x ∈ a.alphabet ↔ x ∈ b.alphabet)
    (fits : a.stateCount + b.stateCount ≤ UInt32.size) : (a.concatDiagram b i j).Valid := by
  have hafits : 0 + a.stateCount ≤ UInt32.size := by omega
  have hi' := inCopy_renumbered ha hafits (ha.initial_live hi)
  have hj' := inCopy_renumbered hb fits (hb.initial_live hj)
  refine ⟨?_, ?_, ?_, ?_⟩
  · rwa [length_concat_nodes]
  · intro p x r he
    rw [length_concat_nodes]
    rcases concat_edge_iff.1 he with he | he | ⟨k, hk, rfl, -, rfl⟩
    · obtain ⟨⟨-, hp⟩, -, hr⟩ := inCopy_of_mem_copiedEdges ha hafits he
      omega
    · obtain ⟨⟨-, hp⟩, -, hr⟩ := inCopy_of_mem_copiedEdges hb fits he
      exact ⟨hp, hr⟩
    · have hlt := (inCopy_renumbered ha hafits (ha.final_live hk)).2
      exact ⟨by omega, hj'.2⟩
  · intro p s r he
    rcases concat_edge_iff.1 he with he | he | ⟨k, -, -, hx, -⟩
    · exact label_valid_of_mem_copiedEdges ha he
    · exact (hab s).2 (label_valid_of_mem_copiedEdges hb he)
    · cases hx
  · intro q hq
    obtain rfl := Option.some.inj hq
    have hlt := hi'.2
    rw [length_concat_nodes]
    omega

theorem concat_edge_of_first (ha : a.WellFormed) (hb : b.WellFormed)
    (fits : a.stateCount + b.stateCount ≤ UInt32.size) (hp : a.contains p = true)
    (he : ⟨a.renumbered 0 p, x, r⟩ ∈ (a.concatDiagram b i j).edges) :
    (∃ q, ⟨p, x, q⟩ ∈ a.transitions ∧ r = a.renumbered 0 q) ∨
      p ∈ a.finals ∧ x = .epsilon ∧ r = b.renumbered a.stateCount j := by
  have hafits : 0 + a.stateCount ≤ UInt32.size := by omega
  rcases concat_edge_iff.1 he with he | he | ⟨k, hk, hpk, hx, hr⟩
  · exact .inl (exists_of_mem_copiedEdges ha hafits hp he)
  · have hin := (inCopy_of_mem_copiedEdges hb fits he).1.1
    have hlt := (inCopy_renumbered ha hafits hp).2
    omega
  · obtain rfl := (renumbered_inj ha hafits hp (ha.final_live hk)).1 hpk
    exact .inr ⟨hk, hx, hr⟩

theorem concat_edge_of_second (ha : a.WellFormed) (hb : b.WellFormed)
    (fits : a.stateCount + b.stateCount ≤ UInt32.size) (hp : b.contains p = true)
    (he : ⟨b.renumbered a.stateCount p, x, r⟩ ∈ (a.concatDiagram b i j).edges) :
    ∃ q, ⟨p, x, q⟩ ∈ b.transitions ∧ r = b.renumbered a.stateCount q := by
  have hafits : 0 + a.stateCount ≤ UInt32.size := by omega
  have hge := (inCopy_renumbered hb fits hp).1
  rcases concat_edge_iff.1 he with he | he | ⟨k, hk, hpk, -, -⟩
  · have hlt := (inCopy_of_mem_copiedEdges ha hafits he).1.2
    omega
  · exact exists_of_mem_copiedEdges hb fits hp he
  · have hlt := (inCopy_renumbered ha hafits (ha.final_live hk)).2
    rw [← hpk] at hlt
    omega

theorem mem_finals_concat_iff (hb : b.WellFormed)
    (fits : a.stateCount + b.stateCount ≤ UInt32.size)
    (hd : (a.concatDiagram b i j).Depicts c) :
    r ∈ c.finals ↔ ∃ q ∈ b.finals, r = b.renumbered a.stateCount q := by
  have hnodes : (a.concatDiagram b i j).nodes = a.innerNodes ++ b.nodes := rfl
  rw [hd.mem_finals, hnodes, List.getElem?_append, length_innerNodes]
  have hnat : ∀ {q}, q ∈ b.finals → (r = b.renumbered a.stateCount q ↔
      a.stateCount + b.stateIds.idxOf q = r.toNat) := by
    intro q hq
    rw [← UInt32.toNat_inj, toNat_renumbered hb fits (hb.final_live hq), eq_comm]
  split_ifs with hlt
  · constructor
    · intro h
      obtain ⟨n, hn, hf⟩ := h
      rw [isFinal_of_mem_innerNodes (List.mem_of_getElem? hn)] at hf
      cases hf
    · intro h
      obtain ⟨q, hq, hr⟩ := h
      have heq := (hnat hq).1 hr
      omega
  · rw [exists_final_node_iff hb]
    refine exists_congr fun q => and_congr_right fun hq => ?_
    rw [hnat hq]
    omega

/-- A path between the two copies leaves the first one at a final state, and cannot leave the second
one. -/
theorem word_mem_mul_of_path (ha : a.WellFormed) (hb : b.WellFormed) (hc : c.WellFormed)
    (hi : a.initial = some i) (hj : b.initial = some j)
    (fits : a.stateCount + b.stateCount ≤ UInt32.size) (hd : (a.concatDiagram b i j).Depicts c)
    (hq : q ∈ b.finals) (h : c.Path (a.renumbered 0 i) xs (b.renumbered a.stateCount q)) :
    Label.word xs ∈ a.language * b.language := by
  have hafits : 0 + a.stateCount ≤ UInt32.size := by omega
  have hedge : ∀ {p x r}, ⟨p, x, r⟩ ∈ c.transitions ↔ ⟨p, x, r⟩ ∈ (a.concatDiagram b i j).edges :=
    hd.mem_transitions_iff hc.fits
  have hilive := ha.initial_live hi
  have hjlive := hb.initial_live hj
  have hge := (inCopy_renumbered hb fits (hb.final_live hq)).1
  rcases h.stays_or_leaves ha (fun hp he => concat_edge_of_first ha hb fits hp (hedge.1 he)) hilive
    with ⟨q', hq', hstay⟩ | ⟨us, x, vs, k, o, hxs, hus, ⟨hk, hx, ho⟩, hvs⟩
  · have hlt := (inCopy_renumbered ha hafits (hstay.target_live ha hilive)).2
    rw [← hq'] at hlt
    omega
  · subst hxs hx ho
    obtain ⟨q', hq', hstay⟩ := hvs.stays hb
      (fun hp he => concat_edge_of_second ha hb fits hp (hedge.1 he)) hjlive
    have hlive := hstay.target_live hb hjlive
    obtain rfl := (renumbered_inj hb fits (hb.final_live hq) hlive).1 hq'
    have hu : Label.word us ∈ a.language := (mem_language_iff ha hi).2 ⟨k, hk, hus.reads⟩
    have hv : Label.word vs ∈ b.language := (mem_language_iff hb hj).2 ⟨q, hq, hstay.reads⟩
    rw [word_append, word_cons_epsilon]
    exact Language.mem_mul.2 ⟨_, hu, _, hv, rfl⟩

theorem language_of_concatDiagram (ha : a.WellFormed) (hb : b.WellFormed) (hc : c.WellFormed)
    (hi : a.initial = some i) (hj : b.initial = some j)
    (fits : a.stateCount + b.stateCount ≤ UInt32.size)
    (hd : (a.concatDiagram b i j).Depicts c) : c.language = a.language * b.language := by
  have hedge : ∀ {p x r}, ⟨p, x, r⟩ ∈ c.transitions ↔ ⟨p, x, r⟩ ∈ (a.concatDiagram b i j).edges :=
    hd.mem_transitions_iff hc.fits
  ext w
  rw [mem_language_iff hc hd.initial]
  constructor
  · intro h
    obtain ⟨r, hr, xs, hpath, rfl⟩ := h
    obtain ⟨q, hq, rfl⟩ := (mem_finals_concat_iff hb fits hd).1 hr
    exact word_mem_mul_of_path ha hb hc hi hj fits hd hq hpath
  · intro h
    obtain ⟨u, hu, v, hv, rfl⟩ := Language.mem_mul.1 h
    obtain ⟨k, hk, hu⟩ := (mem_language_iff ha hi).1 hu
    obtain ⟨q, hq, hv⟩ := (mem_language_iff hb hj).1 hv
    have hfirst : c.Reads (a.renumbered 0 i) u (a.renumbered 0 k) :=
      hu.map fun he => hedge.2 (concat_edge_iff.2 (.inl (mem_copiedEdges_of_mem_transitions he)))
    have hsecond : c.Reads (b.renumbered a.stateCount j) v (b.renumbered a.stateCount q) :=
      hv.map fun he =>
        hedge.2 (concat_edge_iff.2 (.inr (.inl (mem_copiedEdges_of_mem_transitions he))))
    have hbridge : ⟨a.renumbered 0 k, .epsilon, b.renumbered a.stateCount j⟩ ∈ c.transitions :=
      hedge.2 (concat_edge_iff.2 (.inr (.inr ⟨k, hk, rfl, rfl, rfl⟩)))
    have hfinal := (mem_finals_concat_iff hb fits hd).2 ⟨q, hq, rfl⟩
    exact ⟨_, hfinal, hfirst.append (hsecond.epsilon hbridge)⟩

/-- Two automata over the same symbols have a concatenation, and it accepts a word over them if and
only if the word is one of the first followed by one of the second. -/
theorem concat_decides_product (ha : a.Reachable) (hb : b.Reachable) (hi : a.initial = some i)
    (hj : b.initial = some j) (hab : ∀ x, x ∈ a.alphabet ↔ x ∈ b.alphabet)
    (fits : a.stateCount + b.stateCount ≤ UInt32.size) :
    ∃ c, a.concat b = .ok c ∧ c.alphabet = a.alphabet ∧ c.Decides (a.language * b.language) := by
  have hva := ha.wellFormed
  have hvb := hb.wellFormed
  obtain ⟨c, hbuild, hd, hc⟩ := (valid_concatDiagram hva hvb hi hj hab fits).build
  refine ⟨c, ?_, hd.alphabet, ?_⟩
  · rw [concat, findOperands_eq_ok hi hj hab]
    exact hbuild
  · rw [← language_of_concatDiagram hva hvb hc hi hj fits hd]
    exact decides_language hd.initial

/-- An operand may be concatenated with itself. -/
theorem concat_decides_product_of_a_cycle : epsilonCycle.Reachable ∧
    epsilonCycle.initial = some 0 ∧
    (∀ x, x ∈ epsilonCycle.alphabet ↔ x ∈ epsilonCycle.alphabet) ∧
    epsilonCycle.stateCount + epsilonCycle.stateCount ≤ UInt32.size ∧
    ∃ c, epsilonCycle.concat epsilonCycle = .ok c ∧ c.alphabet = epsilonCycle.alphabet ∧
      c.Decides (epsilonCycle.language * epsilonCycle.language) :=
  ⟨reachable_epsilonCycle, initial_epsilonCycle, fun _ => Iff.rfl, by decide +kernel,
    concat_decides_product reachable_epsilonCycle reachable_epsilonCycle initial_epsilonCycle
      initial_epsilonCycle (fun _ => Iff.rfl) (by decide +kernel)⟩

end FiniteAutomata.Automaton
