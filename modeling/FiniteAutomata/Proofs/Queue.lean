import FiniteAutomata.Proofs.DiagramGrowth
import FiniteAutomata.Proofs.SubsetShape
import FiniteAutomata.Subset.Queue

/-! Between two expansions the table holds the subsets found so far, the queue those of them that
were not expanded, and the automaton is that of the diagram known by then (`Holds`). Each visit of a
symbol keeps this and discovers what the exploration does, so the loop ends when that one does. -/
namespace FiniteAutomata

/-- Subsets with their places in the list. -/
def numbered (found : List StateSet) : List (StateId × StateSet) :=
  found.zipIdx.map fun s => (UInt32.ofNat s.2, s.1)

section Numbered
variable {found found' : List StateSet} {s t : StateSet} {next : Nat}

theorem length_numbered (found : List StateSet) : (numbered found).length = found.length := by
  simp [numbered]

theorem numbered_append_singleton (found : List StateSet) (t : StateSet) :
    numbered (found ++ [t]) = numbered found ++ [(UInt32.ofNat found.length, t)] := by
  simp [numbered, List.zipIdx_append]

theorem numbered_isPrefix (h : found <+: found') : numbered found <+: numbered found' := by
  obtain ⟨new, rfl⟩ := h
  rw [numbered, numbered, List.zipIdx_append, List.map_append]
  exact List.prefix_append _ _

theorem drop_numbered (h : next < found.length) : (numbered found).drop next =
    (UInt32.ofNat next, found[next]) :: (numbered found).drop (next + 1) := by
  rw [List.drop_eq_getElem_cons (by rwa [length_numbered])]
  simp [numbered]

/-- A subset keeps its number when others are found. -/
theorem numberOf_of_isPrefix (h : found <+: found') (hs : s ∈ found) :
    numberOf found' s = numberOf found s := by
  obtain ⟨new, rfl⟩ := h
  rw [numberOf, List.idxOf_append_of_mem hs, numberOf]

theorem numberOf_append_singleton (hs : s ∉ found) :
    numberOf (found ++ [s]) s = UInt32.ofNat found.length := by
  rw [numberOf, List.idxOf_append_of_notMem hs, List.idxOf_cons_self, Nat.add_zero]

theorem lookup_swap_numbered (found : List StateSet) (s : StateSet) :
    ((numbered found).map Prod.swap).lookup s =
      if s ∈ found then some (numberOf found s) else none := by
  induction found using List.reverseRecOn with
  | nil => rfl
  | append_singleton found t ih =>
    rw [numbered_append_singleton, List.map_append, List.lookup_append, ih]
    by_cases hs : s ∈ found
    · have hkeep := numberOf_of_isPrefix (List.prefix_append found [t]) hs
      simp [hs, hkeep]
    · by_cases hst : s = t
      · subst hst
        have hlast := numberOf_append_singleton hs
        simp [hs, hlast]
      · simp [hs, hst, List.lookup_cons, beq_false_of_ne hst]

end Numbered

namespace Construction
open Automaton
variable {α : Type} [DecidableEq α] {m : Automaton α} {c c' : Construction α}
  {found found' final : List StateSet} {next : Nat} {edges : List (Edge α)} {s t : StateSet}
  {i p q : StateId} {a : α}

/-- The diagram of the subsets found so far, with the edges added so far. -/
def partialDiagram (m : Automaton α) (found : List StateSet) (edges : List (Edge α)) : Diagram α :=
  { m.subsetDiagram found with edges := edges }

theorem length_nodes_partialDiagram : (partialDiagram m found edges).nodes.length = found.length :=
  length_subset_nodes m found

/-- The conversion has found the subsets listed, has expanded those before number `next`, and has
added the edges listed. -/
structure Holds (m : Automaton α) (found : List StateSet) (next : Nat) (edges : List (Edge α))
    (c : Construction α) : Prop where
  table : c.table = (numbered found).map Prod.swap
  queue : c.queue = (numbered found).drop next
  dfa : c.dfa = (partialDiagram m found edges).automaton
  next_le : next ≤ found.length
  source_lt : ∀ e ∈ edges, e.source.toNat < found.length

theorem Holds.nextId (h : Holds m found next edges c) :
    c.dfa.nextId = UInt32.ofNat found.length := by
  rw [h.dfa, Diagram.nextId_automaton, length_nodes_partialDiagram]

/-- A subset that is allocated is the last one found. -/
theorem Holds.allocate (h : Holds m found next edges c) (t : StateSet) :
    Holds m (found ++ [t]) next edges (c.allocate m t).1 ∧
      (c.allocate m t).2 = UInt32.ofNat found.length := by
  have hnumbered := numbered_append_singleton found t
  have hlength := length_numbered found
  have hle := h.next_le
  refine ⟨⟨?_, ?_, ?_, ?_, ?_⟩, h.nextId⟩
  · simp [Construction.allocate, h.table, h.nextId, hnumbered]
  · simp only [Construction.allocate, h.queue, h.nextId, hnumbered]
    rw [List.drop_append_of_le_length (by omega)]
  · have hsource : ∀ e ∈ (partialDiagram m found edges).edges,
        e.source.toNat < (partialDiagram m found edges).nodes.length := by
      rw [length_nodes_partialDiagram]
      exact h.source_lt
    have hnode := Diagram.automaton_addNode hsource ⟨some (subsetName t.toList), t.meets m.finals⟩
    simp only [Construction.allocate, h.dfa, ← hnode]
    simp [partialDiagram, subsetDiagram]
  · rw [List.length_append]
    omega
  · intro e he
    have := h.source_lt e he
    rw [List.length_append]
    omega

/-- The state of a subset has the number that the subset gets when it is discovered. -/
theorem Holds.stateFor (h : Holds m found next edges c)
    (ht : discover (α := α) 0 found t = .ok found') :
    Holds m found' next edges (c.stateFor m t).1 ∧ (c.stateFor m t).2 = numberOf found' t := by
  have hlookup : c.table.lookup t = _ := h.table ▸ lookup_swap_numbered found t
  rcases discover_eq_ok_iff.1 ht with ⟨hold, rfl⟩ | ⟨hnew, -, rfl⟩
  · rw [if_pos hold] at hlookup
    rw [Construction.stateFor, hlookup]
    exact ⟨h, rfl⟩
  · rw [if_neg hnew] at hlookup
    rw [Construction.stateFor, hlookup, numberOf_append_singleton hnew]
    exact h.allocate t

/-- An edge between states of subsets that were found is not refused. -/
theorem Holds.addTransition (h : Holds m found next edges c) (fits : found.length ≤ UInt32.size)
    (ha : a ∈ m.alphabet) (hp : p.toNat < found.length) (hq : q.toNat < found.length) :
    ∃ dfa, c.dfa.addTransition p (.literal a) q = .ok dfa ∧
      Holds m found next (edges ++ [⟨p, .literal a, q⟩]) { c with dfa := dfa } := by
  have hnodes : (partialDiagram m found edges).nodes.length = found.length :=
    length_nodes_partialDiagram
  have hadd : c.dfa.addTransition p (.literal a) q =
      .ok (partialDiagram m found (edges ++ [⟨p, .literal a, q⟩])).automaton := by
    rw [h.dfa]
    exact Diagram.addTransition_automaton (d := partialDiagram m found edges)
      (e := ⟨p, .literal a, q⟩) (hnodes.trans_le fits) (fun b hb => Label.literal.inj hb ▸ ha)
      (hp.trans_eq hnodes.symm) (hq.trans_eq hnodes.symm)
  refine ⟨_, hadd, h.table, h.queue, rfl, h.next_le, ?_⟩
  intro e he
  rcases List.mem_append.1 he with he | he
  · exact h.source_lt e he
  · rwa [List.mem_singleton.1 he]

/-- One symbol: the subset that the step leads to is discovered, and the edge to its state added. -/
theorem Holds.visit (h : Holds m found next edges c) (ha : a ∈ m.alphabet)
    (hp : p.toNat < found.length) (hd : discover (α := α) 0 found (m.step s a) = .ok found')
    (hfinal : found' <+: final) (fits : final.length ≤ UInt32.size) :
    ∃ c', visit m p s c a = .ok c' ∧ Holds m found' next
      (edges ++ [⟨p, .literal a, numberOf final (m.step s a)⟩]) c' := by
  have hdiscovers := discovers_of_discover hd
  have hmem : m.step s a ∈ found' := hdiscovers.finds _ (List.mem_singleton_self _)
  have hgrow := hdiscovers.keeps.length_le
  have hfits : found'.length ≤ UInt32.size := hfinal.length_le.trans fits
  obtain ⟨hc, hq⟩ := h.stateFor hd
  rw [← numberOf_of_isPrefix hfinal hmem] at hq
  have hlt : (numberOf final (m.step s a)).toNat < found'.length := by
    rw [numberOf_of_isPrefix hfinal hmem, toNat_numberOf hfits hmem]
    exact List.idxOf_lt_length_of_mem hmem
  obtain ⟨dfa, hadd, hc'⟩ := hc.addTransition hfits ha (hp.trans_le hgrow) (hq ▸ hlt)
  rw [hq] at hc'
  refine ⟨_, ?_, hc'⟩
  rw [Construction.visit, moveOn_eq_ok ha]
  exact bind_eq_ok_iff.2 ⟨m.step s a, rfl, bind_eq_ok_iff.2 ⟨dfa, hadd, rfl⟩⟩

/-- Several symbols one after the other. -/
theorem Holds.visits {l : List α} (h : Holds m found next edges c) (hl : ∀ a ∈ l, a ∈ m.alphabet)
    (hp : p.toNat < found.length)
    (hd : (l.map (m.step s)).foldlM (discover (α := α) 0) found = .ok found')
    (hfinal : found' <+: final) (fits : final.length ≤ UInt32.size) :
    ∃ c', l.foldlM (Construction.visit m p s) c = .ok c' ∧ Holds m found' next
      (edges ++ l.map fun a => ⟨p, .literal a, numberOf final (m.step s a)⟩) c' := by
  induction l generalizing found edges c with
  | nil =>
    obtain rfl := Except.ok.inj hd
    exact ⟨c, rfl, by simpa using h⟩
  | cons a l ih =>
    obtain ⟨ha, hl⟩ := List.forall_mem_cons.1 hl
    rw [List.map_cons, List.foldlM_cons] at hd
    obtain ⟨mid, hmid, hd⟩ := bind_eq_ok_iff.1 hd
    have hgrow := (discovers_of_discover hmid).keeps.length_le
    have hmid' := (discovers_of_foldlM hd).keeps.trans hfinal
    obtain ⟨c₁, hc₁, h₁⟩ := h.visit ha hp hmid hmid' fits
    obtain ⟨c', hc', h'⟩ := ih h₁ hl (hp.trans_le hgrow) hd
    refine ⟨c', ?_, by simpa using h'⟩
    rw [List.foldlM_cons, hc₁]
    exact hc'

/-- One expansion: the front of the queue is taken off and its edges are added. -/
theorem Holds.expand (h : Holds m found next edges c) (hnext : next < found.length)
    (hd : m.discoverSteps 0 found found[next] = .ok found') (hfinal : found' <+: final)
    (fits : final.length ≤ UInt32.size) :
    ∃ c', expand m (UInt32.ofNat next) found[next]
        { c with queue := (numbered found).drop (next + 1) } = .ok c' ∧
      Holds m found' (next + 1) (edges ++ m.subsetEdges final found[next] next) c' := by
  have hgrow := (discovers_of_foldlM hd).keeps.length_le
  have hlt := hfinal.length_le
  have hnat : (UInt32.ofNat next).toNat = next := UInt32.toNat_ofNat_of_lt' (by omega)
  have hpop : Holds m found (next + 1) edges { c with queue := (numbered found).drop (next + 1) } :=
    { h with queue := rfl, next_le := hnext }
  exact hpop.visits (fun a ha => Alphabet.mem_symbols.1 ha) (hnat.trans_lt hnext) hd hfinal fits

/-- The edges that leave the first subsets of a list, up to number `next`. -/
def edgesBefore (m : Automaton α) (final : List StateSet) (next : Nat) : List (Edge α) :=
  (final.zipIdx.take next).flatMap fun s => m.subsetEdges final s.1 s.2

theorem edgesBefore_succ (hnext : next < final.length) : edgesBefore m final (next + 1) =
    edgesBefore m final next ++ m.subsetEdges final final[next] next := by
  have hlt : next < final.zipIdx.length := by rwa [List.length_zipIdx]
  rw [edgesBefore, List.take_succ_eq_append_getElem hlt, List.flatMap_append]
  simp [edgesBefore]

theorem edgesBefore_length : edgesBefore m final final.length = (m.subsetDiagram final).edges := by
  rw [edgesBefore, List.take_of_length_le (by rw [List.length_zipIdx])]
  rfl

/-- The loop goes on as long as the exploration does, and takes the subsets from the queue in the
order of their numbers. -/
theorem Holds.runs (h : Holds m found next (edgesBefore m final next) c)
    (hok : m.explore 0 found next = .ok final) (fits : final.length ≤ UInt32.size) :
    ∃ enqueued c', Runs m c enqueued ((numbered final).drop next) c' ∧
      c.queue ++ enqueued = (numbered final).drop next ∧
      Holds m final final.length (m.subsetDiagram final).edges c' := by
  -- The list found in the end stays the same throughout, and with it the numbers in the edges.
  fun_induction Automaton.explore m 0 found next generalizing c with
  | case1 found next hnext mid hmid ih =>
    have hgrow : found <+: mid := (discovers_of_foldlM hmid).keeps
    have hfinal : mid <+: final := prefix_of_explore hok
    have hlt : next < final.length := hnext.trans_le (hgrow.trans hfinal).length_le
    have hget : found[next] = final[next] := (hgrow.trans hfinal).getElem hnext
    obtain ⟨c₁, hc₁, h₁⟩ := h.expand hnext hmid hfinal fits
    rw [hget, ← edgesBefore_succ hlt] at h₁
    obtain ⟨enqueued, c', hruns, hqueue, h'⟩ := ih h₁ hok
    -- What the expansion found has joined the queue behind what was there.
    obtain ⟨joining, hjoining⟩ := numbered_isPrefix hgrow
    have hjoins : c₁.queue = (numbered found).drop (next + 1) ++ joining := by
      rw [h₁.queue, ← hjoining, List.drop_append_of_le_length (by rwa [length_numbered])]
    have hfront : c.queue = (UInt32.ofNat next, found[next]) :: (numbered found).drop (next + 1) :=
      h.queue.trans (drop_numbered hnext)
    refine ⟨joining ++ enqueued, c', ?_, ?_, h'⟩
    · rw [drop_numbered hlt, ← hget]
      exact .next hfront hc₁ hjoins hruns
    · rw [drop_numbered hlt, ← hqueue, hjoins, hfront, hget]
      simp
  | case2 found next hnext fault hfault => cases hok
  | case3 found next hnext =>
    obtain rfl := Except.ok.inj hok
    have hend : next = found.length := by
      have := h.next_le
      omega
    have hempty : (numbered found).drop next = [] :=
      List.drop_eq_nil_of_le (by rw [length_numbered, hend])
    have hqueue : c.queue = [] := h.queue.trans hempty
    refine ⟨[], c, ?_, ?_, ?_⟩
    · rw [hempty]
      exact .done hqueue
    · rw [hqueue, hempty, List.append_nil]
    · rwa [hend, edgesBefore_length] at h

/-- The loop starts with the closure of the initial state, which is not expanded yet. -/
theorem exists_start (hi : m.initial = some i) :
    ∃ c, start m = .ok c ∧ Holds m [m.closureOf i] 0 [] c := by
  have hmark : ((allocate m ⟨.empty m.alphabet, [], []⟩ (m.closureOf i)).1.dfa).setInitial 0 =
      .ok (partialDiagram m [m.closureOf i] []).automaton :=
    setInitial_eq_ok_iff.2 ⟨rfl, rfl⟩
  refine ⟨⟨(partialDiagram m [m.closureOf i] []).automaton, [(m.closureOf i, 0)],
    [(0, m.closureOf i)]⟩, ?_, rfl, rfl, rfl, Nat.zero_le _, by simp⟩
  rw [start, findInitial_eq_ok hi]
  exact bind_eq_ok_iff.2 ⟨i, rfl, bind_eq_ok_iff.2 ⟨_, hmark, rfl⟩⟩

/-- A loop that has ended with the result of a conversion, and every state of that result once in
the queue and once expanded. -/
structure Finishes (d : Determinized α) (c₀ : Construction α)
    (enqueued expanded : List (StateId × StateSet)) (c : Construction α) : Prop where
  dfa : c.dfa = d.dfa
  table : c.table = d.stateMapping.map Prod.swap
  in_order : expanded = d.stateMapping
  first_in_first_out : c₀.queue ++ enqueued = expanded
  enqueued_once : ∀ q, d.dfa.contains q = true →
    ((c₀.queue ++ enqueued).map Prod.fst).count q = 1
  expanded_once : ∀ q, d.dfa.contains q = true → (expanded.map Prod.fst).count q = 1

/-- Every state of a conversion is in the mapping once. -/
theorem count_stateMapping {d : Determinized α} (h : m.Determinizes i d)
    (hq : d.dfa.contains q = true) : (d.stateMapping.map Prod.fst).count q = 1 := by
  have hkeys : d.stateMapping.map Prod.fst = d.dfa.stateIds :=
    (map_fst_stateMapping d).trans h.stateIds_eq.symm
  rw [hkeys]
  exact List.count_eq_one_of_mem (stateIds_nodup h.size_le) ((mem_stateIds_iff h.size_le).2 hq)

/-- Without a limit the loop over the queue ends, and nothing in it is refused. It gives what the
conversion returns, which has at most two to the number of states of the original, and it enqueues
and expands each of these once. -/
theorem queue_ends_within_powerset (hm : m.Reachable) (hi : m.initial = some i)
    (hfit : ∀ found, m.reachedSubsets 0 = .ok found → found.length ≤ UInt32.size) :
    ∃ d c₀, m.determinize 0 = .ok d ∧ start m = .ok c₀ ∧
      (∃ enqueued expanded c, Runs m c₀ enqueued expanded c) ∧
      (∀ enqueued expanded c, Runs m c₀ enqueued expanded c →
        Finishes d c₀ enqueued expanded c) ∧
      d.dfa.stateCount ≤ 2 ^ m.stateCount := by
  obtain ⟨d, hok, hd⟩ := exists_determinize hi hfit
  obtain ⟨hfound, hbuild⟩ := determinize_eq_ok_iff.1 hok
  have hexplore : m.explore 0 [m.closureOf i] 0 = .ok d.subsets := reachedSubsets_eq hi ▸ hfound
  obtain ⟨c₀, hstart, hholds⟩ := exists_start hi
  obtain ⟨enqueued, c, hruns, hqueue, hend⟩ := hholds.runs hexplore hd.fits
  have hdfa : c.dfa = d.dfa := hend.dfa.trans (Diagram.eq_automaton hbuild).symm
  have hall : c₀.queue ++ enqueued = d.stateMapping := hqueue
  have hfinishes : Finishes d c₀ enqueued d.stateMapping c := by
    refine ⟨hdfa, hend.table, rfl, hall, fun q hq => ?_, fun q hq => count_stateMapping hd hq⟩
    rw [hall]
    exact count_stateMapping hd hq
  refine ⟨d, c₀, hok, hstart, ⟨enqueued, _, c, hruns⟩, ?_, ?_⟩
  · intro enqueued' expanded' c' hruns'
    obtain ⟨rfl, rfl, rfl⟩ := hruns.unique hruns'
    exact hfinishes
  · rw [hd.stateCount_eq]
    exact length_reachedSubsets_le hm.wellFormed hi hfound

theorem queue_ends_within_powerset_of_a_cycle : epsilonCycle.Reachable ∧
    epsilonCycle.initial = some 0 ∧
    (∀ found, epsilonCycle.reachedSubsets 0 = .ok found → found.length ≤ UInt32.size) ∧
    ∃ d c₀, epsilonCycle.determinize 0 = .ok d ∧ start epsilonCycle = .ok c₀ ∧
      (∃ enqueued expanded c, Runs epsilonCycle c₀ enqueued expanded c) ∧
      (∀ enqueued expanded c, Runs epsilonCycle c₀ enqueued expanded c →
        Finishes d c₀ enqueued expanded c) ∧
      d.dfa.stateCount ≤ 2 ^ epsilonCycle.stateCount := by
  have hfit : ∀ found, epsilonCycle.reachedSubsets 0 = .ok found → found.length ≤ UInt32.size :=
    fun _ => length_reachedSubsets_epsilonCycle_le
  exact ⟨reachable_epsilonCycle, initial_epsilonCycle, hfit,
    queue_ends_within_powerset reachable_epsilonCycle initial_epsilonCycle hfit⟩

end Construction
end FiniteAutomata
