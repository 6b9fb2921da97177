import FiniteAutomata.Proofs.Assembly
import FiniteAutomata.Proofs.BulkInsertion
import FiniteAutomata.Proofs.NthFromEnd
import FiniteAutomata.Workload.Assembly

namespace FiniteAutomata

namespace Diagram
open Automaton
variable {α : Type} [DecidableEq α] {m : Automaton α} {d : Diagram α} {p : StateId}
  {es : List (Label α × StateId)}

theorem putEdges_from (m : Automaton α) (p : StateId) (es : List (Label α × StateId)) :
    putEdges m (es.map fun e => ⟨p, e.1, e.2⟩) = m.withEdges p es := by
  induction es generalizing m with
  | nil => exact withEdges_nil.symm
  | cons e es ih =>
    have hrest := ih (m.withEdges p [e])
    rwa [withEdges_append] at hrest

/-- Edges that leave one state and join the diagram together. -/
theorem addMultiple_automaton (fits : d.nodes.length ≤ UInt32.size) (hp : p.toNat < d.nodes.length)
    (hes : ∀ e ∈ es, d.Fits ⟨p, e.1, e.2⟩) : d.automaton.addMultiple p es =
      .ok (automaton { d with edges := d.edges ++ es.map fun e => ⟨p, e.1, e.2⟩ }) := by
  refine addMultiple_eq_ok_iff.2 ⟨fun e he => ?_, (contains_automaton_iff fits).2 hp, ?_⟩
  · refine ⟨checkLabel_eq_ok_iff.2 ?_, (contains_automaton_iff fits).2 (hes e he).target⟩
    rw [alphabet_automaton]
    exact (hes e he).label
  · have hedges := putEdges_from (putEdges (withNodes d.alphabet d.nodes) d.edges) p es
    rw [putEdges, putEdges, ← List.foldl_append] at hedges
    rw [automaton, putEdges, hedges]
    rfl

end Diagram

namespace Workload
open Automaton
variable {n k : Nat} {m : Automaton Char}

/-- The start and the first `k` places of a chain of which place `n` is final. -/
def partialChain (n k : Nat) : Diagram Char :=
  { nthFromEndDiagram k with nodes := (List.range (k + 1)).map fun j => ⟨none, j == n⟩ }

theorem length_partialChain : (partialChain n k).nodes.length = k + 1 := by
  simp [partialChain]

theorem partialChain_self (hn : 1 ≤ n) : partialChain n n = nthFromEndDiagram n := by
  have hinner : (List.range n).map (fun j => (⟨none, j == n⟩ : Node)) =
      List.replicate n ⟨none, false⟩ := by
    refine List.eq_replicate_iff.2 ⟨by simp, fun c hc => ?_⟩
    obtain ⟨j, hj, rfl⟩ := List.mem_map.1 hc
    have hne := (List.mem_range.1 hj).ne
    simp [hne]
  simp [partialChain, nthFromEndDiagram, List.range_succ, hinner, Nat.max_eq_left hn]

theorem partialChain_succ (hk : 1 ≤ k) : partialChain n (k + 1) =
    { partialChain n k with
      nodes := (partialChain n k).nodes ++ [⟨none, k + 1 == n⟩]
      edges := (partialChain n k).edges ++
        bothDigits (UInt32.ofNat k) (UInt32.ofNat (k + 1)) (UInt32.ofNat (k + 1)) } := by
  have hrounds : List.range' 1 k = List.range' 1 (k - 1) ++ [k] := by
    obtain ⟨j, rfl⟩ := Nat.exists_eq_add_of_le' hk
    rw [List.range'_1_concat, Nat.add_sub_cancel, Nat.add_comm]
  simp [partialChain, nthFromEndDiagram, List.range_succ, hrounds]

theorem source_lt_partialChain (hk : 1 ≤ k) (fits : k + 1 ≤ UInt32.size) :
    ∀ e ∈ (partialChain n k).edges, e.source.toNat < k + 1 := by
  intro e he
  obtain ⟨p, x, q⟩ := e
  have hends := (valid_nthFromEndDiagram hk fits).ends_lt he
  rw [length_nth_nodes hk] at hends
  exact hends.1

/-- An edge for each digit, to one state. -/
theorem addDigits_automaton {d : Diagram Char} {p q : StateId} (halphabet : d.alphabet = binary)
    (fits : d.nodes.length ≤ UInt32.size) (hp : p.toNat < d.nodes.length)
    (hq : q.toNat < d.nodes.length) :
    d.automaton.addMultiple p [(.literal '0', q), (.literal '1', q)] =
      .ok (Diagram.automaton { d with edges := d.edges ++ bothDigits p q q }) := by
  refine Diagram.addMultiple_automaton fits hp fun e he => ⟨fun a ha => ?_, hp, ?_⟩
  · rw [halphabet, mem_binary_iff]
    rcases List.mem_pair.1 he with rfl | rfl
    · exact .inl (Label.literal.inj ha).symm
    · exact .inr (Label.literal.inj ha).symm
  · rcases List.mem_pair.1 he with rfl | rfl
    · exact hq
    · exact hq

/-- One round of the loop. -/
theorem extendByDigit_automaton (hk : 1 ≤ k) (fits : k + 2 ≤ UInt32.size) :
    extendByDigit n ((partialChain n k).automaton, UInt32.ofNat k) k =
      .ok ((partialChain n (k + 1)).automaton, UInt32.ofNat (k + 1)) := by
  have hlength := length_partialChain (n := n) (k := k)
  have hsource := source_lt_partialChain (n := n) hk (by omega)
  rw [← hlength] at hsource
  have hnode := Diagram.automaton_addNode hsource ⟨none, k + 1 == n⟩
  have hgrown : ((partialChain n k).nodes ++ [(⟨none, k + 1 == n⟩ : Node)]).length = k + 2 := by
    rw [List.length_append, hlength, List.length_singleton]
  have hplace : (UInt32.ofNat k).toNat < k + 2 := by
    rw [UInt32.toNat_ofNat_of_lt' (by omega)]
    omega
  have hnext : (UInt32.ofNat (k + 1)).toNat < k + 2 := by
    rw [UInt32.toNat_ofNat_of_lt' fits]
    omega
  have hedges := addDigits_automaton
    (d := { partialChain n k with
      nodes := (partialChain n k).nodes ++ [⟨none, k + 1 == n⟩] })
    rfl (hgrown.trans_le fits) (hplace.trans_eq hgrown.symm) (hnext.trans_eq hgrown.symm)
  rw [extendByDigit, Diagram.nextId_automaton, ← hnode, hlength, hedges, partialChain_succ hk]
  rfl

theorem foldlM_extendByDigit (hk : k + 2 ≤ UInt32.size) :
    (List.range' 1 k).foldlM (extendByDigit n) ((partialChain n 1).automaton, 1) =
      .ok ((partialChain n (k + 1)).automaton, UInt32.ofNat (k + 1)) := by
  induction k with
  | zero => rfl
  | succ k ih =>
    have hstep := extendByDigit_automaton (n := n) (k := k + 1) (by omega) hk
    rw [List.range'_1_concat, List.foldlM_append, ih (by omega), ok_bind, List.foldlM_cons,
      Nat.add_comm 1 k, hstep]
    rfl

/-- The start, with an edge to itself for each digit. -/
def startLoops : Diagram Char where
  alphabet := binary
  nodes := [⟨none, false⟩]
  initial := some 0
  edges := bothDigits 0 0 0

theorem partialChain_one (hn : 1 ≤ n) : partialChain n 1 =
    { startLoops with
      nodes := startLoops.nodes ++ [⟨none, n ≤ 1⟩]
      edges := startLoops.edges ++ [⟨0, .literal '1', 1⟩] } := by
  have hzero : (0 == n) = false := by simpa using Nat.ne_of_lt hn
  have hone : (1 == n) = decide (n ≤ 1) := by
    rw [Bool.eq_iff_iff, beq_iff_eq, decide_eq_true_eq]
    omega
  simp [partialChain, nthFromEndDiagram, startLoops, List.range_succ, hzero, hone]

theorem addMultiple_start : ((empty binary).addState true false none).addMultiple 0
    [(.literal '0', 0), (.literal '1', 0)] = .ok startLoops.automaton :=
  addDigits_automaton (d := { startLoops with edges := [] }) rfl (by decide) (by decide) (by decide)

theorem addFirstPlace (hn : 1 ≤ n) :
    (startLoops.automaton.addState false (n ≤ 1) none).addTransition 0 (.literal '1') 1 =
      .ok (partialChain n 1).automaton := by
  have hlength : (startLoops.nodes ++ [(⟨none, n ≤ 1⟩ : Node)]).length = 2 := rfl
  have hnode := Diagram.automaton_addNode (d := startLoops) (by decide) ⟨none, n ≤ 1⟩
  rw [← hnode, partialChain_one hn]
  refine Diagram.addTransition_automaton (e := ⟨0, .literal '1', 1⟩)
    (d := { startLoops with nodes := startLoops.nodes ++ [⟨none, n ≤ 1⟩] }) ?_ ?_ ?_ ?_
  · rw [hlength]
    decide
  · simp [startLoops, mem_binary_iff]
  · exact Nat.zero_lt_two
  · exact Nat.one_lt_two

theorem assembleNthFromEnd_eq_of_pos (hn : 1 ≤ n) (fits : n + 1 ≤ UInt32.size) :
    assembleNthFromEnd n = nthFromEnd n := by
  have hrounds := foldlM_extendByDigit (n := n) (k := n - 1) (by omega)
  rw [Nat.sub_add_cancel hn, partialChain_self hn] at hrounds
  have hstart : (empty binary).nextId = 0 := rfl
  have hnext : startLoops.automaton.nextId = 1 := Diagram.nextId_automaton startLoops
  rw [nthFromEnd, (valid_nthFromEndDiagram hn fits).build_eq]
  simp only [assembleNthFromEnd, hstart, addMultiple_start, ok_bind, hnext, addFirstPlace hn,
    hrounds]
  rfl

/-- Zero counts as one in both ways. -/
theorem assembleNthFromEnd_eq (fits : max n 1 + 1 ≤ UInt32.size) :
    assembleNthFromEnd n = nthFromEnd n := by
  cases n with
  | zero => exact assembleNthFromEnd_eq_of_pos (n := 1) le_rfl (by decide)
  | succ n => exact assembleNthFromEnd_eq_of_pos (Nat.le_add_left 1 n) (by omega)

/-- The answers of an automaton that decides by the `n`-th symbol from the end. It always has a
state left to read with, so it overlooks no foreign symbol. -/
structure AnswersByNth (m : Automaton Char) (n : Nat) : Prop where
  answer : ∀ w, (∀ a ∈ w, a = '0' ∨ a = '1') → ∃ b, m.accepts w = .ok b ∧
    (b = true ↔ n ≤ w.length ∧ w[w.length - n]? = some '1')
  lives : ∀ w, (∀ a ∈ w, a = '0' ∨ a = '1') → ∃ s, m.run w = .ok s ∧ s ≠ ∅
  foreign : ∀ u x v, (∀ a ∈ u, a = '0' ∨ a = '1') → x ≠ '0' → x ≠ '1' →
    m.accepts (u ++ x :: v) = .error (.invalidSymbol x)

theorem answersByNth (hn : 1 ≤ n) (fits : n + 1 ≤ UInt32.size)
    (hd : (nthFromEndDiagram n).Depicts m) : AnswersByNth m n := by
  have hstart : ∀ {w : List Char}, (∀ a ∈ w, a ∈ binary) → m.stepAll (m.closureOf 0) w ≠ ∅ := by
    intro w hw hempty
    have hzero := (mem_stepAll_nth_iff (q := 0) hn fits hd hw).2 (.inl rfl)
    rw [hempty] at hzero
    exact StateSet.not_mem_empty 0 hzero
  have hover : ∀ {w : List Char}, (∀ a ∈ w, a = '0' ∨ a = '1') → ∀ a ∈ w, a ∈ binary :=
    fun hw a ha => mem_binary_iff.2 (hw a ha)
  refine ⟨fun w hw => ?_, fun w hw => ?_, fun u x v hu hzero hone => ?_⟩
  · refine ⟨_, accepts_nth hn fits hd hd.initial hd.alphabet (hover hw), ?_⟩
    rw [decide_eq_true_eq, getElem?_reverse_pred_iff hn]
  · have halphabet : ∀ a ∈ w, a ∈ m.alphabet := hd.alphabet ▸ hover hw
    exact ⟨_, run_eq_ok hd.initial halphabet, hstart (hover hw)⟩
  · have halphabet : ∀ a ∈ u, a ∈ m.alphabet := hd.alphabet ▸ hover hu
    have hx : x ∉ m.alphabet := by
      rw [hd.alphabet]
      exact fun h => (mem_binary_iff.1 h).elim hzero hone
    rw [accepts_foreign hd.initial halphabet hx, if_neg (hstart (hover hu))]

/-- Put together round by round or as one diagram, it is the same automaton, and for zero it is that
for one. It has one state more than the place from the end by which it decides, and the first symbol
of a word that is no digit is a fault wherever it stands. -/
theorem nthFromEnd_answers_by_nth (n : Nat) (fits : max n 1 + 1 ≤ UInt32.size) :
    assembleNthFromEnd n = nthFromEnd n ∧ nthFromEnd n = nthFromEnd (max n 1) ∧
      ∃ m, nthFromEnd n = .ok m ∧ m.stateCount = max n 1 + 1 ∧ AnswersByNth m (max n 1) := by
  -- zero is the only number below one, and the diagrams for both are the same term
  have hsame : nthFromEnd n = nthFromEnd (max n 1) := by
    cases n with
    | zero => rfl
    | succ n => rw [Nat.max_eq_left (Nat.le_add_left 1 n)]
  have hn : 1 ≤ max n 1 := Nat.le_max_right n 1
  obtain ⟨m, hm, hd⟩ := (valid_nthFromEndDiagram hn fits).exists_build
  have hlength := length_nth_nodes hn
  refine ⟨assembleNthFromEnd_eq fits, hsame, m, hsame.trans hm, ?_, answersByNth hn fits hd⟩
  rw [hd.stateCount_eq (hlength.trans_le fits), hlength]

/-- Among four digits the third from the end is the second one. -/
theorem nthFromEnd_answers_by_nth_three : max 0 1 + 1 ≤ UInt32.size ∧ max 3 1 + 1 ≤ UInt32.size ∧
    nthFromEnd 0 = nthFromEnd 1 ∧ ∃ m, nthFromEnd 3 = .ok m ∧ m.stateCount = 4 ∧
      m.accepts ['0', '1', '0', '0'] = .ok true ∧ m.accepts ['1', '0', '1', '1'] = .ok false ∧
      m.accepts ['1', '1'] = .ok false ∧
      m.accepts ['1', '2', '0', 'x'] = .error (.invalidSymbol '2') := by
  have fits : max 0 1 + 1 ≤ UInt32.size := by decide
  have fits' : max 3 1 + 1 ≤ UInt32.size := by decide
  obtain ⟨-, hzero, -⟩ := nthFromEnd_answers_by_nth 0 fits
  obtain ⟨-, -, m, hm, hcount, hanswers⟩ := nthFromEnd_answers_by_nth 3 fits'
  have hanswer : ∀ w : List Char, (∀ a ∈ w, a = '0' ∨ a = '1') →
      m.accepts w = .ok (decide (3 ≤ w.length ∧ w[w.length - 3]? = some '1')) := by
    intro w hw
    obtain ⟨b, hb, hiff⟩ := hanswers.answer w hw
    rw [hb, Except.ok.injEq, Bool.eq_iff_iff, decide_eq_true_eq]
    exact hiff
  exact ⟨fits, fits', hzero, m, hm, hcount, hanswer ['0', '1', '0', '0'] (by simp),
    hanswer ['1', '0', '1', '1'] (by simp), hanswer ['1', '1'] (by simp),
    hanswers.foreign ['1'] '2' ['0', 'x'] (by simp) (by simp) (by simp)⟩

end Workload
end FiniteAutomata
