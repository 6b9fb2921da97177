import FiniteAutomata.Proofs.Concat
import FiniteAutomata.Proofs.DiagramGrowth
import FiniteAutomata.Proofs.Star
import FiniteAutomata.Proofs.Union
import FiniteAutomata.Regular.Assembly

namespace FiniteAutomata

namespace Renumbering
variable {α : Type} {t : Renumbering} {q r : StateId}

theorem find_eq_ok (h : t.entries.lookup q = some r) : (t.find q : Except (Fault α) _) = .ok r := by
  rw [find, h]

end Renumbering

namespace Diagram
open Automaton
variable {α : Type} [DecidableEq α] {m : Automaton α} {d : Diagram α} {edges : List (Edge α)}
  {q : StateId} {offset : Nat}

/-- The edge could be one of the diagram: its symbol and its ends are there. -/
structure Fits (d : Diagram α) (e : Edge α) : Prop where
  label : ∀ a, e.label = .literal a → a ∈ d.alphabet
  source : e.source.toNat < d.nodes.length
  target : e.target.toNat < d.nodes.length

theorem addEdges_automaton (fits : d.nodes.length ≤ UInt32.size) (h : ∀ e ∈ edges, d.Fits e) :
    addEdges d.automaton edges = .ok (automaton { d with edges := d.edges ++ edges }) := by
  induction edges generalizing d with
  | nil => simp [addEdges, pure, Except.pure]
  | cons e edges ih =>
    obtain ⟨he, hedges⟩ := List.forall_mem_cons.1 h
    have hrest := ih (d := { d with edges := d.edges ++ [e] }) fits fun e' he' =>
      ⟨(hedges e' he').label, (hedges e' he').source, (hedges e' he').target⟩
    rw [addEdges, List.foldlM_cons, addTransition_automaton fits he.label he.source he.target]
    rwa [List.append_assoc] at hrest

theorem addEdges_singleton (out : Automaton α) (e : Edge α) :
    addEdges out [e] = out.addTransition e.source e.label e.target :=
  bind_pure _

/-- Steps of which each adds edges add all of them. -/
theorem foldlM_eq_addEdges {β : Type} {step : Automaton α → β → Except (Fault α) (Automaton α)}
    {added : β → List (Edge α)} {l : List β}
    (hstep : ∀ b ∈ l, ∀ out, step out b = addEdges out (added b)) (out : Automaton α) :
    l.foldlM step out = addEdges out (l.flatMap added) := by
  induction l generalizing out with
  | nil => rfl
  | cons b l ih =>
    obtain ⟨hb, hl⟩ := List.forall_mem_cons.1 hstep
    rw [List.foldlM_cons, hb, List.flatMap_cons, addEdges, addEdges, List.foldlM_append]
    exact bind_congr (ih hl)

theorem copyStates_automaton (h : ∀ e ∈ d.edges, e.source.toNat < d.nodes.length)
    (states : List (StateId × String)) : d.automaton.copyStates states =
      (automaton { d with nodes := d.nodes ++ states.map fun s => ⟨some s.2, false⟩ },
        ⟨states.zipIdx.map fun c => (c.1.1, UInt32.ofNat (d.nodes.length + c.2))⟩) := by
  -- from the end of the list, where the nodes and the table grow
  induction states using List.reverseRecOn with
  | nil =>
    rw [List.map_nil, List.append_nil]
    rfl
  | append_singleton states s ih =>
    have hsource : ∀ e ∈ d.edges, e.source.toNat <
        (d.nodes ++ states.map fun s => (⟨some s.2, false⟩ : Node)).length := fun e he =>
      (h e he).trans_le (by simp)
    have hnode := automaton_addNode
      (d := { d with nodes := d.nodes ++ states.map fun s => ⟨some s.2, false⟩ }) hsource
      ⟨some s.2, false⟩
    rw [copyStates, List.foldl_append, ← copyStates, ih]
    simp only [List.foldl_cons, List.foldl_nil, ← hnode, nextId_automaton, Renumbering.add]
    simp [List.zipIdx_append]

omit [DecidableEq α] in
/-- The numbers that the states of a copy get if the first of them gets `offset`. -/
def copyTable (m : Automaton α) (offset : Nat) : Renumbering :=
  ⟨m.states.zipIdx.map fun c => (c.1.1, UInt32.ofNat (offset + c.2))⟩

theorem find_copyTable (hm : m.WellFormed) (offset : Nat) (hq : m.contains q = true) :
    (copyTable m offset).find q = (.ok (m.renumbered offset q) : Except (Fault α) StateId) := by
  have hentries : (copyTable m offset).entries =
      m.stateIds.zipIdx.map fun c => (c.1, UInt32.ofNat (offset + c.2)) := by
    have hids : m.stateIds = m.states.map (·.1) := by simp [states, stateIds]
    rw [copyTable, hids, List.zipIdx_map, List.map_map]
    rfl
  apply Renumbering.find_eq_ok
  rw [hentries, lookup_zipIdx_map ((mem_stateIds_iff hm.fits).2 hq)
    (fun k => UInt32.ofNat (offset + k)), Nat.zero_add, renumbered]

/-- Copying into the automaton of a diagram puts the nodes and edges that are copied into the
diagram. -/
theorem copyInto_automaton (hm : m.WellFormed) (h : ∀ e ∈ d.edges, e.source.toNat < d.nodes.length)
    (hlabels : ∀ a ∈ m.alphabet, a ∈ d.alphabet)
    (fits : d.nodes.length + m.stateCount ≤ UInt32.size) : d.automaton.copyInto m =
      .ok (automaton { d with
        nodes := d.nodes ++ m.innerNodes
        edges := d.edges ++ m.copiedEdges d.nodes.length }, copyTable m d.nodes.length) := by
  have hlength : (d.nodes ++ m.innerNodes).length = d.nodes.length + m.stateCount := by simp
  have hstep : ∀ e ∈ m.transitions, ∀ out : Automaton α, (do
      out.addTransition (← (copyTable m d.nodes.length).find e.source) e.label
        (← (copyTable m d.nodes.length).find e.target)) =
        addEdges out [e.renumber (m.renumbered d.nodes.length)] := by
    intro e he out
    obtain ⟨hsource, htarget⟩ := hm.ends_live he
    rw [addEdges_singleton, find_copyTable hm _ hsource, find_copyTable hm _ htarget]
    rfl
  have hfit : ∀ e ∈ m.copiedEdges d.nodes.length,
      Fits { d with nodes := d.nodes ++ m.innerNodes } e := by
    intro e he
    obtain ⟨p, x, q⟩ := e
    obtain ⟨⟨-, hp⟩, -, hq⟩ := inCopy_of_mem_copiedEdges hm fits he
    refine ⟨fun a ha => ?_, hlength ▸ hp, hlength ▸ hq⟩
    obtain rfl : x = .literal a := ha
    exact hlabels a (label_valid_of_mem_copiedEdges hm he)
  have hedges := foldlM_eq_addEdges hstep (automaton { d with nodes := d.nodes ++ m.innerNodes })
  rw [← List.map_eq_flatMap, ← copiedEdges,
    addEdges_automaton (d := { d with nodes := d.nodes ++ m.innerNodes }) (hlength ▸ fits) hfit]
    at hedges
  rw [copyInto, copyStates_automaton h]
  exact congrArg (· >>= fun out => pure (out, copyTable m d.nodes.length)) hedges

/-- The automaton of a diagram with only some of its edges yet. -/
def sketch (d : Diagram α) (edges : List (Edge α)) : Automaton α :=
  automaton { d with edges := edges }

theorem Valid.addEdges_sketch (h : d.Valid) (hmem : ∀ e ∈ edges, e ∈ d.edges)
    (before : List (Edge α)) :
    Diagram.addEdges (d.sketch before) edges = .ok (d.sketch (before ++ edges)) := by
  refine addEdges_automaton (d := { d with edges := before }) h.fits fun e he => ?_
  obtain ⟨p, x, q⟩ := e
  have hends := h.ends_lt (hmem _ he)
  refine ⟨fun a ha => ?_, hends.1, hends.2⟩
  obtain rfl : x = .literal a := ha
  exact h.label_valid (hmem _ he)

theorem addEpsilon_eq_addEdges (out : Automaton α) (p q : StateId) :
    out.addEpsilon p q = addEdges out [.epsilon p q] :=
  (addEdges_singleton out (.epsilon p q)).symm

theorem Valid.addEpsilon_sketch {p : StateId} (h : d.Valid) (he : .epsilon p q ∈ d.edges)
    (before : List (Edge α)) :
    (d.sketch before).addEpsilon p q = .ok (d.sketch (before ++ [.epsilon p q])) := by
  rw [addEpsilon_eq_addEdges]
  exact h.addEdges_sketch (by simpa using he) before

/-- Edges from the copy of each final state, which is looked up first. -/
theorem Valid.foldlM_finals_sketch {step : Automaton α → StateId → Except (Fault α) (Automaton α)}
    {added : StateId → List (Edge α)} (h : d.Valid) (hm : m.WellFormed)
    (hstep : ∀ out p, step out p = Diagram.addEdges out (added p))
    (hmem : ∀ p ∈ m.finals, ∀ e ∈ added (m.renumbered offset p), e ∈ d.edges)
    (before : List (Edge α)) :
    m.finals.toList.foldlM (fun out p => do step out (← (copyTable m offset).find p))
      (d.sketch before) = .ok (d.sketch
        (before ++ m.finals.toList.flatMap fun p => added (m.renumbered offset p))) := by
  have hedges : ∀ p ∈ m.finals.toList, ∀ out, (do step out (← (copyTable m offset).find p)) =
      Diagram.addEdges out (added (m.renumbered offset p)) := by
    intro p hp out
    rw [find_copyTable hm offset (hm.final_live (StateSet.mem_toList.1 hp)), ← hstep]
    rfl
  rw [foldlM_eq_addEdges hedges]
  refine h.addEdges_sketch (fun e he => ?_) before
  obtain ⟨p, hp, he⟩ := List.mem_flatMap.1 he
  exact hmem p (StateSet.mem_toList.1 hp) e he

theorem Valid.foldlM_addEpsilon_sketch (h : d.Valid) (hm : m.WellFormed)
    (hmem : ∀ p ∈ m.finals, .epsilon (m.renumbered offset p) q ∈ d.edges)
    (before : List (Edge α)) :
    m.finals.toList.foldlM (fun out p => do out.addEpsilon (← (copyTable m offset).find p) q)
      (d.sketch before) = .ok (d.sketch
        (before ++ m.finals.toList.map fun p => .epsilon (m.renumbered offset p) q)) := by
  rw [List.map_eq_flatMap]
  exact h.foldlM_finals_sketch hm (fun out p => addEpsilon_eq_addEdges out p q)
    (fun p hp e he => List.mem_singleton.1 he ▸ hmem p hp) before

theorem nextId_addState_automaton (d : Diagram α) (i f : Bool) (name : Option String) :
    (d.automaton.addState i f name).nextId = UInt32.ofNat (d.nodes.length + 1) := by
  rw [nextId, size_addState, size_automaton]

/-- A new start, which takes the mark, and a new accepting state. -/
theorem automaton_addEnds (h : ∀ e ∈ d.edges, e.source.toNat < d.nodes.length) :
    (d.automaton.addState true false none).addState false true none = automaton { d with
      nodes := d.nodes ++ [⟨none, false⟩, ⟨none, true⟩]
      initial := some (UInt32.ofNat d.nodes.length) } := by
  have hstart : d.automaton.addState true false none = automaton { d with
      nodes := d.nodes ++ [⟨none, false⟩]
      initial := some (UInt32.ofNat d.nodes.length) } := by
    have hnode := automaton_addNode h ⟨none, false⟩
    rw [← nextId_automaton]
    have hinitial := congrArg
      (fun out : Automaton α => { out with initial := some d.automaton.nextId }) hnode
    exact hinitial.symm
  have hsource : ∀ e ∈ d.edges, e.source.toNat < (d.nodes ++ [(⟨none, false⟩ : Node)]).length :=
    fun e he => (h e he).trans_le (by simp)
  have haccept := automaton_addNode (d := { d with
    nodes := d.nodes ++ [⟨none, false⟩]
    initial := some (UInt32.ofNat d.nodes.length) }) hsource ⟨none, true⟩
  rw [hstart, ← haccept]
  simp

omit [DecidableEq α] in
theorem foldl_addState_eq {nodes nodes' : List Node}
    (h : nodes'.map (·.name) = nodes.map (·.name)) (out : Automaton α) (finals : StateSet) :
    ∃ finals', nodes'.foldl (fun m n => m.addState false n.isFinal n.name)
      { out with finals := finals } =
      { nodes.foldl (fun m n => m.addState false n.isFinal n.name) out with
        finals := finals' } := by
  -- the sets of final states part ways at the first node, so the induction is for any two
  induction nodes generalizing nodes' out finals with
  | nil =>
    obtain rfl := List.map_eq_nil_iff.1 h
    exact ⟨finals, rfl⟩
  | cons n nodes ih =>
    obtain ⟨n', nodes', rfl, hname, hrest⟩ := List.map_eq_cons_iff.1 h
    have hadd : ({ out with finals := finals } : Automaton α).addState false n'.isFinal n'.name =
        { out.addState false n.isFinal n.name with
          finals := if n'.isFinal then finals.insert out.nextId else finals } := by
      rw [addState, addState, hname]
      rfl
    rw [List.foldl_cons, List.foldl_cons, hadd]
    exact ih hrest _ _

theorem putEdges_finals (out : Automaton α) (finals : StateSet) (edges : List (Edge α)) :
    putEdges { out with finals := finals } edges =
      { putEdges out edges with finals := finals } := by
  induction edges generalizing out with
  | nil => rfl
  | cons e edges ih => exact ih (out.modifyTransitions e.source (·.insert e.label e.target))

/-- Which nodes are final does not matter for anything else. -/
theorem automaton_eq_of_names {nodes : List Node} (h : nodes.map (·.name) = d.nodes.map (·.name)) :
    automaton { d with nodes := nodes } =
      { d.automaton with finals := (automaton { d with nodes := nodes }).finals } := by
  obtain ⟨finals, hnodes⟩ := foldl_addState_eq h (.empty d.alphabet) ∅
  have hwith : withNodes d.alphabet nodes =
      { withNodes d.alphabet d.nodes with finals := finals } := hnodes
  rw [automaton, hwith, putEdges_finals]
  rfl

theorem foldlM_markFinal {out : Automaton α} (hm : m.WellFormed)
    (h : ∀ p ∈ m.finals, out.contains (m.renumbered offset p) = true) :
    m.finals.toList.foldlM (fun out p => do out.markFinal (← (copyTable m offset).find p)) out =
      .ok { out with
        finals := (m.finals.toList.map (m.renumbered offset)).foldl (·.insert ·) out.finals } := by
  have hall : ∀ p ∈ m.finals.toList, m.contains p = true ∧
      out.contains (m.renumbered offset p) = true := by
    intro p hp
    rw [StateSet.mem_toList] at hp
    exact ⟨hm.final_live hp, h p hp⟩
  clear h
  generalize m.finals.toList = l at hall
  induction l generalizing out with
  | nil => rfl
  | cons p l ih =>
    obtain ⟨⟨hp, hcopy⟩, hl⟩ := List.forall_mem_cons.1 hall
    have hmark := markFinal_eq_ok_iff.2 ⟨hcopy, rfl⟩
    rw [List.foldlM_cons, find_copyTable hm offset hp]
    change (out.markFinal (m.renumbered offset p) >>= _) = _
    rw [hmark]
    exact @ih { out with finals := out.finals.insert (m.renumbered offset p) } hl

end Diagram

namespace Automaton
variable {α : Type} [DecidableEq α] {a b : Automaton α} {i j : StateId}

def firstCopy (a : Automaton α) : Diagram α where
  alphabet := a.alphabet
  nodes := a.innerNodes
  initial := none
  edges := a.copiedEdges 0

def bothCopies (a b : Automaton α) : Diagram α where
  alphabet := a.alphabet
  nodes := a.innerNodes ++ b.innerNodes
  initial := none
  edges := a.copiedEdges 0 ++ b.copiedEdges a.stateCount

omit [DecidableEq α] in
theorem length_firstCopy (a : Automaton α) : a.firstCopy.nodes.length = a.stateCount :=
  length_innerNodes a

omit [DecidableEq α] in
theorem length_bothCopies (a b : Automaton α) :
    (bothCopies a b).nodes.length = a.stateCount + b.stateCount := by
  simp [bothCopies]

theorem copyInto_empty (ha : a.WellFormed) (fits : a.stateCount ≤ UInt32.size) :
    (empty a.alphabet).copyInto a = .ok (a.firstCopy.automaton, Diagram.copyTable a 0) := by
  have hcopy := Diagram.copyInto_automaton (d := ⟨a.alphabet, [], none, []⟩) ha (by simp)
    (fun _ h => h) (by simpa using fits)
  simp only [List.nil_append, List.length_nil] at hcopy
  exact hcopy

theorem source_lt_firstCopy (ha : a.WellFormed) (fits : a.stateCount ≤ UInt32.size) :
    ∀ e ∈ a.copiedEdges 0, e.source.toNat < a.stateCount := by
  intro e he
  have hsource := (inCopy_of_mem_copiedEdges ha (by rwa [Nat.zero_add]) he).1.2
  rwa [Nat.zero_add] at hsource

theorem copyInto_firstCopy (ha : a.WellFormed) (hb : b.WellFormed)
    (hab : ∀ x, x ∈ a.alphabet ↔ x ∈ b.alphabet)
    (fits : a.stateCount + b.stateCount ≤ UInt32.size) : a.firstCopy.automaton.copyInto b =
      .ok ((bothCopies a b).automaton, Diagram.copyTable b a.stateCount) := by
  have hlength := length_firstCopy a
  have hcopy := Diagram.copyInto_automaton (d := a.firstCopy) hb
    (hlength ▸ source_lt_firstCopy ha (by omega)) (fun x hx => (hab x).2 hx) (hlength ▸ fits)
  rwa [hlength] at hcopy

theorem source_lt_bothCopies (ha : a.WellFormed) (hb : b.WellFormed)
    (fits : a.stateCount + b.stateCount ≤ UInt32.size) :
    ∀ e ∈ (bothCopies a b).edges, e.source.toNat < a.stateCount + b.stateCount := by
  intro e he
  rcases List.mem_append.1 he with he | he
  · have hsource := source_lt_firstCopy ha (by omega) e he
    omega
  · exact (inCopy_of_mem_copiedEdges hb fits he).1.2

/-- The copies joined to a concatenation, before the states of the second one are marked final. -/
def unmarkedConcat (a b : Automaton α) (i j : StateId) : Diagram α :=
  { a.concatDiagram b i j with nodes := a.innerNodes ++ b.innerNodes }

omit [DecidableEq α] in
theorem names_nodes (m : Automaton α) : m.nodes.map (·.name) = m.innerNodes.map (·.name) := by
  simp [nodes, innerNodes]

/-- Marked one by one, the final states are those of the whole diagram. -/
theorem automaton_unmarkedConcat (hb : b.WellFormed) (hvalid : (a.concatDiagram b i j).Valid)
    (fits : a.stateCount + b.stateCount ≤ UInt32.size) :
    { (unmarkedConcat a b i j).automaton with
      finals := (b.finals.toList.map (b.renumbered a.stateCount)).foldl (·.insert ·)
        (unmarkedConcat a b i j).automaton.finals } = (a.concatDiagram b i j).automaton := by
  have hnames : (a.concatDiagram b i j).nodes.map (·.name) =
      (unmarkedConcat a b i j).nodes.map (·.name) := by
    simp only [concatDiagram, unmarkedConcat, List.map_append, names_nodes]
  have hmade := Diagram.automaton_eq_of_names hnames
  obtain ⟨c, hc, hd, -⟩ := hvalid.build
  obtain rfl := Diagram.eq_automaton hc
  have hfits : (a.innerNodes ++ b.innerNodes).length ≤ UInt32.size := by simpa using fits
  have hnodes : ∀ n ∈ a.innerNodes ++ b.innerNodes, n.isFinal = false := by
    intro n hn
    rcases List.mem_append.1 hn with hn | hn
    · exact isFinal_of_mem_innerNodes hn
    · exact isFinal_of_mem_innerNodes hn
  have hnone : (unmarkedConcat a b i j).automaton.finals = ∅ :=
    Diagram.finals_automaton_eq_empty hfits hnodes
  have hmarked : (b.finals.toList.map (b.renumbered a.stateCount)).foldl (·.insert ·)
      (unmarkedConcat a b i j).automaton.finals = (a.concatDiagram b i j).automaton.finals := by
    ext q
    rw [StateSet.mem_foldl_insert, mem_finals_concat_iff hb fits hd]
    simp [hnone, eq_comm]
  rw [hmarked]
  exact hmade.symm

theorem assembleConcat_eq (ha : a.WellFormed) (hb : b.WellFormed)
    (fits : a.stateCount + b.stateCount ≤ UInt32.size) : a.assembleConcat b = a.concat b := by
  rw [assembleConcat, concat]
  cases hop : a.findOperands b with
  | error f => rfl
  | ok ij =>
    obtain ⟨i, j⟩ := ij
    obtain ⟨hab, hi, hj⟩ := findOperands_eq_ok_iff.1 hop
    have hvalid := valid_concatDiagram ha hb hi hj hab fits
    have hlength : (unmarkedConcat a b i j).nodes.length =
        (a.concatDiagram b i j).nodes.length := by simp [unmarkedConcat, concatDiagram]
    have hvalid' : (unmarkedConcat a b i j).Valid :=
      ⟨hlength ▸ hvalid.fits, hlength ▸ hvalid.ends_lt, hvalid.label_valid,
        hlength ▸ hvalid.initial_lt⟩
    have hfirst := copyInto_empty ha (by omega)
    have hsecond := copyInto_firstCopy ha hb hab (by omega)
    have hfindi := Diagram.find_copyTable ha 0 (ha.initial_live hi)
    have hfindj := Diagram.find_copyTable hb a.stateCount (hb.initial_live hj)
    have hinitial : (bothCopies a b).automaton.setInitial (a.renumbered 0 i) =
        .ok ((unmarkedConcat a b i j).sketch (bothCopies a b).edges) := by
      have hlt := (inCopy_renumbered ha (by omega : 0 + a.stateCount ≤ UInt32.size)
        (ha.initial_live hi)).2
      have hboth := length_bothCopies a b
      exact setInitial_eq_ok_iff.2 ⟨(Diagram.contains_automaton_iff (by omega)).2 (by omega), rfl⟩
    have hbridge : ∀ p ∈ a.finals, .epsilon (a.renumbered 0 p) (b.renumbered a.stateCount j) ∈
        (unmarkedConcat a b i j).edges := fun p hp =>
      (concat_edge_iff (i := i)).2 (.inr (.inr ⟨p, hp, rfl, rfl, rfl⟩))
    simp only [hfirst, hsecond, hfindi, hfindj, hinitial, ok_bind]
    rw [hvalid.build_eq, hvalid'.foldlM_addEpsilon_sketch ha hbridge, ok_bind]
    change b.finals.toList.foldlM _ (unmarkedConcat a b i j).automaton = _
    rw [Diagram.foldlM_markFinal hb, automaton_unmarkedConcat hb hvalid fits]
    intro p hp
    have hlt := (inCopy_renumbered hb fits (hb.final_live hp)).2
    rw [Diagram.contains_automaton_iff hvalid'.fits, hlength, length_concat_nodes]
    exact hlt

theorem addEnds_bothCopies (ha : a.WellFormed) (hb : b.WellFormed)
    (fits : a.stateCount + b.stateCount ≤ UInt32.size) (i j : StateId) :
    ((bothCopies a b).automaton.addState true false none).addState false true none =
      (a.unionDiagram b i j).sketch (bothCopies a b).edges := by
  have hsource := source_lt_bothCopies ha hb fits
  rw [← length_bothCopies] at hsource
  rw [Diagram.automaton_addEnds hsource, length_bothCopies]
  rfl

theorem assembleUnion_eq (ha : a.WellFormed) (hb : b.WellFormed)
    (fits : a.stateCount + b.stateCount + 2 ≤ UInt32.size) : a.assembleUnion b = a.union b := by
  rw [assembleUnion, union]
  cases hop : a.findOperands b with
  | error f => rfl
  | ok ij =>
    obtain ⟨i, j⟩ := ij
    obtain ⟨hab, hi, hj⟩ := findOperands_eq_ok_iff.1 hop
    have hvalid := valid_unionDiagram ha hb hi hj hab fits
    have hfirst := copyInto_empty ha (by omega)
    have hsecond := copyInto_firstCopy ha hb hab (by omega)
    have hfindi := Diagram.find_copyTable ha 0 (ha.initial_live hi)
    have hfindj := Diagram.find_copyTable hb a.stateCount (hb.initial_live hj)
    have hends := addEnds_bothCopies ha hb (by omega) i j
    have hstart : (bothCopies a b).automaton.nextId = a.unionStart b := by
      rw [Diagram.nextId_automaton, length_bothCopies, unionStart]
    have haccept :
        ((bothCopies a b).automaton.addState true false none).nextId = a.unionAccept b := by
      rw [Diagram.nextId_addState_automaton, length_bothCopies, unionAccept]
    have hintoFirst : .epsilon (a.unionStart b) (a.renumbered 0 i) ∈
        (a.unionDiagram b i j).edges := union_edge_iff.2 (.inr (.inr ⟨rfl, .inl ⟨rfl, .inl rfl⟩⟩))
    have hintoSecond : .epsilon (a.unionStart b) (b.renumbered a.stateCount j) ∈
        (a.unionDiagram b i j).edges := union_edge_iff.2 (.inr (.inr ⟨rfl, .inl ⟨rfl, .inr rfl⟩⟩))
    have hfromFirst : ∀ p ∈ a.finals, .epsilon (a.renumbered 0 p) (a.unionAccept b) ∈
        (a.unionDiagram b i j).edges := fun p hp =>
      union_edge_iff.2 (.inr (.inr ⟨rfl, .inr ⟨rfl, .inl ⟨p, hp, rfl⟩⟩⟩))
    have hfromSecond : ∀ p ∈ b.finals,
        .epsilon (b.renumbered a.stateCount p) (a.unionAccept b) ∈
          (a.unionDiagram b i j).edges := fun p hp =>
      union_edge_iff.2 (.inr (.inr ⟨rfl, .inr ⟨rfl, .inr ⟨p, hp, rfl⟩⟩⟩))
    simp only [hfirst, hsecond, hfindi, hfindj, hends, hstart, haccept, ok_bind]
    rw [hvalid.build_eq, hvalid.addEpsilon_sketch hintoFirst, ok_bind,
      hvalid.addEpsilon_sketch hintoSecond, ok_bind,
      hvalid.foldlM_addEpsilon_sketch ha hfromFirst, ok_bind,
      hvalid.foldlM_addEpsilon_sketch hb hfromSecond,
      List.append_assoc (bothCopies a b).edges [_] [_]]
    rfl

theorem addEnds_firstCopy (ha : a.WellFormed) (fits : a.stateCount ≤ UInt32.size) (i : StateId) :
    (a.firstCopy.automaton.addState true false none).addState false true none =
      (a.starDiagram i).sketch (a.copiedEdges 0) := by
  have hsource := source_lt_firstCopy ha fits
  rw [← length_firstCopy] at hsource
  rw [Diagram.automaton_addEnds hsource, length_firstCopy]
  rfl

theorem assembleStar_eq (ha : a.WellFormed) (fits : a.stateCount + 2 ≤ UInt32.size) :
    a.assembleStar = a.star := by
  rw [assembleStar, star]
  cases hfind : a.findInitial with
  | error f => rfl
  | ok i =>
    have hi := findInitial_eq_ok_iff.1 hfind
    have hvalid := valid_starDiagram ha hi fits
    have hcopy := copyInto_empty ha (by omega)
    have hfindi := Diagram.find_copyTable ha 0 (ha.initial_live hi)
    have hends := addEnds_firstCopy ha (by omega) i
    have hstart : a.firstCopy.automaton.nextId = a.starStart := by
      rw [Diagram.nextId_automaton, length_firstCopy, starStart]
    have haccept : (a.firstCopy.automaton.addState true false none).nextId = a.starAccept := by
      rw [Diagram.nextId_addState_automaton, length_firstCopy, starAccept]
    have hhead : .epsilon a.starStart (a.renumbered 0 i) ∈ (a.starDiagram i).edges :=
      star_edge_iff.2 (.inr ⟨.inl rfl, rfl, .inl rfl⟩)
    have hskip : .epsilon a.starStart a.starAccept ∈ (a.starDiagram i).edges :=
      star_edge_iff.2 (.inr ⟨.inl rfl, rfl, .inr rfl⟩)
    have hagain : ∀ p ∈ a.finals, ∀ e ∈ [Edge.epsilon (a.renumbered 0 p) (a.renumbered 0 i),
        .epsilon (a.renumbered 0 p) a.starAccept], e ∈ (a.starDiagram i).edges := by
      intro p hp e he
      rcases List.mem_pair.1 he with rfl | rfl
      · exact star_edge_iff.2 (.inr ⟨.inr ⟨p, hp, rfl⟩, rfl, .inl rfl⟩)
      · exact star_edge_iff.2 (.inr ⟨.inr ⟨p, hp, rfl⟩, rfl, .inr rfl⟩)
    have hstep : ∀ (out : Automaton α) p, (do
        let out ← out.addEpsilon p (a.renumbered 0 i)
        out.addEpsilon p a.starAccept) = Diagram.addEdges out
          [.epsilon p (a.renumbered 0 i), .epsilon p a.starAccept] := by
      intro out p
      simp only [Diagram.addEpsilon_eq_addEdges, Diagram.addEdges, List.foldlM_cons,
        List.foldlM_nil, bind_pure]
    simp only [hcopy, hfindi, hends, hstart, haccept, ok_bind]
    rw [hvalid.build_eq, hvalid.addEpsilon_sketch hhead, ok_bind,
      hvalid.addEpsilon_sketch hskip, ok_bind, hvalid.foldlM_finals_sketch ha hstep hagain,
      List.append_assoc (a.copiedEdges 0) [_] [_]]
    rfl

end Automaton
end FiniteAutomata
