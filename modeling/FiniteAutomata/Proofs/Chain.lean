import FiniteAutomata.Proofs.Assembly
import FiniteAutomata.Proofs.Word

namespace FiniteAutomata.Automaton
variable {α : Type} {alphabet : Alphabet α} {a x : α} {u v w : List α}

/-- The chain of a word with no state final yet. -/
def unmarkedChain (alphabet : Alphabet α) (w : List α) : Diagram α :=
  { wordDiagram alphabet w with nodes := List.replicate (w.length + 1) ⟨none, false⟩ }

theorem unmarkedChain_append_singleton : unmarkedChain alphabet (w ++ [a]) =
    { unmarkedChain alphabet w with
      nodes := (unmarkedChain alphabet w).nodes ++ [⟨none, false⟩]
      edges := (unmarkedChain alphabet w).edges ++
        [⟨UInt32.ofNat w.length, .literal a, UInt32.ofNat (w.length + 1)⟩] } := by
  simp [unmarkedChain, wordDiagram, List.zipIdx_append, List.replicate_succ']

theorem length_unmarkedChain (alphabet : Alphabet α) (w : List α) :
    (unmarkedChain alphabet w).nodes.length = w.length + 1 := by
  simp [unmarkedChain]

theorem source_lt_unmarkedChain (fits : w.length < UInt32.size) :
    ∀ e ∈ (unmarkedChain alphabet w).edges, e.source.toNat < w.length + 1 := by
  intro e he
  obtain ⟨p, y, q⟩ := e
  change ⟨p, y, q⟩ ∈ (wordDiagram alphabet w).edges at he
  obtain ⟨k, b, hb, rfl, -, -⟩ := word_edge_iff.1 he
  have hlt := (List.getElem?_eq_some_iff.1 hb).1
  rw [UInt32.toNat_ofNat_of_lt' (hlt.trans fits)]
  omega

variable [DecidableEq α]

theorem extendChain_automaton (ha : a ∈ alphabet) (fits : w.length + 1 < UInt32.size) :
    extendChain ((unmarkedChain alphabet w).automaton, UInt32.ofNat w.length) a =
      .ok ((unmarkedChain alphabet (w ++ [a])).automaton, UInt32.ofNat (w ++ [a]).length) := by
  have hlength := length_unmarkedChain alphabet w
  have hnode := Diagram.automaton_addNode (d := unmarkedChain alphabet w)
    (hlength ▸ source_lt_unmarkedChain (by omega)) ⟨none, false⟩
  have hgrown : ((unmarkedChain alphabet w).nodes ++ [(⟨none, false⟩ : Node)]).length =
      w.length + 1 + 1 := by rw [List.length_append, hlength, List.length_singleton]
  have hsource : (UInt32.ofNat w.length).toNat < w.length + 1 + 1 := by
    rw [UInt32.toNat_ofNat_of_lt' (by omega)]
    omega
  have htarget : (UInt32.ofNat (w.length + 1)).toNat < w.length + 1 + 1 := by
    rw [UInt32.toNat_ofNat_of_lt' fits]
    omega
  have hedge := Diagram.addTransition_automaton
    (d := { unmarkedChain alphabet w with
      nodes := (unmarkedChain alphabet w).nodes ++ [⟨none, false⟩] })
    (e := ⟨UInt32.ofNat w.length, .literal a, UInt32.ofNat (w.length + 1)⟩)
    (hgrown ▸ fits) (fun b hb => Label.literal.inj hb ▸ ha) (hgrown ▸ hsource) (hgrown ▸ htarget)
  rw [extendChain, Diagram.nextId_automaton, ← hnode, hlength, hedge,
    unmarkedChain_append_singleton, List.length_append]
  rfl

theorem addTransition_foreign {m : Automaton α} (hx : x ∉ m.alphabet) (p q : StateId) :
    m.addTransition p (.literal x) q = .error (.invalidSymbol x) := by
  rw [addTransition, checkLabel, checkSymbol, if_neg hx]
  rfl

theorem extendChain_foreign {m : Automaton α} (hx : x ∉ m.alphabet) (p : StateId) :
    extendChain (m, p) x = .error (.invalidSymbol x) := by
  have hrefused := addTransition_foreign (m := m.addState false false none) hx p m.nextId
  rw [extendChain, hrefused]
  rfl

theorem foldlM_extendChain (hw : ∀ a ∈ w, a ∈ alphabet) (fits : w.length < UInt32.size) :
    w.foldlM extendChain ((empty alphabet).addState true false none, (empty alphabet).nextId) =
      .ok ((unmarkedChain alphabet w).automaton, UInt32.ofNat w.length) := by
  -- from the end of the word, where the chain grows
  induction w using List.reverseRecOn with
  | nil => rfl
  | append_singleton w a ih =>
    obtain ⟨hw, ha⟩ := List.forall_mem_append.1 hw
    rw [List.length_append, List.length_singleton] at fits
    rw [List.foldlM_append, ih hw (by omega), ok_bind, List.foldlM_cons,
      extendChain_automaton (ha a (by simp)) fits]
    rfl

/-- Marking the last state makes the chain that of the whole word. -/
theorem markFinal_unmarkedChain (hw : ∀ a ∈ w, a ∈ alphabet) (fits : w.length < UInt32.size) :
    (unmarkedChain alphabet w).automaton.markFinal (UInt32.ofNat w.length) =
      .ok (wordDiagram alphabet w).automaton := by
  have hplace : (UInt32.ofNat w.length).toNat = w.length := UInt32.toNat_ofNat_of_lt' fits
  have hlength := length_unmarkedChain alphabet w
  have hlive : (unmarkedChain alphabet w).automaton.contains (UInt32.ofNat w.length) = true := by
    rw [Diagram.contains_automaton_iff (hlength.trans_le fits), hlength, hplace]
    exact w.length.lt_succ_self
  have hnames : (wordDiagram alphabet w).nodes.map (·.name) =
      (unmarkedChain alphabet w).nodes.map (·.name) := by
    simp [wordDiagram, unmarkedChain, List.replicate_succ']
  have hmade := Diagram.automaton_eq_of_names hnames
  obtain ⟨m, hm, hd, -⟩ := (valid_wordDiagram hw fits).build
  obtain rfl := Diagram.eq_automaton hm
  have hnone : (unmarkedChain alphabet w).automaton.finals = ∅ :=
    Diagram.finals_automaton_eq_empty (hlength.trans_le fits) (by simp [unmarkedChain])
  have hfinals : (unmarkedChain alphabet w).automaton.finals.insert (UInt32.ofNat w.length) =
      (wordDiagram alphabet w).automaton.finals := by
    ext q
    rw [StateSet.mem_insert, mem_finals_word_iff hd, ← UInt32.toNat_inj, hplace]
    simp [hnone]
  rw [markFinal_eq_ok_iff.2 ⟨hlive, rfl⟩, hfinals]
  exact congrArg Except.ok hmade.symm

theorem assembleWord_foreign (hu : ∀ a ∈ u, a ∈ alphabet) (hx : x ∉ alphabet)
    (fits : u.length < UInt32.size) :
    assembleWord alphabet (u ++ x :: v) = .error (.invalidSymbol x) := by
  have hforeign : x ∉ (unmarkedChain alphabet u).automaton.alphabet := by
    rwa [Diagram.alphabet_automaton]
  have hrefused := extendChain_foreign hforeign (UInt32.ofNat u.length)
  rw [assembleWord, List.foldlM_append, foldlM_extendChain hu fits, ok_bind, List.foldlM_cons,
    hrefused]
  rfl

/-- The edges before the first foreign label are added, and the edge that it labels is refused. -/
theorem build_foreign {d : Diagram α} {before after : List (Edge α)} {p q : StateId}
    (fits : d.nodes.length ≤ UInt32.size)
    (hedges : d.edges = before ++ ⟨p, .literal x, q⟩ :: after)
    (hbefore : ∀ e ∈ before, d.Fits e) (hx : x ∉ d.alphabet) :
    d.build = .error (.invalidSymbol x) := by
  -- the states alone are the automaton of the diagram without its edges
  have hnodes : Diagram.withNodes d.alphabet d.nodes =
      Diagram.automaton { d with initial := none, edges := [] } :=
    congrArg (fun i => { Diagram.withNodes d.alphabet d.nodes with initial := i })
      (Diagram.initial_withNodes d.alphabet d.nodes)
  have hfirst := Diagram.addEdges_automaton (d := { d with initial := none, edges := [] }) fits
    fun e he => ⟨(hbefore e he).label, (hbefore e he).source, (hbefore e he).target⟩
  have hforeign : x ∉ (Diagram.automaton { d with
      initial := none
      edges := [] ++ before }).alphabet := by
    rwa [Diagram.alphabet_automaton]
  have hrefused := addTransition_foreign hforeign p q
  rw [Diagram.addEdges] at hfirst
  rw [Diagram.build, hnodes, Diagram.addEdges, hedges, List.foldlM_append, hfirst, ok_bind,
    List.foldlM_cons, hrefused]
  rfl

theorem ofWord_foreign (hu : ∀ a ∈ u, a ∈ alphabet) (hx : x ∉ alphabet)
    (fits : (u ++ x :: v).length < UInt32.size) :
    ofWord alphabet (u ++ x :: v) = .error (.invalidSymbol x) := by
  have hedges : (wordDiagram alphabet (u ++ x :: v)).edges = (wordDiagram alphabet u).edges ++
      ⟨UInt32.ofNat u.length, .literal x, UInt32.ofNat (u.length + 1)⟩ ::
        (v.zipIdx (u.length + 1)).map fun c =>
          ⟨UInt32.ofNat c.2, .literal c.1, UInt32.ofNat (c.2 + 1)⟩ := by
    simp [wordDiagram, List.zipIdx_append]
  have hlength : u.length + 1 ≤ (wordDiagram alphabet (u ++ x :: v)).nodes.length := by
    simp [wordDiagram]
  refine build_foreign (length_word_nodes.trans_le fits) hedges (fun e he => ?_) hx
  obtain ⟨p, y, q⟩ := e
  have hvalid : (wordDiagram alphabet u).Valid :=
    valid_wordDiagram hu (by rw [length_word_nodes] at hlength; omega)
  obtain ⟨hp, hq⟩ := hvalid.ends_lt he
  rw [length_word_nodes] at hp hq
  refine ⟨fun a ha => ?_, hp.trans_le hlength, hq.trans_le hlength⟩
  obtain rfl : y = .literal a := ha
  exact hvalid.label_valid he

theorem assembleWord_eq (fits : w.length < UInt32.size) :
    assembleWord alphabet w = ofWord alphabet w := by
  rcases alphabet.over_or_foreign w with hw | ⟨u, x, v, rfl, hu, hx⟩
  · rw [ofWord, (valid_wordDiagram hw fits).build_eq, assembleWord]
    simp only [foldlM_extendChain hw fits, ok_bind]
    exact markFinal_unmarkedChain hw fits
  · have hprefix : u.length < UInt32.size := by
      rw [List.length_append] at fits
      omega
    rw [assembleWord_foreign hu hx hprefix, ofWord_foreign hu hx fits]

end FiniteAutomata.Automaton
