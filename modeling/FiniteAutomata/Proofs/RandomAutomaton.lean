import FiniteAutomata.Proofs.EdgeQueries
import FiniteAutomata.Proofs.RandomDrawing

/-! Each state has its own part of the edges (`exists_leaving`). An edge that is drawn twice is
there once, so of the three literal edges of a state one to three are left, and the edges of the
other states add nothing to them. -/
namespace FiniteAutomata

namespace Automaton
variable {α : Type} {m : Automaton α} {p q : StateId} {x : Label α} {kind : Label α → Bool}

/-- The edges that leave a state on labels of one kind, each given by its label and its target. -/
def outgoing (m : Automaton α) (p : StateId) (kind : Label α → Bool) : List (Label α × StateId) :=
  (m.transitions.filter fun e => e.source = p ∧ kind e.label).map fun e => (e.label, e.target)

theorem mem_outgoing_iff : (x, q) ∈ m.outgoing p kind ↔
    ⟨p, x, q⟩ ∈ m.transitions ∧ kind x = true := by
  simp only [outgoing, List.mem_map, List.mem_filter, decide_eq_true_eq, Prod.mk.injEq]
  constructor
  · rintro ⟨⟨_, _, _⟩, ⟨he, rfl, hkind⟩, rfl, rfl⟩
    exact ⟨he, hkind⟩
  · rintro ⟨he, hkind⟩
    exact ⟨_, ⟨he, rfl, hkind⟩, rfl, rfl⟩

theorem outgoing_nodup (h : m.slots.size ≤ UInt32.size) (p : StateId) (kind : Label α → Bool) :
    (m.outgoing p kind).Nodup := by
  refine ((transitions_nodup h).filter _).map_on fun e he e' he' heq => ?_
  obtain ⟨-, hp⟩ := List.mem_filter.1 he
  obtain ⟨-, hp'⟩ := List.mem_filter.1 he'
  obtain ⟨hp, -⟩ := of_decide_eq_true hp
  obtain ⟨hp', -⟩ := of_decide_eq_true hp'
  obtain ⟨hlabel, htarget⟩ := Prod.mk.inj heq
  cases e
  cases e'
  rw [Edge.mk.injEq]
  exact ⟨hp.trans hp'.symm, hlabel, htarget⟩

theorem degree_eq_countP (t : Transitions α) (kind : Label α → Bool) (p : StateId) :
    t.degree kind = (edgesFrom p t).countP (kind ·.label) := by
  have hfold (entries : List (Label α × StateSet)) (k : Nat) :
      entries.foldl (fun n e => if kind e.1 then n + e.2.size else n) k = k +
        (entries.flatMap fun e => e.2.toList.map fun q => (⟨p, e.1, q⟩ : Edge α)).countP
          (kind ·.label) := by
    induction entries generalizing k with
    | nil => simp
    | cons e entries ih =>
      have hentry : (e.2.toList.map fun q => (⟨p, e.1, q⟩ : Edge α)).countP (kind ·.label) =
          if kind e.1 then e.2.size else 0 := by
        rw [List.countP_map]
        by_cases h : kind e.1 = true
        · simp [Function.comp_def, h, StateSet.size]
        · simp [Function.comp_def, h]
      rw [List.foldl_cons, ih, List.flatMap_cons, List.countP_append, hentry]
      split_ifs <;> omega
  exact (hfold t.entries 0).trans (Nat.zero_add _)

/-- The edges that are listed for a state are those in its table. -/
theorem length_outgoing (h : m.slots.size ≤ UInt32.size) {s : State α}
    (hs : (p, s) ∈ m.liveStates) (kind : Label α → Bool) :
    (m.outgoing p kind).length = s.transitions.degree kind := by
  have hedges : (m.transitions.filter (·.source = p)).Perm (edgesFrom p s.transitions) := by
    rw [List.perm_ext_iff_of_nodup ((transitions_nodup h).filter _) (edgesFrom_nodup p _)]
    intro e
    rw [List.mem_filter, transitions_eq_flatMap, List.mem_flatMap, decide_eq_true_eq]
    constructor
    · rintro ⟨⟨⟨q, t⟩, ht, he⟩, hp⟩
      obtain rfl : q = p := (source_eq_of_mem_edgesFrom he).symm.trans hp
      have hsame := ((mem_liveStates_iff h).1 ht).symm.trans ((mem_liveStates_iff h).1 hs)
      exact Option.some.inj hsame ▸ he
    · intro he
      exact ⟨⟨(p, s), hs, he⟩, source_eq_of_mem_edgesFrom he⟩
  have hkind : (m.transitions.filter fun e => e.source = p ∧ kind e.label) =
      (m.transitions.filter (·.source = p)).filter (kind ·.label) := by
    rw [List.filter_filter]
    simp [Bool.and_comm]
  rw [outgoing, List.length_map, hkind, ← List.countP_eq_length_filter, hedges.countP_eq,
    degree_eq_countP]

end Automaton

namespace Workload
open Automaton
variable {σ : Type} {source : DrawSource σ} {count n : Nat} {p q : StateId}
  {es : List (Edge Char)} {d : Diagram Char} {m : Automaton Char}

/-- An edge on a digit from one state to any other. -/
structure LiteralFrom (count : Nat) (p : StateId) (e : Edge Char) : Prop where
  source : e.source = p
  label : ∃ a ∈ binary, e.label = .literal a
  target : e.target.toNat < count

theorem always_drawLiteralEdge (source : DrawSource σ) (hcount : 0 < count)
    (fits : count ≤ UInt32.size) (p : StateId) :
    Always (drawLiteralEdge source count p) (LiteralFrom count p) := by
  refine (always_below hcount).bind fun q hq => ?_
  refine (always_drawDigit source).bind fun a ha => always_pure ?_
  refine ⟨rfl, ⟨a, ha, rfl⟩, ?_⟩
  rwa [UInt32.toNat_ofNat_of_lt' (hq.trans_le fits)]

/-- The edges that one state draws lead to states that are there: three on digits, and at most one
on epsilon. -/
structure Leaving (count : Nat) (p : StateId) (es : List (Edge Char)) : Prop where
  source : ∀ e ∈ es, e.source = p
  target_lt : ∀ e ∈ es, e.target.toNat < count
  label_mem : ∀ e ∈ es, ∀ a, e.label = .literal a → a ∈ binary
  literals : es.countP (!·.label.isEpsilon) = 3
  epsilons : es.countP (·.label.isEpsilon) ≤ 1

theorem LiteralFrom.isEpsilon {e : Edge Char} (h : LiteralFrom count p e) :
    e.label.isEpsilon = false := by
  obtain ⟨a, -, hlabel⟩ := h.label
  rw [hlabel]
  rfl

theorem LiteralFrom.label_mem {e : Edge Char} (h : LiteralFrom count p e) (a : Char)
    (ha : e.label = .literal a) : a ∈ binary := by
  obtain ⟨b, hb, hlabel⟩ := h.label
  exact Label.literal.inj (hlabel.symm.trans ha) ▸ hb

section Literals
variable (hlength : es.length = 3) (h : ∀ e ∈ es, LiteralFrom count p e)

include h in
theorem countP_epsilon_literals : es.countP (·.label.isEpsilon) = 0 := by
  rw [List.countP_eq_zero]
  intro e he
  rw [(h e he).isEpsilon]
  exact Bool.false_ne_true

include hlength h

theorem leaving_literals : Leaving count p es where
  source e he := (h e he).source
  target_lt e he := (h e he).target
  label_mem e he := (h e he).label_mem
  literals := by
    rw [← hlength, List.countP_eq_length]
    intro e he
    rw [(h e he).isEpsilon]
    rfl
  epsilons := by
    rw [countP_epsilon_literals h]
    exact Nat.zero_le 1

theorem leaving_append_epsilon (hq : q.toNat < count) :
    Leaving count p (es ++ [Edge.epsilon p q]) := by
  have hes := leaving_literals hlength h
  refine ⟨?_, ?_, ?_, ?_, ?_⟩
  · exact List.forall_mem_append.2 ⟨hes.source, by simp [Edge.epsilon]⟩
  · exact List.forall_mem_append.2 ⟨hes.target_lt, by simpa [Edge.epsilon]⟩
  · exact List.forall_mem_append.2 ⟨hes.label_mem, by simp [Edge.epsilon]⟩
  · rw [List.countP_append, hes.literals]
    rfl
  · rw [List.countP_append, countP_epsilon_literals h]
    exact Nat.le_refl 1

end Literals

theorem always_drawEdges (source : DrawSource σ) (hcount : 0 < count)
    (fits : count ≤ UInt32.size) (p : StateId) :
    Always (drawEdges source count p) (Leaving count p) := by
  have hliterals := always_mapM_range_forall fun k (_ : k < 3) =>
    always_drawLiteralEdge source hcount fits p
  rw [drawEdges_eq]
  refine hliterals.bind fun literals hdrawn => ?_
  obtain ⟨hlength, hliteral⟩ := hdrawn
  refine (always_true (source.percent 15)).bind fun chosen _ => ?_
  cases chosen with
  | false => exact always_pure (leaving_literals hlength hliteral)
  | true =>
    refine (always_below hcount).bind fun k hk => always_pure ?_
    apply leaving_append_epsilon hlength hliteral
    rwa [UInt32.toNat_ofNat_of_lt' (hk.trans_le fits)]

/-- What holds of the diagram, whatever is drawn. Each state has its own part of the edges. -/
structure RandomDiagram (n : Nat) (d : Diagram Char) : Prop where
  alphabet : d.alphabet = binary
  length_nodes : d.nodes.length = randomCount n
  unnamed : ∀ node ∈ d.nodes, node.name = none
  initial : d.initial = if randomCount n = 0 then none else some 0
  parts : ∃ parts : List (List (Edge Char)), d.edges = parts.flatten ∧
    parts.length = randomCount n ∧
    ∀ k es, parts[k]? = some es → Leaving (randomCount n) (UInt32.ofNat k) es

theorem always_randomDiagram (source : DrawSource σ) (n : Nat) :
    Always (randomDiagram source n) (RandomDiagram n) := by
  have hnode : Always (do return Node.mk none (← source.percent 20)) (·.name = none) :=
    (always_true (source.percent 20)).bind fun _ _ => always_pure rfl
  have hnodes := always_mapM_range_forall fun k (_ : k < randomCount n) => hnode
  have hedges := always_mapM_range fun k (hk : k < randomCount n) =>
    always_drawEdges source (by omega) (randomCount_le n) (UInt32.ofNat k)
  refine hnodes.bind fun nodes hnodes => hedges.bind fun parts hparts => always_pure ?_
  exact ⟨rfl, hnodes.1, hnodes.2, rfl, parts, rfl, hparts⟩

/-- Of parts that each belong to one state, an edge can only be in that of its source. -/
theorem mem_flatten_iff_of_source {parts : List (List (Edge Char))} {e : Edge Char}
    (fits : parts.length ≤ UInt32.size)
    (hsource : ∀ k es, parts[k]? = some es → ∀ e ∈ es, e.source = UInt32.ofNat k) :
    e ∈ parts.flatten ↔ ∃ es, parts[e.source.toNat]? = some es ∧ e ∈ es := by
  rw [List.mem_flatten]
  constructor
  · rintro ⟨es, hes, hmem⟩
    obtain ⟨k, hk⟩ := List.mem_iff_getElem?.1 hes
    have hlt := (List.getElem?_eq_some_iff.1 hk).1
    refine ⟨es, ?_, hmem⟩
    rwa [hsource k es hk e hmem, UInt32.toNat_ofNat_of_lt' (hlt.trans_le fits)]
  · rintro ⟨es, hes, hmem⟩
    exact ⟨es, List.mem_of_getElem? hes, hmem⟩

/-- The edges that leave a state are those that it has drawn. -/
theorem RandomDiagram.exists_leaving (h : RandomDiagram n d) (hp : p.toNat < randomCount n) :
    ∃ es, Leaving (randomCount n) p es ∧ ∀ e, e.source = p → (e ∈ d.edges ↔ e ∈ es) := by
  obtain ⟨parts, hparts, hlength, hleaving⟩ := h.parts
  obtain ⟨own, hown⟩ : ∃ own, parts[p.toNat]? = some own :=
    ⟨_, List.getElem?_eq_getElem (hlength ▸ hp)⟩
  have hself := hleaving _ own hown
  rw [UInt32.ofNat_toNat] at hself
  refine ⟨own, hself, fun e he => ?_⟩
  rw [hparts, mem_flatten_iff_of_source (hlength.trans_le (randomCount_le n))
    fun k es hk => (hleaving k es hk).source, he, hown]
  simp

theorem RandomDiagram.source_lt (h : RandomDiagram n d) {e : Edge Char} (he : e ∈ d.edges) :
    e.source.toNat < randomCount n := by
  obtain ⟨parts, hparts, hlength, hleaving⟩ := h.parts
  rw [hparts, mem_flatten_iff_of_source (hlength.trans_le (randomCount_le n))
    fun k es hk => (hleaving k es hk).source] at he
  obtain ⟨es, hes, -⟩ := he
  exact hlength ▸ (List.getElem?_eq_some_iff.1 hes).1

theorem RandomDiagram.leaving_of_mem (h : RandomDiagram n d) {e : Edge Char} (he : e ∈ d.edges) :
    ∃ es, e ∈ es ∧ Leaving (randomCount n) e.source es := by
  obtain ⟨es, hes, hown⟩ := h.exists_leaving (h.source_lt he)
  exact ⟨es, (hown e rfl).1 he, hes⟩

theorem RandomDiagram.valid (h : RandomDiagram n d) : d.Valid := by
  refine ⟨?_, fun {p x q} he => ?_, fun {p a q} he => ?_, fun {q} hq => ?_⟩
  · rw [h.length_nodes]
    exact randomCount_le n
  · obtain ⟨es, hmem, hes⟩ := h.leaving_of_mem he
    rw [h.length_nodes]
    exact ⟨h.source_lt he, hes.target_lt _ hmem⟩
  · obtain ⟨es, hmem, hes⟩ := h.leaving_of_mem he
    rw [h.alphabet]
    exact hes.label_mem _ hmem a rfl
  · rw [h.initial] at hq
    split_ifs at hq with hzero
    obtain rfl := Option.some.inj hq
    rw [h.length_nodes]
    exact Nat.pos_of_ne_zero hzero

/-- Whether the automaton grows while it is drawn or is built afterwards makes no difference. -/
theorem assembleRandomAutomaton_eq (source : DrawSource σ) (n : Nat) (seed : σ) :
    assembleRandomAutomaton source n seed = randomAutomaton source n seed := by
  have hdrawn := makes_assembleDrawn source n seed
  have hvalid := (always_randomDiagram source n seed).valid
  rw [assembleRandomAutomaton, hdrawn]
  exact hvalid.build_eq.symm

theorem exists_randomAutomaton (source : DrawSource σ) (n : Nat) (seed : σ) : ∃ m d,
    randomAutomaton source n seed = .ok m ∧ RandomDiagram n d ∧ d.Depicts m ∧ m.WellFormed := by
  have hrandom := always_randomDiagram source n seed
  obtain ⟨m, hm, hd, hwf⟩ := hrandom.valid.build
  exact ⟨m, _, hm, hrandom, hd, hwf⟩

/-- All edges join states, each state has one to three literal edges and at most one epsilon edge,
and it is called by its number. -/
structure RandomShape (m : Automaton Char) : Prop where
  ends : ∀ e ∈ m.transitions, m.contains e.source = true ∧ m.contains e.target = true
  nodup : ∀ p kind, (m.outgoing p kind).Nodup
  literals_pos : ∀ p, m.contains p = true → 1 ≤ (m.outgoing p (!·.isEpsilon)).length
  literals_le : ∀ p, m.contains p = true → (m.outgoing p (!·.isEpsilon)).length ≤ 3
  epsilons_le : ∀ p, m.contains p = true → (m.outgoing p Label.isEpsilon).length ≤ 1
  name? : ∀ p, m.contains p = true → m.name? p = some (decimalName p)

section Shape
variable (hm : m.WellFormed) (hd : d.Depicts m)
include hm hd

/-- Each edge of the automaton was drawn, and edges that were drawn twice are there once. -/
theorem length_outgoing_le (kind : Label Char → Bool)
    (hes : ∀ e, e.source = p → e ∈ d.edges → e ∈ es) :
    (m.outgoing p kind).length ≤ es.countP (kind ·.label) := by
  have hsub : m.outgoing p kind ⊆ (es.filter (kind ·.label)).map fun e => (e.label, e.target) := by
    rintro ⟨x, q⟩ hx
    obtain ⟨he, hkind⟩ := mem_outgoing_iff.1 hx
    have he := (hd.mem_transitions_iff hm.fits).1 he
    exact List.mem_map.2 ⟨_, List.mem_filter.2 ⟨hes _ rfl he, hkind⟩, rfl⟩
  have hlength := ((outgoing_nodup hm.fits p kind).subperm hsub).length_le
  rwa [List.length_map, ← List.countP_eq_length_filter] at hlength

theorem RandomDiagram.shape (h : RandomDiagram n d) : RandomShape m := by
  have hcontains {p : StateId} : m.contains p = true ↔ p.toNat < randomCount n := by
    rw [hd.contains_iff, h.length_nodes]
  refine ⟨fun e he => ?_, outgoing_nodup hm.fits, fun p hp => ?_, fun p hp => ?_, fun p hp => ?_,
    fun p hp => ?_⟩
  · have hedge := (hd.mem_transitions_iff hm.fits).1 he
    obtain ⟨es, hmem, hes⟩ := h.leaving_of_mem hedge
    exact ⟨hcontains.2 (h.source_lt hedge), hcontains.2 (hes.target_lt e hmem)⟩
  · obtain ⟨es, hes, hown⟩ := h.exists_leaving (hcontains.1 hp)
    obtain ⟨e, hmem, hkind⟩ : ∃ e ∈ es, (!e.label.isEpsilon) = true := by
      rw [← List.countP_pos_iff, hes.literals]
      exact Nat.succ_pos 2
    obtain ⟨p', x, q⟩ := e
    obtain rfl : p' = p := hes.source _ hmem
    have hedge := (hd.mem_transitions_iff hm.fits).2 ((hown _ rfl).2 hmem)
    exact List.length_pos_of_mem (mem_outgoing_iff.2 ⟨hedge, hkind⟩)
  · obtain ⟨es, hes, hown⟩ := h.exists_leaving (hcontains.1 hp)
    have hle := length_outgoing_le hm hd (!·.isEpsilon) fun e he => (hown e he).1
    exact hle.trans_eq hes.literals
  · obtain ⟨es, hes, hown⟩ := h.exists_leaving (hcontains.1 hp)
    have hle := length_outgoing_le hm hd Label.isEpsilon fun e he => (hown e he).1
    exact hle.trans hes.epsilons
  · have hlt := hd.contains_iff.1 hp
    rw [hd.name?, List.getElem?_eq_getElem hlt, Option.map_some,
      h.unnamed _ (List.getElem_mem hlt)]
    rfl

end Shape

/-- Nothing that is drawn is refused, and every automaton that can be drawn has the shape. -/
theorem randomAutomaton_shape (source : DrawSource σ) (n : Nat) (seed : σ) :
    ∃ m, randomAutomaton source n seed = .ok m ∧ assembleRandomAutomaton source n seed = .ok m ∧
      RandomShape m := by
  obtain ⟨m, d, hm, hrandom, hd, hwf⟩ := exists_randomAutomaton source n seed
  exact ⟨m, hm, (assembleRandomAutomaton_eq source n seed).trans hm, hrandom.shape hwf hd⟩

/-- A random word is as long as asked for, and over the binary digits. -/
theorem randomWord_spec (source : DrawSource σ) (length : Nat) (seed : σ) :
    (randomWord source length seed).length = length ∧
      ∀ a ∈ randomWord source length seed, a ∈ binary :=
  always_mapM_range_forall (fun _ _ => always_drawDigit source) seed

theorem randomCount_eq (n : Nat) : randomCount n = max n 1 % UInt32.size :=
  UInt32.toNat_ofNat'

/-- There are as many states as asked for, cut to 32 bits. With a state the first is initial and
every random word can be run, and without one no word at all. -/
structure RandomRuns (n : Nat) (m : Automaton Char) : Prop where
  stateCount : m.stateCount = max n 1 % UInt32.size
  uncut_iff : m.stateCount = max n 1 ↔ n < UInt32.size
  initial : m.initial = if m.stateCount = 0 then none else some 0
  runs : m.stateCount ≠ 0 → ∀ (τ : Type) (source : DrawSource τ) (length : Nat) (seed : τ),
    ∃ b, m.accepts (randomWord source length seed) = .ok b
  fails : m.stateCount = 0 → ∀ w, m.accepts w = .error .noInitialState

theorem RandomDiagram.runs (h : RandomDiagram n d) (hd : d.Depicts m) : RandomRuns n m := by
  have hcount : m.stateCount = randomCount n := by
    rw [hd.stateCount_eq h.valid.fits, h.length_nodes]
  have hinitial : m.initial = if m.stateCount = 0 then none else some 0 := by
    rw [hcount, hd.initial, h.initial]
  rw [randomCount_eq] at hcount
  refine ⟨hcount, ?_, hinitial, fun hsome τ source length seed => ?_, fun hnone => ?_⟩
  · rw [hcount, UInt32.size]
    omega
  · rw [if_neg hsome] at hinitial
    have hword : ∀ a ∈ randomWord source length seed, a ∈ m.alphabet := by
      rw [hd.alphabet, h.alphabet]
      exact (randomWord_spec source length seed).2
    exact ⟨_, accepts_eq_ok hinitial hword⟩
  · rw [if_pos hnone] at hinitial
    exact accepts_eq_error hinitial

theorem randomAutomaton_runs (source : DrawSource σ) (n : Nat) (seed : σ) :
    ∃ m, randomAutomaton source n seed = .ok m ∧ RandomRuns n m := by
  obtain ⟨m, d, hm, hrandom, hd, -⟩ := exists_randomAutomaton source n seed
  exact ⟨m, hm, hrandom.runs hd⟩

/-- The least number of which 32 bits keep nothing. -/
theorem randomAutomaton_cut_to_nothing : ∃ m,
    randomAutomaton mixedSource 4294967296 42 = .ok m ∧ m.stateCount = 0 ∧ m.initial = none ∧
      m.accepts (randomWord mixedSource 8 42) = .error .noInitialState := by
  obtain ⟨m, d, hm, hrandom, hd, -⟩ := exists_randomAutomaton mixedSource 4294967296 42
  have hruns := hrandom.runs hd
  have hnone : m.stateCount = 0 := hruns.stateCount.trans (by decide)
  have hinitial := hruns.initial
  rw [if_pos hnone] at hinitial
  exact ⟨m, hm, hnone, hinitial, hruns.fails hnone _⟩

/-- All checks of a survey hold, and a word can be run if and only if there is a state. -/
structure Survey.Passes (r : Survey) (n length : Nat) : Prop where
  stateCount : r.states.length = max n 1 % UInt32.size
  named : ∀ s ∈ r.states, s.2 = decimalName s.1
  initial : r.initial = if r.states.length = 0 then none else some 0
  alphabet : r.alphabet = binary.symbols
  oneToThreeLiterals : r.oneToThreeLiterals = true
  atMostOneEpsilon : r.atMostOneEpsilon = true
  sameAgain : r.sameAgain = true
  wordLength : r.wordLength = length
  wordIsBinary : r.wordIsBinary = true
  acceptsAnswers : r.acceptsAnswers = true ↔ r.states.length ≠ 0

section Checks
variable (hm : m.WellFormed) (h : RandomShape m)
include hm h

theorem RandomShape.degrees {s : State Char} (hs : (p, s) ∈ m.liveStates) :
    1 ≤ s.transitions.degree (!·.isEpsilon) ∧ s.transitions.degree (!·.isEpsilon) ≤ 3 ∧
      s.transitions.degree Label.isEpsilon ≤ 1 := by
  have hp : m.contains p = true := contains_iff.2 ⟨s, (mem_liveStates_iff hm.fits).1 hs⟩
  simp only [← length_outgoing hm.fits hs]
  exact ⟨h.literals_pos p hp, h.literals_le p hp, h.epsilons_le p hp⟩

theorem RandomShape.eq_decimalName {s : StateId × String} (hs : s ∈ m.states) :
    s.2 = decimalName s.1 := by
  have hname := (mem_states_iff hm.fits).1 hs
  have hp : m.contains s.1 = true := by rw [← isSome_name?, hname]; rfl
  exact Option.some.inj (hname.symm.trans (h.name? s.1 hp))

end Checks

theorem RandomRuns.isOk_iff (h : RandomRuns n m) (source : DrawSource σ) (length : Nat) (seed : σ) :
    (m.accepts (randomWord source length seed)).isOk = true ↔ m.stateCount ≠ 0 := by
  by_cases hzero : m.stateCount = 0
  · rw [h.fails hzero]
    simp [hzero, Except.isOk, Except.toBool]
  · obtain ⟨b, hb⟩ := h.runs hzero σ source length seed
    rw [hb]
    simp [hzero, Except.isOk, Except.toBool]

/-- A survey never faults, and its checks hold for every size, seed and length of the word. -/
theorem survey_passes (n : Nat) (seed : UInt64) (length : Nat) :
    ∃ r, survey n seed length = .ok r ∧ r.Passes n length := by
  obtain ⟨m, d, hm, hrandom, hd, hwf⟩ := exists_randomAutomaton mixedSource n seed
  have hshape := hrandom.shape hwf hd
  have hruns := hrandom.runs hd
  have hstates : m.states.length = m.stateCount := List.length_map _
  have hword := randomWord_spec mixedSource length seed
  rw [survey, hm, ok_bind, ok_bind]
  refine ⟨_, rfl, ?_⟩
  exact {
    stateCount := hstates.trans hruns.stateCount
    named := fun s hs => hshape.eq_decimalName hwf hs
    initial := hstates ▸ hruns.initial
    alphabet := congrArg Alphabet.symbols (hd.alphabet.trans hrandom.alphabet)
    oneToThreeLiterals := by
      rw [List.all_eq_true]
      intro s hs
      obtain ⟨hpos, hle, -⟩ := hshape.degrees hwf hs
      simpa using ⟨hpos, hle⟩
    atMostOneEpsilon := by
      rw [List.all_eq_true]
      intro s hs
      obtain ⟨-, -, hle⟩ := hshape.degrees hwf hs
      exact decide_eq_true hle
    sameAgain := by simp
    wordLength := hword.1
    wordIsBinary := by simpa using hword.2
    acceptsAnswers := by
      rw [hstates]
      exact hruns.isOk_iff mixedSource length seed }

end Workload
end FiniteAutomata
