import FiniteAutomata.Diagram
import FiniteAutomata.Proofs.WellFormed
import Mathlib.Data.List.Induction

namespace FiniteAutomata

namespace Automaton
variable {α : Type} {m m' m'' : Automaton α} {p q : StateId}

/-- The second automaton may differ from the first in its edges only. -/
structure SameStates (m m' : Automaton α) : Prop where
  alphabet : m'.alphabet = m.alphabet
  size : m'.slots.size = m.slots.size
  name? : ∀ q, m'.name? q = m.name? q
  initial : m'.initial = m.initial
  finals : m'.finals = m.finals

theorem SameStates.refl (m : Automaton α) : SameStates m m := ⟨rfl, rfl, fun _ => rfl, rfl, rfl⟩

theorem SameStates.trans (h : SameStates m m') (h' : SameStates m' m'') : SameStates m m'' :=
  ⟨h'.alphabet.trans h.alphabet, h'.size.trans h.size, fun q => (h'.name? q).trans (h.name? q),
    h'.initial.trans h.initial, h'.finals.trans h.finals⟩

theorem isSome_name? : (m.name? q).isSome = m.contains q := by
  simp [name?, contains]

theorem SameStates.contains (h : SameStates m m') (q : StateId) : m'.contains q = m.contains q := by
  rw [← isSome_name?, h.name?, isSome_name?]

theorem sameStates_modifyTransitions (f : Transitions α → Transitions α) :
    SameStates m (m.modifyTransitions p f) := by
  refine ⟨rfl, by simp [modifyTransitions], fun q => ?_, rfl, rfl⟩
  rw [name?, state?_modifyTransitions, name?]
  split_ifs with hq
  · cases m.state? q <;> rfl
  · rfl

variable [DecidableEq α]

theorem checkLabel_congr (h : m'.alphabet = m.alphabet) (x : Label α) :
    m'.checkLabel x = m.checkLabel x := by
  cases x <;> simp [checkLabel, checkSymbol, h]

theorem SameStates.checkLabel (h : SameStates m m') (x : Label α) :
    m'.checkLabel x = m.checkLabel x :=
  checkLabel_congr h.alphabet x

end Automaton

namespace Diagram
open Automaton
variable {α : Type} {m m' : Automaton α} {q : StateId} {alphabet : Alphabet α} {nodes : List Node}

theorem withNodes_append_singleton (nodes : List Node) (n : Node) :
    withNodes alphabet (nodes ++ [n]) =
      (withNodes alphabet nodes).addState false n.isFinal n.name := by
  simp [withNodes, List.foldl_append]

theorem size_withNodes (alphabet : Alphabet α) (nodes : List Node) :
    (withNodes alphabet nodes).slots.size = nodes.length := by
  induction nodes using List.reverseRecOn with
  | nil => rfl
  | append_singleton nodes n ih =>
    rw [withNodes_append_singleton, size_addState, ih, List.length_append, List.length_singleton]

theorem alphabet_withNodes (alphabet : Alphabet α) (nodes : List Node) :
    (withNodes alphabet nodes).alphabet = alphabet := by
  induction nodes using List.reverseRecOn with
  | nil => rfl
  | append_singleton nodes n ih =>
    rw [withNodes_append_singleton]
    exact ih

theorem initial_withNodes (alphabet : Alphabet α) (nodes : List Node) :
    (withNodes alphabet nodes).initial = none := by
  induction nodes using List.reverseRecOn with
  | nil => rfl
  | append_singleton nodes n ih =>
    rw [withNodes_append_singleton]
    exact ih

/-- Whether a number is the next one, when so many are taken. -/
theorem eq_nextId_withNodes_iff (h : nodes.length < UInt32.size) :
    q = (withNodes alphabet nodes).nextId ↔ q.toNat = nodes.length := by
  have hsize := size_withNodes alphabet nodes
  rw [← UInt32.toNat_inj, toNat_nextId (by omega), hsize]

theorem state?_withNodes (h : nodes.length ≤ UInt32.size) :
    (withNodes alphabet nodes).state? q =
      nodes[q.toNat]?.map fun n => ⟨n.name.getD (decimalName q), ∅⟩ := by
  induction nodes using List.reverseRecOn with
  | nil => simp [withNodes]
  | append_singleton nodes n ih =>
    rw [List.length_append, List.length_singleton] at h
    have hsize := size_withNodes alphabet nodes
    rw [withNodes_append_singleton, state?_addState (by omega)]
    split_ifs with hq
    · have hlen := (eq_nextId_withNodes_iff (by omega)).1 hq
      rw [hlen, List.getElem?_concat_length, hq]
      rfl
    · have hlen := mt (eq_nextId_withNodes_iff (by omega)).2 hq
      rw [ih (by omega), List.getElem?_append]
      split_ifs with hlt
      · rfl
      · rw [List.getElem?_eq_none (by omega), List.getElem?_eq_none (by
          rw [List.length_singleton]
          omega)]

theorem mem_finals_withNodes (h : nodes.length ≤ UInt32.size) :
    q ∈ (withNodes alphabet nodes).finals ↔
      ∃ n, nodes[q.toNat]? = some n ∧ n.isFinal = true := by
  induction nodes using List.reverseRecOn with
  | nil => simp [withNodes, empty]
  | append_singleton nodes n ih =>
    rw [List.length_append, List.length_singleton] at h
    have hq : q = (withNodes alphabet nodes).nextId ↔ q.toNat = nodes.length :=
      eq_nextId_withNodes_iff (by omega)
    have hins : q ∈ (withNodes alphabet (nodes ++ [n])).finals ↔
        q.toNat = nodes.length ∧ n.isFinal = true ∨ q ∈ (withNodes alphabet nodes).finals := by
      rw [withNodes_append_singleton, ← hq, addState]
      cases n.isFinal <;> simp
    rw [hins, ih (by omega), List.getElem?_append]
    split_ifs with hlt
    · simp [Nat.ne_of_lt hlt]
    · have hnone : nodes[q.toNat]? = none := List.getElem?_eq_none (by omega)
      simp only [hnone, List.getElem?_singleton]
      split_ifs with hz
      · have hlen : q.toNat = nodes.length := by omega
        simp [hlen]
      · have hlen : q.toNat ≠ nodes.length := by omega
        simp [hlen]

variable [DecidableEq α] {edges : List (Edge α)} {d : Diagram α}

/-- Edges between states of the automaton, on its symbols, can all be added. -/
theorem addEdges_eq_ok (h : ∀ e ∈ edges, m.checkLabel e.label = .ok () ∧
    m.contains e.target = true ∧ m.contains e.source = true) :
    ∃ m', addEdges m edges = .ok m' ∧ SameStates m m' ∧
      ∀ {p x q}, q ∈ m'.destinations p x ↔ q ∈ m.destinations p x ∨ ⟨p, x, q⟩ ∈ edges := by
  induction edges generalizing m with
  | nil => exact ⟨m, rfl, .refl m, by simp⟩
  | cons e edges ih =>
    have he := h e List.mem_cons_self
    have hadd := addTransition_eq_ok_iff.2 ⟨he.1, he.2.1, he.2.2, rfl⟩
    have hsame := sameStates_modifyTransitions (m := m) (p := e.source) (·.insert e.label e.target)
    have hrest : ∀ e' ∈ edges, _ := fun e' he' => h e' (List.mem_cons_of_mem e he')
    simp only [← hsame.checkLabel, ← hsame.contains] at hrest
    obtain ⟨m', hm', hsame', hdest⟩ := ih hrest
    refine ⟨m', ?_, hsame.trans hsame', fun {p x q} => ?_⟩
    · rw [addEdges, List.foldlM_cons, hadd]
      exact hm'
    · have hpxq : (⟨p, x, q⟩ : Edge α) = e ↔ p = e.source ∧ x = e.label ∧ q = e.target := by
        cases e
        simp
      rw [hdest, mem_destinations_addTransition hadd, List.mem_cons, hpxq, or_assoc]

/-- Every edge and the mark name nodes of the diagram, and every symbol is one of its alphabet. -/
structure Valid (d : Diagram α) : Prop where
  fits : d.nodes.length ≤ UInt32.size
  ends_lt : ∀ {p x q}, ⟨p, x, q⟩ ∈ d.edges →
    p.toNat < d.nodes.length ∧ q.toNat < d.nodes.length
  label_valid : ∀ {p a q}, ⟨p, .literal a, q⟩ ∈ d.edges → a ∈ d.alphabet
  initial_lt : ∀ {q}, d.initial = some q → q.toNat < d.nodes.length

/-- The automaton holds what the diagram lists. -/
structure Depicts (d : Diagram α) (m : Automaton α) : Prop where
  alphabet : m.alphabet = d.alphabet
  size : m.slots.size = d.nodes.length
  name? : ∀ q, m.name? q = d.nodes[q.toNat]?.map fun n => n.name.getD (decimalName q)
  initial : m.initial = d.initial
  mem_finals : ∀ {q}, q ∈ m.finals ↔ ∃ n, d.nodes[q.toNat]? = some n ∧ n.isFinal = true
  mem_destinations : ∀ {p x q}, q ∈ m.destinations p x ↔ ⟨p, x, q⟩ ∈ d.edges

theorem Depicts.contains_iff (h : d.Depicts m) :
    m.contains q = true ↔ q.toNat < d.nodes.length := by
  rw [← isSome_name?, h.name?]
  simp

theorem Depicts.mem_transitions_iff (h : d.Depicts m) (hm : m.slots.size ≤ UInt32.size)
    {p q : StateId} {x : Label α} : ⟨p, x, q⟩ ∈ m.transitions ↔ ⟨p, x, q⟩ ∈ d.edges := by
  rw [Automaton.mem_transitions_iff hm, h.mem_destinations]

/-- The states of the automaton are numbered without gaps. -/
theorem Depicts.stateIds_eq (h : d.Depicts m) (fits : d.nodes.length ≤ UInt32.size) :
    m.stateIds = (List.range d.nodes.length).map UInt32.ofNat := by
  have hsize : m.slots.size ≤ UInt32.size := by rwa [h.size]
  have hnat : ∀ {k}, k < d.nodes.length → (UInt32.ofNat k).toNat = k := fun hk =>
    UInt32.toNat_ofNat_of_lt' (by omega)
  have hascending : ((List.range d.nodes.length).map UInt32.ofNat).Pairwise (· < ·) := by
    rw [List.pairwise_map]
    refine List.pairwise_lt_range.imp_of_mem fun {k l} hk hl hkl => ?_
    rwa [UInt32.lt_iff_toNat_lt, hnat (List.mem_range.1 hk), hnat (List.mem_range.1 hl)]
  refine Automaton.stateIds_eq hsize hascending fun q => ?_
  rw [h.contains_iff, List.mem_map]
  constructor
  · intro hq
    obtain ⟨k, hk, rfl⟩ := hq
    rw [List.mem_range] at hk
    rwa [hnat hk]
  · intro hq
    exact ⟨q.toNat, List.mem_range.2 hq, UInt32.ofNat_toNat⟩

theorem Depicts.stateCount_eq (h : d.Depicts m) (fits : d.nodes.length ≤ UInt32.size) :
    m.stateCount = d.nodes.length := by
  rw [← length_stateIds, h.stateIds_eq fits, List.length_map, List.length_range]

/-- If only the last node is final, then so is only the state of the last number. -/
theorem Depicts.mem_finals_iff_last (h : d.Depicts m) {name : Option String}
    (hnodes : d.nodes = nodes ++ [⟨name, true⟩]) (hinner : ∀ n ∈ nodes, n.isFinal = false) :
    q ∈ m.finals ↔ q.toNat = nodes.length := by
  rw [h.mem_finals, hnodes]
  constructor
  · intro hq
    obtain ⟨n, hn, hf⟩ := hq
    rcases Nat.lt_trichotomy q.toNat nodes.length with hlt | heq | hgt
    · rw [List.getElem?_append_left hlt] at hn
      rw [hinner n (List.mem_of_getElem? hn)] at hf
      cases hf
    · exact heq
    · have hlen := (List.getElem?_eq_some_iff.1 hn).1
      rw [List.length_append, List.length_singleton] at hlen
      omega
  · intro hq
    refine ⟨⟨name, true⟩, ?_, rfl⟩
    rw [hq, List.getElem?_concat_length]

theorem depicts_withNodes (h : d.nodes.length ≤ UInt32.size) :
    Depicts { d with initial := none, edges := [] } (withNodes d.alphabet d.nodes) where
  alphabet := alphabet_withNodes _ _
  size := size_withNodes _ _
  name? q := by
    rw [Automaton.name?, state?_withNodes h]
    cases d.nodes[q.toNat]? <;> rfl
  initial := initial_withNodes _ _
  mem_finals := mem_finals_withNodes h
  mem_destinations {p x q} := by
    simp [mem_destinations_iff, state?_withNodes h]

theorem Valid.addEdges (h : d.Valid) : ∃ m,
    addEdges (withNodes d.alphabet d.nodes) d.edges = .ok m ∧
      Depicts { d with initial := none } m := by
  have hn := depicts_withNodes h.fits
  have hedges : ∀ e ∈ d.edges, (withNodes d.alphabet d.nodes).checkLabel e.label = .ok () ∧
      (withNodes d.alphabet d.nodes).contains e.target = true ∧
      (withNodes d.alphabet d.nodes).contains e.source = true := by
    intro e he
    obtain ⟨p, x, q⟩ := e
    obtain ⟨hp, hq⟩ := h.ends_lt he
    refine ⟨checkLabel_eq_ok_iff.2 fun a ha => ?_, hn.contains_iff.2 hq, hn.contains_iff.2 hp⟩
    obtain rfl : x = .literal a := ha
    rw [hn.alphabet]
    exact h.label_valid he
  obtain ⟨m, hm, hsame, hdest⟩ := addEdges_eq_ok hedges
  refine ⟨m, hm, hsame.alphabet.trans hn.alphabet, hsame.size.trans hn.size,
    fun q => (hsame.name? q).trans (hn.name? q), hsame.initial.trans hn.initial, ?_, ?_⟩
  · intro q
    rw [hsame.finals]
    exact hn.mem_finals
  · intro p x q
    rw [hdest, hn.mem_destinations]
    simp

theorem Valid.exists_build (h : d.Valid) : ∃ m, d.build = .ok m ∧ d.Depicts m := by
  obtain ⟨m, hm, hd⟩ := h.addEdges
  cases hi : d.initial with
  | none =>
    refine ⟨m, ?_, hd.alphabet, hd.size, hd.name?, hd.initial.trans hi.symm, hd.mem_finals,
      hd.mem_destinations⟩
    rw [Diagram.build, hm, hi]
    rfl
  | some i =>
    have hmark := setInitial_eq_ok_iff.2 ⟨hd.contains_iff.2 (h.initial_lt hi), rfl⟩
    refine ⟨{ m with initial := some i }, ?_, hd.alphabet, hd.size, hd.name?, hi.symm,
      hd.mem_finals, hd.mem_destinations⟩
    rw [Diagram.build, hm, hi]
    exact hmark

theorem wellFormed_withNodes (h : nodes.length ≤ UInt32.size) :
    (withNodes alphabet nodes).WellFormed := by
  induction nodes using List.reverseRecOn with
  | nil => exact wellFormed_empty alphabet
  | append_singleton nodes n ih =>
    rw [List.length_append, List.length_singleton] at h
    have hsize := size_withNodes alphabet nodes
    rw [withNodes_append_singleton]
    exact wellFormed_addState (ih (by omega)) (by omega) _ _ _

theorem addEdges_keeps (h : addEdges m edges = .ok m') : SameStates m m' ∧
    (m.WellFormed → m'.WellFormed) := by
  induction edges generalizing m with
  | nil =>
    obtain rfl := Except.ok.inj h
    exact ⟨.refl m, id⟩
  | cons e edges ih =>
    rw [addEdges, List.foldlM_cons] at h
    obtain ⟨m₁, hm₁, hm'⟩ := bind_eq_ok_iff.1 h
    have hsame : SameStates m m₁ := by
      obtain ⟨-, -, -, rfl⟩ := addTransition_eq_ok_iff.1 hm₁
      exact sameStates_modifyTransitions _
    obtain ⟨hsame', hkeep⟩ := ih hm'
    exact ⟨hsame.trans hsame', fun hm => hkeep (wellFormed_addTransition hm hm₁)⟩

theorem setInitial_keeps {i : Option StateId} (h : setInitial m i = .ok m') :
    m'.slots.size = m.slots.size ∧ (m.WellFormed → m'.WellFormed) := by
  cases i with
  | none =>
    obtain rfl := Except.ok.inj h
    exact ⟨rfl, id⟩
  | some i =>
    obtain ⟨-, rfl⟩ := setInitial_eq_ok_iff.1 h
    exact ⟨rfl, fun hm => wellFormed_setInitial hm h⟩

/-- The numbers in use are those of the nodes, and the automaton is well-formed if they last. -/
theorem build_keeps (h : d.build = .ok m) : m.slots.size = d.nodes.length ∧
    (d.nodes.length ≤ UInt32.size → m.WellFormed) := by
  obtain ⟨m₁, hm₁, hm⟩ := bind_eq_ok_iff.1 h
  obtain ⟨hsame, hkeep⟩ := addEdges_keeps hm₁
  obtain ⟨hsize, hkeep'⟩ := setInitial_keeps hm
  refine ⟨?_, fun hfits => hkeep' (hkeep (wellFormed_withNodes hfits))⟩
  rw [hsize, hsame.size, size_withNodes]

theorem wellFormed_build (h : d.build = .ok m) (fits : m.slots.size ≤ UInt32.size) :
    m.WellFormed := by
  obtain ⟨hsize, hkeep⟩ := build_keeps h
  exact hkeep (hsize ▸ fits)

/-- A valid diagram can be built, and what it lists is what the automaton holds. -/
theorem Valid.build (h : d.Valid) : ∃ m, d.build = .ok m ∧ d.Depicts m ∧ m.WellFormed := by
  obtain ⟨m, hm, hd⟩ := h.exists_build
  exact ⟨m, hm, hd, (build_keeps hm).2 h.fits⟩

end Diagram
end FiniteAutomata
