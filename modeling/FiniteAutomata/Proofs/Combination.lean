import FiniteAutomata.Proofs.Assembly
import FiniteAutomata.Proofs.Reachable

namespace FiniteAutomata

/-- States of these names, numbered in their order. -/
def numberedFromZero (names : List String) : List (StateId × String) :=
  names.zipIdx.map fun c => (UInt32.ofNat c.2, c.1)

namespace Diagram
variable {α : Type} [DecidableEq α] {d : Diagram α} {c : Automaton α}

theorem Depicts.states_eq (h : d.Depicts c) (fits : d.nodes.length ≤ UInt32.size) :
    c.states = numberedFromZero (d.nodes.mapIdx fun k n => n.name.getD (Nat.repr k)) := by
  rw [Automaton.states_eq_map (h.size ▸ fits), h.stateIds_eq fits, List.map_map]
  apply List.ext_getElem
  · simp [numberedFromZero]
  · intro k hk hk'
    have hlt : k < d.nodes.length := by simpa using hk
    have hnat : (UInt32.ofNat k).toNat = k := UInt32.toNat_ofNat_of_lt' (by omega)
    simp [numberedFromZero, h.name?, hnat, decimalName, hlt]

end Diagram

namespace Automaton
variable {α : Type} {m a b c : Automaton α} {offset : Nat} {i j p q r : StateId}
  {x : Label α}

def names (m : Automaton α) : List String := m.states.map (·.2)

theorem mapIdx_name (l : List (StateId × String)) (isFinal : StateId → Bool) (text : Nat → String) :
    (l.map fun s => (⟨some s.2, isFinal s.1⟩ : Node)).mapIdx (fun k n => n.name.getD (text k)) =
      l.map (·.2) := by
  induction l generalizing text with
  | nil => rfl
  | cons s l ih => simp [List.mapIdx_cons, ih fun k => text (k + 1)]

/-- State `r` is the copy of state `q`: it has the place of `q` among the states in ascending order,
counted from `offset` on. -/
def CopyOf (m : Automaton α) (offset : Nat) (q r : StateId) : Prop :=
  ∃ k, m.stateIds[k]? = some q ∧ r.toNat = offset + k

def CopyOfEdge (m : Automaton α) (offset : Nat) (e : Edge α) : Prop :=
  ∃ p q, ⟨p, e.label, q⟩ ∈ m.transitions ∧ m.CopyOf offset p e.source ∧ m.CopyOf offset q e.target

def CopyOfInitial (m : Automaton α) (offset : Nat) (r : StateId) : Prop :=
  ∃ i, m.initial = some i ∧ m.CopyOf offset i r

def CopyOfFinal (m : Automaton α) (offset : Nat) (r : StateId) : Prop :=
  ∃ q ∈ m.finals, m.CopyOf offset q r

/-- From the final states of the first operand into the initial state of the second. -/
structure IsConcat (a b c : Automaton α) : Prop where
  alphabet : c.alphabet = a.alphabet
  states : c.states = numberedFromZero (a.names ++ b.names)
  initial : ∀ r, c.initial = some r ↔ a.CopyOfInitial 0 r
  mem_finals : ∀ r, r ∈ c.finals ↔ b.CopyOfFinal a.stateCount r
  mem_transitions : ∀ p x r, ⟨p, x, r⟩ ∈ c.transitions ↔
    a.CopyOfEdge 0 ⟨p, x, r⟩ ∨ b.CopyOfEdge a.stateCount ⟨p, x, r⟩ ∨
      x = .epsilon ∧ a.CopyOfFinal 0 p ∧ b.CopyOfInitial a.stateCount r

/-- From a new start into both initial states, and from all final states to a new accepting one. -/
structure IsUnion (a b c : Automaton α) : Prop where
  alphabet : c.alphabet = a.alphabet
  states : c.states = numberedFromZero (a.names ++ b.names ++
    [Nat.repr (a.stateCount + b.stateCount), Nat.repr (a.stateCount + b.stateCount + 1)])
  initial : ∀ r, c.initial = some r ↔ r.toNat = a.stateCount + b.stateCount
  mem_finals : ∀ r, r ∈ c.finals ↔ r.toNat = a.stateCount + b.stateCount + 1
  mem_transitions : ∀ p x r, ⟨p, x, r⟩ ∈ c.transitions ↔
    a.CopyOfEdge 0 ⟨p, x, r⟩ ∨ b.CopyOfEdge a.stateCount ⟨p, x, r⟩ ∨
      x = .epsilon ∧
        (p.toNat = a.stateCount + b.stateCount ∧
            (a.CopyOfInitial 0 r ∨ b.CopyOfInitial a.stateCount r) ∨
          (a.CopyOfFinal 0 p ∨ b.CopyOfFinal a.stateCount p) ∧
            r.toNat = a.stateCount + b.stateCount + 1)

/-- From a new start and from the final states, into the initial state and to a new accepting
one. -/
structure IsStar (a c : Automaton α) : Prop where
  alphabet : c.alphabet = a.alphabet
  states : c.states = numberedFromZero
    (a.names ++ [Nat.repr a.stateCount, Nat.repr (a.stateCount + 1)])
  initial : ∀ r, c.initial = some r ↔ r.toNat = a.stateCount
  mem_finals : ∀ r, r ∈ c.finals ↔ r.toNat = a.stateCount + 1
  mem_transitions : ∀ p x r, ⟨p, x, r⟩ ∈ c.transitions ↔ a.CopyOfEdge 0 ⟨p, x, r⟩ ∨
    x = .epsilon ∧ (p.toNat = a.stateCount ∨ a.CopyOfFinal 0 p) ∧
      (a.CopyOfInitial 0 r ∨ r.toNat = a.stateCount + 1)

variable [DecidableEq α]

theorem copyOf_iff (hm : m.WellFormed) (fits : offset + m.stateCount ≤ UInt32.size)
    (hq : m.contains q = true) : m.CopyOf offset q r ↔ r = m.renumbered offset q := by
  have hmem := (mem_stateIds_iff hm.fits).2 hq
  rw [← UInt32.toNat_inj, toNat_renumbered hm fits hq]
  simp only [CopyOf, getElem?_stateIds_iff hm.fits]
  constructor
  · rintro ⟨k, ⟨-, rfl⟩, hr⟩
    exact hr
  · intro hr
    exact ⟨_, ⟨hmem, rfl⟩, hr⟩

theorem mem_copiedEdges_iff_copyOf (hm : m.WellFormed)
    (fits : offset + m.stateCount ≤ UInt32.size) :
    ⟨p, x, r⟩ ∈ m.copiedEdges offset ↔ m.CopyOfEdge offset ⟨p, x, r⟩ := by
  rw [mem_copiedEdges_iff]
  refine exists₂_congr fun p' q' => and_congr_right fun he => ?_
  obtain ⟨hp, hq⟩ := hm.ends_live he
  rw [copyOf_iff hm fits hp, copyOf_iff hm fits hq, eq_comm, @eq_comm _ _ r]

theorem copyOfFinal_iff (hm : m.WellFormed) (fits : offset + m.stateCount ≤ UInt32.size) :
    m.CopyOfFinal offset r ↔ ∃ q ∈ m.finals, r = m.renumbered offset q :=
  exists_congr fun _ => and_congr_right fun hq => copyOf_iff hm fits (hm.final_live hq)

theorem copyOfInitial_iff (hm : m.WellFormed) (fits : offset + m.stateCount ≤ UInt32.size)
    (hq : m.initial = some q) : m.CopyOfInitial offset r ↔ r = m.renumbered offset q := by
  rw [← copyOf_iff hm fits (hm.initial_live hq)]
  simp [CopyOfInitial, hq]

theorem isConcat (ha : a.WellFormed) (hb : b.WellFormed) (hi : a.initial = some i)
    (hj : b.initial = some j) (fits : a.stateCount + b.stateCount ≤ UInt32.size)
    (hd : (a.concatDiagram b i j).Depicts c) : IsConcat a b c := by
  have hafits : 0 + a.stateCount ≤ UInt32.size := by omega
  have hlength : (a.concatDiagram b i j).nodes.length ≤ UInt32.size := by
    rwa [length_concat_nodes]
  have hsize : c.slots.size ≤ UInt32.size := hd.size ▸ hlength
  refine ⟨hd.alphabet, ?_, fun r => ?_, fun r => ?_, fun p x r => ?_⟩
  · have hnodes : (a.concatDiagram b i j).nodes = a.innerNodes ++ b.nodes := rfl
    rw [hd.states_eq hlength, hnodes, List.mapIdx_append, innerNodes, nodes,
      mapIdx_name _ (fun _ => false), mapIdx_name _ b.isFinal fun k => Nat.repr (k + _)]
    rfl
  · rw [hd.initial, copyOfInitial_iff ha hafits hi]
    simp [concatDiagram, eq_comm]
  · rw [mem_finals_concat_iff hb fits hd, copyOfFinal_iff hb fits]
  · rw [hd.mem_transitions_iff hsize, concat_edge_iff, mem_copiedEdges_iff_copyOf ha hafits,
      mem_copiedEdges_iff_copyOf hb fits, copyOfFinal_iff ha hafits, copyOfInitial_iff hb fits hj]
    grind

theorem isUnion (ha : a.WellFormed) (hb : b.WellFormed) (hi : a.initial = some i)
    (hj : b.initial = some j) (fits : a.stateCount + b.stateCount + 2 ≤ UInt32.size)
    (hd : (a.unionDiagram b i j).Depicts c) : IsUnion a b c := by
  have hafits : 0 + a.stateCount ≤ UInt32.size := by omega
  have hbfits : a.stateCount + b.stateCount ≤ UInt32.size := by omega
  have hlength : (a.unionDiagram b i j).nodes.length ≤ UInt32.size := by
    rwa [length_union_nodes]
  have hsize : c.slots.size ≤ UInt32.size := hd.size ▸ hlength
  have hstart : ∀ {r : StateId}, r = a.unionStart b ↔ r.toNat = a.stateCount + b.stateCount := by
    intro r
    rw [← UInt32.toNat_inj, toNat_unionStart fits]
  have haccept : ∀ {r : StateId},
      r = a.unionAccept b ↔ r.toNat = a.stateCount + b.stateCount + 1 := by
    intro r
    rw [← UInt32.toNat_inj, toNat_unionAccept fits]
  refine ⟨hd.alphabet, ?_, fun r => ?_, fun r => ?_, fun p x r => ?_⟩
  · have hnodes : (a.unionDiagram b i j).nodes =
        a.innerNodes ++ b.innerNodes ++ [⟨none, false⟩, ⟨none, true⟩] := rfl
    rw [hd.states_eq hlength, hnodes, List.mapIdx_append, List.mapIdx_append, innerNodes,
      innerNodes, mapIdx_name _ (fun _ => false),
      mapIdx_name _ (fun _ => false) fun k => Nat.repr (k + _)]
    simp [names, List.mapIdx_cons, stateCount, states, Nat.add_comm]
  · rw [hd.initial, ← hstart]
    simp [unionDiagram, unionStart, eq_comm]
  · rw [mem_finals_union_iff fits hd, haccept]
  · rw [hd.mem_transitions_iff hsize, union_edge_iff, mem_copiedEdges_iff_copyOf ha hafits,
      mem_copiedEdges_iff_copyOf hb hbfits, copyOfFinal_iff ha hafits, copyOfFinal_iff hb hbfits,
      copyOfInitial_iff ha hafits hi, copyOfInitial_iff hb hbfits hj, hstart, haccept]
    grind

theorem isStar (ha : a.WellFormed) (hi : a.initial = some i)
    (fits : a.stateCount + 2 ≤ UInt32.size) (hd : (a.starDiagram i).Depicts c) : IsStar a c := by
  have hafits : 0 + a.stateCount ≤ UInt32.size := by omega
  have hlength : (a.starDiagram i).nodes.length ≤ UInt32.size := by rwa [length_star_nodes]
  have hsize : c.slots.size ≤ UInt32.size := hd.size ▸ hlength
  have hstart : ∀ {r : StateId}, r = a.starStart ↔ r.toNat = a.stateCount := by
    intro r
    rw [← UInt32.toNat_inj, toNat_starStart fits]
  have haccept : ∀ {r : StateId}, r = a.starAccept ↔ r.toNat = a.stateCount + 1 := by
    intro r
    rw [← UInt32.toNat_inj, toNat_starAccept fits]
  refine ⟨hd.alphabet, ?_, fun r => ?_, fun r => ?_, fun p x r => ?_⟩
  · have hnodes : (a.starDiagram i).nodes = a.innerNodes ++ [⟨none, false⟩, ⟨none, true⟩] := rfl
    rw [hd.states_eq hlength, hnodes, List.mapIdx_append, innerNodes,
      mapIdx_name _ (fun _ => false)]
    simp [names, List.mapIdx_cons, stateCount, states, Nat.add_comm]
  · rw [hd.initial, ← hstart]
    simp [starDiagram, starStart, eq_comm]
  · rw [mem_finals_star_iff fits hd, haccept]
  · rw [hd.mem_transitions_iff hsize, star_edge_iff, mem_copiedEdges_iff_copyOf ha hafits,
      copyOfFinal_iff ha hafits, copyOfInitial_iff ha hafits hi, hstart, haccept]
    grind

theorem findOperands_of_mismatch (hab : ¬∀ x, x ∈ a.alphabet ↔ x ∈ b.alphabet) :
    a.findOperands b = .error .alphabetMismatch := by
  have hsymbols : a.alphabet.sameSymbols b.alphabet = false := by
    rwa [← Bool.not_eq_true, sameSymbols_iff]
  rw [findOperands, hsymbols]
  rfl

theorem findOperands_of_missing (hab : ∀ x, x ∈ a.alphabet ↔ x ∈ b.alphabet)
    (h : a.initial = none ∨ b.initial = none) : a.findOperands b = .error .noInitialState := by
  have hdo : a.findOperands b = a.findInitial >>= fun i => b.findInitial >>= fun j =>
      pure (i, j) := by
    rw [findOperands, sameSymbols_iff.2 hab]
    rfl
  rw [hdo, findInitial, findInitial]
  cases hi : a.initial with
  | none => rfl
  | some i =>
    rw [h.resolve_left (by simp [hi])]
    rfl

omit [DecidableEq α] in
/-- Two operands are combined, unless their alphabets differ or else an initial state is missing. -/
structure CombinesTo (a b : Automaton α) (result : Except (Fault α) (Automaton α))
    (Combined : Automaton α → Prop) : Prop where
  mismatch : result = .error .alphabetMismatch ↔ ¬∀ x, x ∈ a.alphabet ↔ x ∈ b.alphabet
  missing : result = .error .noInitialState ↔
    (∀ x, x ∈ a.alphabet ↔ x ∈ b.alphabet) ∧ (a.initial = none ∨ b.initial = none)
  combined : (∀ x, x ∈ a.alphabet ↔ x ∈ b.alphabet) → a.initial ≠ none → b.initial ≠ none →
    ∃ c, result = .ok c ∧ Combined c
  faults : ∀ f, result = .error f → f = .alphabetMismatch ∨ f = .noInitialState

theorem combinesTo {Combined : Automaton α → Prop}
    {build : StateId × StateId → Except (Fault α) (Automaton α)}
    (h : ∀ i j, (∀ x, x ∈ a.alphabet ↔ x ∈ b.alphabet) → a.initial = some i →
      b.initial = some j → ∃ c, build (i, j) = .ok c ∧ Combined c) :
    CombinesTo a b (a.findOperands b >>= build) Combined := by
  by_cases hab : ∀ x, x ∈ a.alphabet ↔ x ∈ b.alphabet
  · by_cases hmissing : a.initial = none ∨ b.initial = none
    · have hresult : (a.findOperands b >>= build) = .error .noInitialState := by
        rw [findOperands_of_missing hab hmissing]
        rfl
      exact ⟨by simp [hresult, hab], by simp [hresult, hab, hmissing],
        fun _ ha hb => absurd hmissing (by simp [ha, hb]), by simp [hresult]⟩
    · obtain ⟨hai, hbi⟩ := not_or.1 hmissing
      obtain ⟨i, hi⟩ := Option.ne_none_iff_exists'.1 hai
      obtain ⟨j, hj⟩ := Option.ne_none_iff_exists'.1 hbi
      obtain ⟨c, hc, hcombined⟩ := h i j hab hi hj
      have hresult : (a.findOperands b >>= build) = .ok c := by
        rw [findOperands_eq_ok hi hj hab]
        exact hc
      exact ⟨by simp [hresult, hab], by simp [hresult, hai, hbi],
        fun _ _ _ => ⟨c, hresult, hcombined⟩, by simp [hresult]⟩
  · have hresult : (a.findOperands b >>= build) = .error .alphabetMismatch := by
      rw [findOperands_of_mismatch hab]
      rfl
    exact ⟨by simp [hresult, hab], by simp [hresult, hab], fun h => absurd h hab, by simp [hresult]⟩

/-- Assembled step by step or built from a diagram, the combinations of two automata have the
copies of their operands and the edges between them, and no more. Operands are refused only for
different alphabets and a missing initial state. -/
theorem combination_exact (ha : a.Reachable) (hb : b.Reachable) :
    (a.stateCount + b.stateCount ≤ UInt32.size →
      a.assembleConcat b = a.concat b ∧ CombinesTo a b (a.concat b) (IsConcat a b)) ∧
    (a.stateCount + b.stateCount + 2 ≤ UInt32.size →
      a.assembleUnion b = a.union b ∧ CombinesTo a b (a.union b) (IsUnion a b)) ∧
    (a.stateCount + 2 ≤ UInt32.size → a.assembleStar = a.star ∧
      (a.star = .error .noInitialState ↔ a.initial = none) ∧
      (a.initial ≠ none → ∃ c, a.star = .ok c ∧ IsStar a c) ∧
      ∀ f, a.star = .error f → f = .noInitialState) := by
  have hva := ha.wellFormed
  have hvb := hb.wellFormed
  refine ⟨fun fits => ⟨assembleConcat_eq hva hvb fits, combinesTo fun i j hab hi hj => ?_⟩,
    fun fits => ⟨assembleUnion_eq hva hvb fits, combinesTo fun i j hab hi hj => ?_⟩,
    fun fits => ⟨assembleStar_eq hva fits, ?_⟩⟩
  · obtain ⟨c, hc, hd, -⟩ := (valid_concatDiagram hva hvb hi hj hab fits).build
    exact ⟨c, hc, isConcat hva hvb hi hj fits hd⟩
  · obtain ⟨c, hc, hd, -⟩ := (valid_unionDiagram hva hvb hi hj hab fits).build
    exact ⟨c, hc, isUnion hva hvb hi hj fits hd⟩
  · cases hi : a.initial with
    | none =>
      have hresult : a.star = .error .noInitialState := by
        rw [star, findInitial, hi]
        rfl
      simp [hresult]
    | some i =>
      obtain ⟨c, hc, hd, -⟩ := (valid_starDiagram hva hi fits).build
      have hresult : a.star = .ok c := by
        rw [star, findInitial_eq_ok hi]
        exact hc
      simp [hresult, isStar hva hi fits hd]

/-- One edge between states whose numbers do not start from zero, over the symbols in the other
order. -/
def lateEdge : Automaton Bool :=
  (empty (.ofList [true, false])).afterAll
    [.addState false false none, .addState false true none, .addState true false (some "in"),
      .addTransition 2 (.literal false) 1, .removeState 0]

/-- The order of the symbols does not matter, the symbols do. -/
theorem combination_exact_of_lateEdge : epsilonCycle.Reachable ∧ lateEdge.Reachable ∧
    epsilonCycle.stateCount + lateEdge.stateCount ≤ UInt32.size ∧
    epsilonCycle.stateCount + lateEdge.stateCount + 2 ≤ UInt32.size ∧
    lateEdge.stateCount + 2 ≤ UInt32.size ∧
    (∃ c, epsilonCycle.concat lateEdge = .ok c ∧ IsConcat epsilonCycle lateEdge c) ∧
    (∃ c, epsilonCycle.union lateEdge = .ok c ∧ IsUnion epsilonCycle lateEdge c) ∧
    (∃ c, lateEdge.star = .ok c ∧ IsStar lateEdge c) ∧
    lateEdge.assembleUnion (empty (.ofList [true])) = .error .alphabetMismatch := by
  have ha := reachable_epsilonCycle
  have hb : lateEdge.Reachable := .afterAll (.empty _) _ (by decide +kernel)
  have hi : epsilonCycle.initial ≠ none := by decide +kernel
  have hj : lateEdge.initial ≠ none := by decide +kernel
  have hab : ∀ x, x ∈ epsilonCycle.alphabet ↔ x ∈ lateEdge.alphabet := by
    rw [← sameSymbols_iff]
    decide +kernel
  have fits : epsilonCycle.stateCount + lateEdge.stateCount + 2 ≤ UInt32.size := by decide +kernel
  have hstarFits : lateEdge.stateCount + 2 ≤ UInt32.size := by decide +kernel
  obtain ⟨hconcat, hunion, -⟩ := combination_exact ha hb
  obtain ⟨-, -, hstar⟩ := combination_exact hb ha
  obtain ⟨-, hrefused, -⟩ := combination_exact hb (.empty (.ofList [true]))
  obtain ⟨hassembled, houtcome⟩ := hrefused (by decide +kernel)
  have hdiffer : ¬∀ x, x ∈ lateEdge.alphabet ↔
      x ∈ (empty (.ofList [true])).alphabet := by
    rw [← sameSymbols_iff]
    decide +kernel
  exact ⟨ha, hb, by omega, fits, hstarFits, (hconcat (by omega)).2.combined hab hi hj,
    (hunion fits).2.combined hab hi hj, (hstar hstarFits).2.2.1 hj,
    hassembled.trans (houtcome.mismatch.2 hdiffer)⟩

end Automaton
end FiniteAutomata
