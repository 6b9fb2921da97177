import FiniteAutomata.Proofs.Copy
import FiniteAutomata.Proofs.ForeignSymbol

/-! The only way out of a copy is an epsilon edge from a final state to the new accepting state,
where every path ends. So after the first epsilon edge a path of the union is a path of one operand,
perhaps with that one edge more. -/
namespace FiniteAutomata.Automaton
variable {α : Type} [DecidableEq α] {a b c m : Automaton α} {f : StateId → StateId}
  {accept i j p q r : StateId} {x : Label α} {xs : List (Label α)} {u w : List α}

/-- `c` holds a copy of `m`, in which state `p` has the number `f p`. Besides the copied edges, the
ones that leave the copy are epsilon edges from its final states to `accept`, and no edge leads on
from there. -/
structure LeadsTo (m c : Automaton α) (f : StateId → StateId) (accept : StateId) : Prop where
  copied : ∀ {p x q}, ⟨p, x, q⟩ ∈ m.transitions → ⟨f p, x, f q⟩ ∈ c.transitions
  exits : ∀ {p}, p ∈ m.finals → ⟨f p, .epsilon, accept⟩ ∈ c.transitions
  only : ∀ {p x r}, m.contains p = true → ⟨f p, x, r⟩ ∈ c.transitions →
    (∃ q, ⟨p, x, q⟩ ∈ m.transitions ∧ r = f q) ∨ p ∈ m.finals ∧ x = .epsilon ∧ r = accept
  ends : ∀ {x r}, ⟨accept, x, r⟩ ∉ c.transitions
  outside : ∀ {p}, m.contains p = true → f p ≠ accept

theorem LeadsTo.reads_iff (h : LeadsTo m c f accept) (hm : m.WellFormed)
    (hp : m.contains p = true) : c.Reads (f p) w r ↔
      (∃ q, m.Reads p w q ∧ r = f q) ∨ r = accept ∧ ∃ k ∈ m.finals, m.Reads p w k := by
  constructor
  · intro hr
    obtain ⟨xs, hxs, rfl⟩ := hr
    rcases hxs.stays_or_leaves hm h.only hp
      with ⟨q, hrq, hstay⟩ | ⟨us, x, vs, k, o, rfl, hus, ⟨hk, hx, ho⟩, hvs⟩
    · exact .inl ⟨q, hstay.reads, hrq⟩
    · subst hx ho
      cases hvs with
      | nil =>
        rw [word_append, word_cons_epsilon, word_nil, List.append_nil]
        exact .inr ⟨rfl, k, hk, hus.reads⟩
      | cons edge _ => exact absurd edge h.ends
  · intro hr
    rcases hr with ⟨q, hq, rfl⟩ | ⟨rfl, k, hk, hread⟩
    · exact hq.map h.copied
    · have hend : c.Reads (f k) [] r := (Reads.refl c r).epsilon (h.exits hk)
      have happ := (hread.map h.copied).append hend
      rwa [List.append_nil] at happ

/-- A word leads somewhere from a state of the copy if it does from the original state. -/
theorem LeadsTo.exists_reads_iff (h : LeadsTo m c f accept) (hm : m.WellFormed)
    (hp : m.contains p = true) : (∃ r, c.Reads (f p) w r) ↔ ∃ q, m.Reads p w q := by
  simp only [h.reads_iff hm hp]
  constructor
  · intro hr
    obtain ⟨r, ⟨q, hq, -⟩ | ⟨-, k, -, hk⟩⟩ := hr
    · exact ⟨q, hq⟩
    · exact ⟨k, hk⟩
  · intro hq
    obtain ⟨q, hq⟩ := hq
    exact ⟨f q, .inl ⟨q, hq, rfl⟩⟩

theorem LeadsTo.reads_accept_iff (h : LeadsTo m c f accept) (hm : m.WellFormed)
    (hp : m.contains p = true) :
    c.Reads (f p) w accept ↔ ∃ k ∈ m.finals, m.Reads p w k := by
  rw [h.reads_iff hm hp]
  constructor
  · intro hr
    rcases hr with ⟨q, hq, hacc⟩ | ⟨-, hk⟩
    · exact absurd hacc.symm (h.outside (hq.target_live hm hp))
    · exact hk
  · intro hk
    exact .inr ⟨rfl, hk⟩

/-- The new start of a union, which comes after the copied states. -/
def unionStart (a b : Automaton α) : StateId := UInt32.ofNat (a.stateCount + b.stateCount)

/-- The new accepting state of a union. -/
def unionAccept (a b : Automaton α) : StateId := UInt32.ofNat (a.stateCount + b.stateCount + 1)

omit [DecidableEq α] in
theorem toNat_unionStart (fits : a.stateCount + b.stateCount + 2 ≤ UInt32.size) :
    (a.unionStart b).toNat = a.stateCount + b.stateCount :=
  UInt32.toNat_ofNat_of_lt' (by omega)

omit [DecidableEq α] in
theorem toNat_unionAccept (fits : a.stateCount + b.stateCount + 2 ≤ UInt32.size) :
    (a.unionAccept b).toNat = a.stateCount + b.stateCount + 1 :=
  UInt32.toNat_ofNat_of_lt' (by omega)

omit [DecidableEq α] in
theorem union_edge_iff : ⟨p, x, r⟩ ∈ (a.unionDiagram b i j).edges ↔
    ⟨p, x, r⟩ ∈ a.copiedEdges 0 ∨ ⟨p, x, r⟩ ∈ b.copiedEdges a.stateCount ∨
      x = .epsilon ∧
        (p = a.unionStart b ∧ (r = a.renumbered 0 i ∨ r = b.renumbered a.stateCount j) ∨
        r = a.unionAccept b ∧ ((∃ k ∈ a.finals, p = a.renumbered 0 k) ∨
          ∃ k ∈ b.finals, p = b.renumbered a.stateCount k)) := by
  have hedges : (a.unionDiagram b i j).edges = a.copiedEdges 0 ++ b.copiedEdges a.stateCount ++
      [Edge.epsilon (a.unionStart b) (a.renumbered 0 i),
        Edge.epsilon (a.unionStart b) (b.renumbered a.stateCount j)] ++
      a.finals.toList.map (fun k => Edge.epsilon (a.renumbered 0 k) (a.unionAccept b)) ++
      b.finals.toList.map fun k =>
        Edge.epsilon (b.renumbered a.stateCount k) (a.unionAccept b) := rfl
  simp only [hedges, List.mem_append, List.mem_map, List.mem_cons, List.not_mem_nil, or_false,
    Edge.epsilon, Edge.mk.injEq, StateSet.mem_toList, or_assoc]
  grind

omit [DecidableEq α] in
theorem length_union_nodes :
    (a.unionDiagram b i j).nodes.length = a.stateCount + b.stateCount + 2 := by
  simp [unionDiagram, Nat.add_assoc]

theorem valid_unionDiagram (ha : a.WellFormed) (hb : b.WellFormed) (hi : a.initial = some i)
    (hj : b.initial = some j) (hab : ∀ x, x ∈ a.alphabet ↔ x ∈ b.alphabet)
    (fits : a.stateCount + b.stateCount + 2 ≤ UInt32.size) : (a.unionDiagram b i j).Valid := by
  have hafits : 0 + a.stateCount ≤ UInt32.size := by omega
  have hbfits : a.stateCount + b.stateCount ≤ UInt32.size := by omega
  have hstart := toNat_unionStart fits
  have haccept := toNat_unionAccept fits
  have hfirst : ∀ {q}, a.contains q = true →
      (a.renumbered 0 q).toNat < a.stateCount + b.stateCount + 2 := by
    intro q hq
    have hlt := (inCopy_renumbered ha hafits hq).2
    omega
  have hsecond : ∀ {q}, b.contains q = true →
      (b.renumbered a.stateCount q).toNat < a.stateCount + b.stateCount + 2 := by
    intro q hq
    have hlt := (inCopy_renumbered hb hbfits hq).2
    omega
  refine ⟨?_, ?_, ?_, ?_⟩
  · rwa [length_union_nodes]
  · intro p x r he
    rw [length_union_nodes]
    rcases union_edge_iff.1 he with he | he | ⟨-, ⟨rfl, hr⟩ | ⟨rfl, hp⟩⟩
    · obtain ⟨⟨-, hp⟩, -, hr⟩ := inCopy_of_mem_copiedEdges ha hafits he
      omega
    · obtain ⟨⟨-, hp⟩, -, hr⟩ := inCopy_of_mem_copiedEdges hb hbfits he
      omega
    · refine ⟨by omega, ?_⟩
      rcases hr with rfl | rfl
      · exact hfirst (ha.initial_live hi)
      · exact hsecond (hb.initial_live hj)
    · refine ⟨?_, by omega⟩
      rcases hp with ⟨k, hk, rfl⟩ | ⟨k, hk, rfl⟩
      · exact hfirst (ha.final_live hk)
      · exact hsecond (hb.final_live hk)
  · intro p s r he
    rcases union_edge_iff.1 he with he | he | ⟨hx, -⟩
    · exact label_valid_of_mem_copiedEdges ha he
    · exact (hab s).2 (label_valid_of_mem_copiedEdges hb he)
    · cases hx
  · intro q hq
    obtain rfl : a.unionStart b = q := Option.some.inj hq
    rw [length_union_nodes]
    omega

theorem mem_finals_union_iff (fits : a.stateCount + b.stateCount + 2 ≤ UInt32.size)
    (hd : (a.unionDiagram b i j).Depicts c) : r ∈ c.finals ↔ r = a.unionAccept b := by
  have hnodes : (a.unionDiagram b i j).nodes =
      (a.innerNodes ++ b.innerNodes ++ [⟨none, false⟩]) ++ [⟨none, true⟩] := by
    simp [unionDiagram]
  have hinner : ∀ n ∈ a.innerNodes ++ b.innerNodes ++ [⟨none, false⟩], n.isFinal = false := by
    intro n hn
    rcases List.mem_append.1 hn with hn | hn
    · rcases List.mem_append.1 hn with hn | hn
      · exact isFinal_of_mem_innerNodes hn
      · exact isFinal_of_mem_innerNodes hn
    · rw [List.mem_singleton.1 hn]
  rw [hd.mem_finals_iff_last hnodes hinner, ← UInt32.toNat_inj, toNat_unionAccept fits,
    List.length_append, List.length_append, length_innerNodes, length_innerNodes,
    List.length_singleton]

section Copies
variable (ha : a.WellFormed) (hb : b.WellFormed)
  (fits : a.stateCount + b.stateCount + 2 ≤ UInt32.size)
include ha hb fits

/-- The edges that start in neither copy are the two that leave the start. -/
theorem union_edge_outside (hp : a.stateCount + b.stateCount ≤ p.toNat)
    (he : ⟨p, x, r⟩ ∈ (a.unionDiagram b i j).edges) :
    p = a.unionStart b ∧ x = .epsilon ∧
      (r = a.renumbered 0 i ∨ r = b.renumbered a.stateCount j) := by
  have hafits : 0 + a.stateCount ≤ UInt32.size := by omega
  have hbfits : a.stateCount + b.stateCount ≤ UInt32.size := by omega
  rcases union_edge_iff.1 he with he | he | ⟨hx, ⟨hstart, hr⟩ | ⟨-, ⟨k, hk, hpk⟩ | ⟨k, hk, hpk⟩⟩⟩
  · have hlt := (inCopy_of_mem_copiedEdges ha hafits he).1.2
    omega
  · have hlt := (inCopy_of_mem_copiedEdges hb hbfits he).1.2
    omega
  · exact ⟨hstart, hx, hr⟩
  · have hlt := (inCopy_renumbered ha hafits (ha.final_live hk)).2
    rw [← hpk] at hlt
    omega
  · have hlt := (inCopy_renumbered hb hbfits (hb.final_live hk)).2
    rw [← hpk] at hlt
    omega

theorem not_union_edge_of_accept : ⟨a.unionAccept b, x, r⟩ ∉ (a.unionDiagram b i j).edges := by
  have hstart := toNat_unionStart fits
  have haccept := toNat_unionAccept fits
  intro he
  have hp := (union_edge_outside ha hb fits (by omega) he).1
  rw [← hp] at hstart
  omega

theorem union_edge_of_first (hp : a.contains p = true)
    (he : ⟨a.renumbered 0 p, x, r⟩ ∈ (a.unionDiagram b i j).edges) :
    (∃ q, ⟨p, x, q⟩ ∈ a.transitions ∧ r = a.renumbered 0 q) ∨
      p ∈ a.finals ∧ x = .epsilon ∧ r = a.unionAccept b := by
  have hafits : 0 + a.stateCount ≤ UInt32.size := by omega
  have hbfits : a.stateCount + b.stateCount ≤ UInt32.size := by omega
  have hlt := (inCopy_renumbered ha hafits hp).2
  rcases union_edge_iff.1 he with he | he | ⟨hx, ⟨hpk, -⟩ | ⟨hr, ⟨k, hk, hpk⟩ | ⟨k, hk, hpk⟩⟩⟩
  · exact .inl (exists_of_mem_copiedEdges ha hafits hp he)
  · have hin := (inCopy_of_mem_copiedEdges hb hbfits he).1.1
    omega
  · rw [hpk, toNat_unionStart fits] at hlt
    omega
  · obtain rfl := (renumbered_inj ha hafits hp (ha.final_live hk)).1 hpk
    exact .inr ⟨hk, hx, hr⟩
  · have hin := (inCopy_renumbered hb hbfits (hb.final_live hk)).1
    rw [← hpk] at hin
    omega

theorem union_edge_of_second (hp : b.contains p = true)
    (he : ⟨b.renumbered a.stateCount p, x, r⟩ ∈ (a.unionDiagram b i j).edges) :
    (∃ q, ⟨p, x, q⟩ ∈ b.transitions ∧ r = b.renumbered a.stateCount q) ∨
      p ∈ b.finals ∧ x = .epsilon ∧ r = a.unionAccept b := by
  have hafits : 0 + a.stateCount ≤ UInt32.size := by omega
  have hbfits : a.stateCount + b.stateCount ≤ UInt32.size := by omega
  obtain ⟨hge, hlt⟩ := inCopy_renumbered hb hbfits hp
  rcases union_edge_iff.1 he with he | he | ⟨hx, ⟨hpk, -⟩ | ⟨hr, ⟨k, hk, hpk⟩ | ⟨k, hk, hpk⟩⟩⟩
  · have hin := (inCopy_of_mem_copiedEdges ha hafits he).1.2
    omega
  · exact .inl (exists_of_mem_copiedEdges hb hbfits hp he)
  · rw [hpk, toNat_unionStart fits] at hlt
    omega
  · have hin := (inCopy_renumbered ha hafits (ha.final_live hk)).2
    rw [← hpk] at hin
    omega
  · obtain rfl := (renumbered_inj hb hbfits hp (hb.final_live hk)).1 hpk
    exact .inr ⟨hk, hx, hr⟩

variable (hc : c.WellFormed) (hd : (a.unionDiagram b i j).Depicts c)
include hc hd

theorem leadsTo_of_first : LeadsTo a c (a.renumbered 0) (a.unionAccept b) where
  copied he := (hd.mem_transitions_iff hc.fits).2
    (union_edge_iff.2 (.inl (mem_copiedEdges_of_mem_transitions he)))
  exits hk := (hd.mem_transitions_iff hc.fits).2
    (union_edge_iff.2 (.inr (.inr ⟨rfl, .inr ⟨rfl, .inl ⟨_, hk, rfl⟩⟩⟩)))
  only hp he := union_edge_of_first ha hb fits hp ((hd.mem_transitions_iff hc.fits).1 he)
  ends he := not_union_edge_of_accept ha hb fits ((hd.mem_transitions_iff hc.fits).1 he)
  outside hp heq := by
    have hafits : 0 + a.stateCount ≤ UInt32.size := by omega
    have hlt := (inCopy_renumbered ha hafits hp).2
    rw [heq, toNat_unionAccept fits] at hlt
    omega

theorem leadsTo_of_second :
    LeadsTo b c (b.renumbered a.stateCount) (a.unionAccept b) where
  copied he := (hd.mem_transitions_iff hc.fits).2
    (union_edge_iff.2 (.inr (.inl (mem_copiedEdges_of_mem_transitions he))))
  exits hk := (hd.mem_transitions_iff hc.fits).2
    (union_edge_iff.2 (.inr (.inr ⟨rfl, .inr ⟨rfl, .inr ⟨_, hk, rfl⟩⟩⟩)))
  only hp he := union_edge_of_second ha hb fits hp ((hd.mem_transitions_iff hc.fits).1 he)
  ends he := not_union_edge_of_accept ha hb fits ((hd.mem_transitions_iff hc.fits).1 he)
  outside hp heq := by
    have hbfits : a.stateCount + b.stateCount ≤ UInt32.size := by omega
    have hlt := (inCopy_renumbered hb hbfits hp).2
    rw [heq, toNat_unionAccept fits] at hlt
    omega

/-- A path from the start goes on in one of the copies. -/
theorem reads_unionStart_iff : c.Reads (a.unionStart b) w r ↔ w = [] ∧ r = a.unionStart b ∨
    c.Reads (a.renumbered 0 i) w r ∨ c.Reads (b.renumbered a.stateCount j) w r := by
  have hedge : ∀ {p x r}, ⟨p, x, r⟩ ∈ c.transitions ↔ ⟨p, x, r⟩ ∈ (a.unionDiagram b i j).edges :=
    hd.mem_transitions_iff hc.fits
  constructor
  · intro h
    obtain ⟨xs, hxs, hw⟩ := h
    generalize hp : a.unionStart b = p at hxs
    cases hxs with
    | nil => exact .inl ⟨hw.symm, rfl⟩
    | cons edge rest =>
      have hstart := toNat_unionStart fits
      rw [hp] at hstart
      obtain ⟨-, rfl, hq⟩ := union_edge_outside ha hb fits hstart.ge (hedge.1 edge)
      rw [word_cons_epsilon] at hw
      rcases hq with rfl | rfl
      · exact .inr (.inl ⟨_, rest, hw⟩)
      · exact .inr (.inr ⟨_, rest, hw⟩)
  · intro h
    rcases h with ⟨rfl, rfl⟩ | h | h
    · exact .refl c _
    · exact h.epsilon (hedge.2 (union_edge_iff.2 (.inr (.inr ⟨rfl, .inl ⟨rfl, .inl rfl⟩⟩))))
    · exact h.epsilon (hedge.2 (union_edge_iff.2 (.inr (.inr ⟨rfl, .inl ⟨rfl, .inr rfl⟩⟩))))

variable (hi : a.initial = some i) (hj : b.initial = some j)
include hi hj

/-- The run of the union has died when the runs of both operands have. -/
theorem stepAll_union_eq_empty_iff : c.stepAll (c.closureOf (a.unionStart b)) u = ∅ ↔
    a.stepAll (a.closureOf i) u = ∅ ∧ b.stepAll (b.closureOf j) u = ∅ := by
  have hfirst := (leadsTo_of_first ha hb fits hc hd).exists_reads_iff (w := u) ha
    (ha.initial_live hi)
  have hsecond := (leadsTo_of_second ha hb fits hc hd).exists_reads_iff (w := u) hb
    (hb.initial_live hj)
  have hunion : (∃ r, c.Reads (a.unionStart b) u r) ↔
      (∃ q, a.Reads i u q) ∨ ∃ q, b.Reads j u q := by
    simp only [reads_unionStart_iff ha hb fits hc hd, exists_or, hfirst, hsecond]
    constructor
    · intro h
      rcases h with ⟨_, rfl, -⟩ | h
      · exact .inl ⟨i, .refl a i⟩
      · exact h
    · intro h
      exact .inr h
  rw [stepAll_closureOf_eq_empty_iff hc, stepAll_closureOf_eq_empty_iff ha,
    stepAll_closureOf_eq_empty_iff hb, ← not_exists, hunion, not_or, not_exists, not_exists]

/-- The union accepts what one of the operands accepts. -/
theorem meets_finals_union : (c.stepAll (c.closureOf (a.unionStart b)) w).meets c.finals =
    ((a.stepAll (a.closureOf i) w).meets a.finals ||
      (b.stepAll (b.closureOf j) w).meets b.finals) := by
  have hfirst := (leadsTo_of_first ha hb fits hc hd).reads_accept_iff (w := w) ha
    (ha.initial_live hi)
  have hsecond := (leadsTo_of_second ha hb fits hc hd).reads_accept_iff (w := w) hb
    (hb.initial_live hj)
  have hne : a.unionAccept b ≠ a.unionStart b := by
    rw [ne_eq, ← UInt32.toNat_inj, toNat_unionAccept fits, toNat_unionStart fits]
    omega
  have hunion : (∃ r ∈ c.finals, c.Reads (a.unionStart b) w r) ↔
      (∃ k ∈ a.finals, a.Reads i w k) ∨ ∃ k ∈ b.finals, b.Reads j w k := by
    simp only [mem_finals_union_iff fits hd, exists_eq_left,
      reads_unionStart_iff ha hb fits hc hd, hfirst, hsecond, hne, and_false, false_or]
  rw [Bool.eq_iff_iff, Bool.or_eq_true, meets_finals_iff hc, meets_finals_iff ha,
    meets_finals_iff hb, hunion]

theorem language_of_unionDiagram : c.language = a.language + b.language := by
  have hinit : c.initial = some (a.unionStart b) := hd.initial
  ext w
  rw [mem_language_iff hc hinit, Language.mem_add, mem_language_iff ha hi, mem_language_iff hb hj,
    ← meets_finals_iff hc, ← meets_finals_iff ha, ← meets_finals_iff hb,
    meets_finals_union ha hb fits hc hd hi hj, Bool.or_eq_true]

end Copies

/-- Two automata over the same symbols have a union. On a word that is a fault for one of them it
is the same fault, and on any other word it answers whether one of them accepts. It ends its run
before a foreign symbol if and only if the runs of both have died by then. -/
theorem union_answers_as_operands (ha : a.Reachable) (hb : b.Reachable) (hi : a.initial = some i)
    (hj : b.initial = some j) (hab : ∀ x, x ∈ a.alphabet ↔ x ∈ b.alphabet)
    (fits : a.stateCount + b.stateCount + 2 ≤ UInt32.size) :
    ∃ c, a.union b = .ok c ∧ c.alphabet = a.alphabet ∧
      (∀ w x, a.accepts w = .error (.invalidSymbol x) ∨ b.accepts w = .error (.invalidSymbol x) →
        c.accepts w = .error (.invalidSymbol x)) ∧
      (∀ w, (∀ x, a.accepts w ≠ .error (.invalidSymbol x) ∧
          b.accepts w ≠ .error (.invalidSymbol x)) →
        ∃ y z, a.accepts w = .ok y ∧ b.accepts w = .ok z ∧ c.accepts w = .ok (y || z)) ∧
      ∀ u x v, (∀ s ∈ u, s ∈ a.alphabet) → x ∉ a.alphabet →
        (c.run (u ++ x :: v) = .ok ∅ ↔ a.run u = .ok ∅ ∧ b.run u = .ok ∅) := by
  have hva := ha.wellFormed
  have hvb := hb.wellFormed
  obtain ⟨c, hbuild, hd, hc⟩ := (valid_unionDiagram hva hvb hi hj hab fits).build
  have hunion : a.union b = .ok c := by
    rw [union, findOperands_eq_ok hi hj hab]
    exact hbuild
  have hinit : c.initial = some (a.unionStart b) := hd.initial
  have halphabet : c.alphabet = a.alphabet := hd.alphabet
  have hover : ∀ {u : List α}, (∀ s ∈ u, s ∈ a.alphabet) →
      (∀ s ∈ u, s ∈ b.alphabet) ∧ ∀ s ∈ u, s ∈ c.alphabet := fun hu =>
    ⟨fun s hs => (hab s).1 (hu s hs), fun s hs => halphabet ▸ hu s hs⟩
  have hforeign : ∀ {x}, x ∉ a.alphabet → x ∉ b.alphabet ∧ x ∉ c.alphabet := fun hx =>
    ⟨mt (hab _).2 hx, halphabet ▸ hx⟩
  have hdead := fun u => stepAll_union_eq_empty_iff (u := u) hva hvb fits hc hd hi hj
  refine ⟨c, hunion, halphabet, fun w x => ?_, fun w hw => ?_, fun u x v hu hx => ?_⟩
  · rcases a.alphabet.over_or_foreign w with hw | ⟨u, y, v, rfl, hu, hy⟩
    · rw [accepts_eq_ok hi hw, accepts_eq_ok hj (hover hw).1]
      simp
    · rw [accepts_foreign_eq_error_iff hi hu hy,
        accepts_foreign_eq_error_iff hj (hover hu).1 (hforeign hy).1,
        accepts_foreign_eq_error_iff hinit (hover hu).2 (hforeign hy).2, ne_eq, ne_eq, ne_eq,
        hdead u, not_and_or]
      intro h
      rcases h with ⟨ha, hyx⟩ | ⟨hb, hyx⟩
      · exact ⟨.inl ha, hyx⟩
      · exact ⟨.inr hb, hyx⟩
  · rcases a.alphabet.over_or_foreign w with hw | ⟨u, y, v, rfl, hu, hy⟩
    · refine ⟨_, _, accepts_eq_ok hi hw, accepts_eq_ok hj (hover hw).1, ?_⟩
      rw [accepts_eq_ok hinit (hover hw).2, meets_finals_union hva hvb fits hc hd hi hj]
    · have hnone := hw y
      rw [ne_eq, ne_eq, accepts_foreign_eq_error_iff hi hu hy,
        accepts_foreign_eq_error_iff hj (hover hu).1 (hforeign hy).1] at hnone
      have hfirst : a.stepAll (a.closureOf i) u = ∅ := by
        by_contra h
        exact hnone.1 ⟨h, rfl⟩
      have hsecond : b.stepAll (b.closureOf j) u = ∅ := by
        by_contra h
        exact hnone.2 ⟨h, rfl⟩
      refine ⟨false, false, ?_, ?_, ?_⟩
      · rw [accepts_foreign hi hu hy, if_pos hfirst]
      · rw [accepts_foreign hj (hover hu).1 (hforeign hy).1, if_pos hsecond]
      · rw [accepts_foreign hinit (hover hu).2 (hforeign hy).2,
          if_pos ((hdead u).2 ⟨hfirst, hsecond⟩), Bool.or_false]
  · rw [run_foreign hinit (hover hu).2 (hforeign hx).2, run_eq_ok hi hu, run_eq_ok hj (hover hu).1,
      Except.ok.injEq, Except.ok.injEq, ← hdead u]
    split_ifs with h <;> simp [h]

/-- Reads one symbol and dies on the next. -/
def oneSymbol : Automaton Bool :=
  (empty ⟨[true], by decide⟩).afterAll
    [.addState true false none, .addState false true none, .addTransition 0 (.literal true) 1]

/-- Reads any number of symbols. -/
def anySymbols : Automaton Bool :=
  (empty ⟨[true], by decide⟩).afterAll
    [.addState true true none, .addTransition 0 (.literal true) 0]

/-- One operand dies where the other lives on, and one symbol is foreign to both. -/
theorem union_answers_as_operands_of_loop : oneSymbol.Reachable ∧ anySymbols.Reachable ∧
    oneSymbol.initial = some 0 ∧ anySymbols.initial = some 0 ∧
    (∀ x, x ∈ oneSymbol.alphabet ↔ x ∈ anySymbols.alphabet) ∧
    oneSymbol.stateCount + anySymbols.stateCount + 2 ≤ UInt32.size ∧
    ∃ c, oneSymbol.union anySymbols = .ok c ∧ c.alphabet = oneSymbol.alphabet ∧
      (∀ w x, oneSymbol.accepts w = .error (.invalidSymbol x) ∨
          anySymbols.accepts w = .error (.invalidSymbol x) →
        c.accepts w = .error (.invalidSymbol x)) ∧
      (∀ w, (∀ x, oneSymbol.accepts w ≠ .error (.invalidSymbol x) ∧
          anySymbols.accepts w ≠ .error (.invalidSymbol x)) →
        ∃ y z, oneSymbol.accepts w = .ok y ∧ anySymbols.accepts w = .ok z ∧
          c.accepts w = .ok (y || z)) ∧
      ∀ u x v, (∀ s ∈ u, s ∈ oneSymbol.alphabet) → x ∉ oneSymbol.alphabet →
        (c.run (u ++ x :: v) = .ok ∅ ↔ oneSymbol.run u = .ok ∅ ∧ anySymbols.run u = .ok ∅) := by
  have hone : oneSymbol.Reachable := .afterAll (.empty _) _ (by decide +kernel)
  have hany : anySymbols.Reachable := .afterAll (.empty _) _ (by decide +kernel)
  have hi : oneSymbol.initial = some 0 := by decide +kernel
  have hj : anySymbols.initial = some 0 := by decide +kernel
  have hab : ∀ x, x ∈ oneSymbol.alphabet ↔ x ∈ anySymbols.alphabet := by decide +kernel
  have fits : oneSymbol.stateCount + anySymbols.stateCount + 2 ≤ UInt32.size := by
    decide +kernel
  exact ⟨hone, hany, hi, hj, hab, fits, union_answers_as_operands hone hany hi hj hab fits⟩

end FiniteAutomata.Automaton
