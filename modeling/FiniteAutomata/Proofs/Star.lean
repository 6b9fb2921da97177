import FiniteAutomata.Proofs.Copy
import FiniteAutomata.Proofs.Simulation

/-! An accepting path of the star runs through the copy of the operand any number of times. It is
cut at the edge by which it first leaves the copy, and the rest is shorter. -/
namespace FiniteAutomata.Automaton
open Computability
variable {α : Type} [DecidableEq α] {a s : Automaton α} {i p r : StateId} {x : Label α}
  {xs : List (Label α)}

/-- The new start of a star, which comes after the copied states. -/
def starStart (a : Automaton α) : StateId := UInt32.ofNat a.stateCount

/-- The new accepting state of a star. -/
def starAccept (a : Automaton α) : StateId := UInt32.ofNat (a.stateCount + 1)

omit [DecidableEq α] in
theorem toNat_starStart (fits : a.stateCount + 2 ≤ UInt32.size) :
    a.starStart.toNat = a.stateCount :=
  UInt32.toNat_ofNat_of_lt' (by omega)

omit [DecidableEq α] in
theorem toNat_starAccept (fits : a.stateCount + 2 ≤ UInt32.size) :
    a.starAccept.toNat = a.stateCount + 1 :=
  UInt32.toNat_ofNat_of_lt' (by omega)

omit [DecidableEq α] in
/-- Besides the copied edges there are epsilon edges from the start and from each final state, to
the initial state and to the accepting one. -/
theorem star_edge_iff : ⟨p, x, r⟩ ∈ (a.starDiagram i).edges ↔
    ⟨p, x, r⟩ ∈ a.copiedEdges 0 ∨ (p = a.starStart ∨ ∃ k ∈ a.finals, p = a.renumbered 0 k) ∧
      x = .epsilon ∧ (r = a.renumbered 0 i ∨ r = a.starAccept) := by
  have hedges : (a.starDiagram i).edges = a.copiedEdges 0 ++
      [Edge.epsilon a.starStart (a.renumbered 0 i), Edge.epsilon a.starStart a.starAccept] ++
      a.finals.toList.flatMap fun k => [Edge.epsilon (a.renumbered 0 k) (a.renumbered 0 i),
        Edge.epsilon (a.renumbered 0 k) a.starAccept] := rfl
  simp only [hedges, List.mem_append, List.mem_flatMap, List.mem_cons, List.not_mem_nil, or_false,
    Edge.epsilon, Edge.mk.injEq, StateSet.mem_toList, or_assoc]
  grind

omit [DecidableEq α] in
theorem length_star_nodes : (a.starDiagram i).nodes.length = a.stateCount + 2 := by
  simp [starDiagram]

theorem valid_starDiagram (ha : a.WellFormed) (hi : a.initial = some i)
    (fits : a.stateCount + 2 ≤ UInt32.size) : (a.starDiagram i).Valid := by
  have hafits : 0 + a.stateCount ≤ UInt32.size := by omega
  have hstart := toNat_starStart fits
  have haccept := toNat_starAccept fits
  have hcopy : ∀ {q}, a.contains q = true → (a.renumbered 0 q).toNat < a.stateCount + 2 := by
    intro q hq
    have hlt := (inCopy_renumbered ha hafits hq).2
    omega
  refine ⟨?_, ?_, ?_, ?_⟩
  · rwa [length_star_nodes]
  · intro p x r he
    rw [length_star_nodes]
    rcases star_edge_iff.1 he with he | ⟨hp, -, hr⟩
    · obtain ⟨⟨-, hp⟩, -, hr⟩ := inCopy_of_mem_copiedEdges ha hafits he
      omega
    · constructor
      · rcases hp with rfl | ⟨k, hk, rfl⟩
        · omega
        · exact hcopy (ha.final_live hk)
      · rcases hr with rfl | rfl
        · exact hcopy (ha.initial_live hi)
        · omega
  · intro p b r he
    rcases star_edge_iff.1 he with he | ⟨-, hx, -⟩
    · exact label_valid_of_mem_copiedEdges ha he
    · cases hx
  · intro q hq
    obtain rfl : a.starStart = q := Option.some.inj hq
    rw [length_star_nodes]
    omega

theorem star_edge_of_copy (ha : a.WellFormed) (fits : a.stateCount + 2 ≤ UInt32.size)
    (hp : a.contains p = true) (he : ⟨a.renumbered 0 p, x, r⟩ ∈ (a.starDiagram i).edges) :
    (∃ q, ⟨p, x, q⟩ ∈ a.transitions ∧ r = a.renumbered 0 q) ∨
      p ∈ a.finals ∧ x = .epsilon ∧ (r = a.renumbered 0 i ∨ r = a.starAccept) := by
  have hafits : 0 + a.stateCount ≤ UInt32.size := by omega
  rcases star_edge_iff.1 he with he | ⟨hpk | ⟨k, hk, hpk⟩, hx, hr⟩
  · exact .inl (exists_of_mem_copiedEdges ha hafits hp he)
  · have hlt := (inCopy_renumbered ha hafits hp).2
    rw [hpk, toNat_starStart fits] at hlt
    omega
  · obtain rfl := (renumbered_inj ha hafits hp (ha.final_live hk)).1 hpk
    exact .inr ⟨hk, hx, hr⟩

/-- The edges that do not start in the copy are the two that leave the start. -/
theorem star_edge_outside (ha : a.WellFormed) (fits : a.stateCount + 2 ≤ UInt32.size)
    (hp : a.stateCount ≤ p.toNat) (he : ⟨p, x, r⟩ ∈ (a.starDiagram i).edges) :
    p = a.starStart ∧ x = .epsilon ∧ (r = a.renumbered 0 i ∨ r = a.starAccept) := by
  have hafits : 0 + a.stateCount ≤ UInt32.size := by omega
  rcases star_edge_iff.1 he with he | ⟨hstart | ⟨k, hk, hpk⟩, hx, hr⟩
  · have hlt := (inCopy_of_mem_copiedEdges ha hafits he).1.2
    omega
  · exact ⟨hstart, hx, hr⟩
  · have hlt := (inCopy_renumbered ha hafits (ha.final_live hk)).2
    rw [← hpk] at hlt
    omega

theorem not_star_edge_of_accept (ha : a.WellFormed) (fits : a.stateCount + 2 ≤ UInt32.size) :
    ⟨a.starAccept, x, r⟩ ∉ (a.starDiagram i).edges := by
  have hstart := toNat_starStart fits
  have haccept := toNat_starAccept fits
  intro he
  have hp := (star_edge_outside ha fits (by omega) he).1
  rw [← hp] at hstart
  omega

theorem mem_finals_star_iff (fits : a.stateCount + 2 ≤ UInt32.size)
    (hd : (a.starDiagram i).Depicts s) : r ∈ s.finals ↔ r = a.starAccept := by
  have hnodes : (a.starDiagram i).nodes =
      (a.innerNodes ++ [⟨none, false⟩]) ++ [⟨none, true⟩] := by
    simp [starDiagram]
  have hinner : ∀ n ∈ a.innerNodes ++ [⟨none, false⟩], n.isFinal = false := by
    intro n hn
    rcases List.mem_append.1 hn with hn | hn
    · exact isFinal_of_mem_innerNodes hn
    · rw [List.mem_singleton.1 hn]
  rw [hd.mem_finals_iff_last hnodes hinner, ← UInt32.toNat_inj, toNat_starAccept fits,
    List.length_append, length_innerNodes, List.length_singleton]

/-- A path from the initial state of the copy to the accepting state reads words of the operand, one
after the other. The induction is on its length: every return to the initial state leaves less. -/
theorem word_mem_kstar_of_path (ha : a.WellFormed) (hs : s.WellFormed) (hi : a.initial = some i)
    (fits : a.stateCount + 2 ≤ UInt32.size) (hd : (a.starDiagram i).Depicts s)
    (h : s.Path (a.renumbered 0 i) xs a.starAccept) : Label.word xs ∈ a.language∗ := by
  have hafits : 0 + a.stateCount ≤ UInt32.size := by omega
  have hlive := ha.initial_live hi
  have hedge : ∀ {p x r}, ⟨p, x, r⟩ ∈ s.transitions ↔ ⟨p, x, r⟩ ∈ (a.starDiagram i).edges :=
    hd.mem_transitions_iff hs.fits
  induction hn : xs.length using Nat.strong_induction_on generalizing xs with
  | _ n ih =>
    rcases h.stays_or_leaves ha (fun hp he => star_edge_of_copy ha fits hp (hedge.1 he)) hlive
      with ⟨q, hq, hstay⟩ | ⟨us, x, vs, k, o, hxs, hus, ⟨hk, hx, ho⟩, hvs⟩
    · have hlt := (inCopy_renumbered ha hafits (hstay.target_live ha hlive)).2
      rw [← hq, toNat_starAccept fits] at hlt
      omega
    · subst hxs hx
      have hu : Label.word us ∈ a.language := (mem_language_iff ha hi).2 ⟨k, hk, hus.reads⟩
      have hv : Label.word vs ∈ a.language∗ := by
        rcases ho with rfl | rfl
        · rw [List.length_append, List.length_cons] at hn
          exact ih vs.length (by omega) hvs rfl
        · cases hvs with
          | nil => exact Language.nil_mem_kstar _
          | cons edge _ => exact absurd (hedge.1 edge) (not_star_edge_of_accept ha fits)
      obtain ⟨ws, hws, hmem⟩ := Language.mem_kstar.1 hv
      rw [word_append, word_cons_epsilon, hws]
      exact Language.mem_kstar.2 ⟨Label.word us :: ws, rfl, List.forall_mem_cons.2 ⟨hu, hmem⟩⟩

/-- Words of the operand can be read one after the other from any state with epsilon edges to the
initial state of the copy and to the accepting state. -/
theorem reads_flatten (ha : a.WellFormed) (hs : s.WellFormed) (hi : a.initial = some i)
    (hd : (a.starDiagram i).Depicts s) {ws : List (List α)} (hws : ∀ w ∈ ws, w ∈ a.language)
    (hp : p = a.starStart ∨ ∃ k ∈ a.finals, p = a.renumbered 0 k) :
    s.Reads p ws.flatten a.starAccept := by
  have hedge : ∀ {p x r}, ⟨p, x, r⟩ ∈ s.transitions ↔ ⟨p, x, r⟩ ∈ (a.starDiagram i).edges :=
    hd.mem_transitions_iff hs.fits
  induction ws generalizing p with
  | nil =>
    have hend := hedge.2 (star_edge_iff.2 (.inr ⟨hp, rfl, .inr rfl⟩))
    exact (Reads.refl s _).epsilon hend
  | cons w ws ih =>
    obtain ⟨hw, hws⟩ := List.forall_mem_cons.1 hws
    obtain ⟨k, hk, hread⟩ := (mem_language_iff ha hi).1 hw
    have hback := hedge.2 (star_edge_iff.2 (.inr ⟨hp, rfl, .inl rfl⟩))
    have hcopy : s.Reads (a.renumbered 0 i) w (a.renumbered 0 k) :=
      hread.map fun he => hedge.2 (star_edge_iff.2 (.inl (mem_copiedEdges_of_mem_transitions he)))
    rw [List.flatten_cons]
    exact (hcopy.append (ih hws (.inr ⟨k, hk, rfl⟩))).epsilon hback

theorem language_of_starDiagram (ha : a.WellFormed) (hs : s.WellFormed) (hi : a.initial = some i)
    (fits : a.stateCount + 2 ≤ UInt32.size) (hd : (a.starDiagram i).Depicts s) :
    s.language = a.language∗ := by
  have hedge : ∀ {p x r}, ⟨p, x, r⟩ ∈ s.transitions ↔ ⟨p, x, r⟩ ∈ (a.starDiagram i).edges :=
    hd.mem_transitions_iff hs.fits
  have hinit : s.initial = some a.starStart := hd.initial
  ext w
  rw [mem_language_iff hs hinit]
  constructor
  · intro h
    obtain ⟨r, hr, xs, hpath, hw⟩ := h
    obtain rfl := (mem_finals_star_iff fits hd).1 hr
    rw [← hw]
    generalize hp : a.starStart = p at hpath
    cases hpath with
    | nil =>
      have hstart := toNat_starStart fits
      rw [hp, toNat_starAccept fits] at hstart
      omega
    | cons edge hrest =>
      subst hp
      obtain ⟨-, rfl, ho⟩ := star_edge_outside ha fits (toNat_starStart fits).ge (hedge.1 edge)
      rw [word_cons_epsilon]
      rcases ho with rfl | rfl
      · exact word_mem_kstar_of_path ha hs hi fits hd hrest
      · cases hrest with
        | nil => exact Language.nil_mem_kstar _
        | cons edge _ => exact absurd (hedge.1 edge) (not_star_edge_of_accept ha fits)
  · intro hw
    obtain ⟨ws, rfl, hws⟩ := Language.mem_kstar.1 hw
    exact ⟨_, (mem_finals_star_iff fits hd).2 rfl, reads_flatten ha hs hi hd hws (.inl rfl)⟩

/-- An automaton with an initial state has a star, and it accepts a word over the alphabet if and
only if the word is put together from any number of words that the automaton accepts. -/
theorem star_decides_kstar (ha : a.Reachable) (hi : a.initial = some i)
    (fits : a.stateCount + 2 ≤ UInt32.size) :
    ∃ s, a.star = .ok s ∧ s.alphabet = a.alphabet ∧ s.Decides a.language∗ := by
  have hwf := ha.wellFormed
  obtain ⟨s, hbuild, hd, hs⟩ := (valid_starDiagram hwf hi fits).build
  refine ⟨s, ?_, hd.alphabet, ?_⟩
  · rw [star, findInitial_eq_ok hi]
    exact hbuild
  · rw [← language_of_starDiagram hwf hs hi fits hd]
    exact decides_language hd.initial

theorem star_decides_kstar_of_a_cycle : epsilonCycle.Reachable ∧
    epsilonCycle.initial = some 0 ∧ epsilonCycle.stateCount + 2 ≤ UInt32.size ∧
    ∃ s, epsilonCycle.star = .ok s ∧ s.alphabet = epsilonCycle.alphabet ∧
      s.Decides epsilonCycle.language∗ :=
  ⟨reachable_epsilonCycle, initial_epsilonCycle, by decide +kernel,
    star_decides_kstar reachable_epsilonCycle initial_epsilonCycle (by decide +kernel)⟩

end FiniteAutomata.Automaton
