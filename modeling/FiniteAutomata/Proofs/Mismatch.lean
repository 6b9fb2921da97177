import FiniteAutomata.Proofs.Chain
import FiniteAutomata.Proofs.EarlyEnd

namespace FiniteAutomata.Automaton
variable {α : Type} {m : Automaton α} {alphabet : Alphabet α} {symbols u v w : List α} {k : Nat}
  {x : α}

/-- `v` is as `w` up to place `k`. There it has the symbol `x`, and `w` has another one or none. -/
structure LeavesAt (w v : List α) (k : Nat) (x : α) : Prop where
  symbol : v[k]? = some x
  differs : w[k]? ≠ some x
  agrees : ∀ j < k, v[j]? = w[j]?

theorem LeavesAt.eq_take_append (h : LeavesAt w v k x) :
    v = w.take k ++ x :: v.drop (k + 1) := by
  obtain ⟨hk, hx⟩ := List.getElem?_eq_some_iff.1 h.symbol
  have htake : v.take k = w.take k := by
    apply List.ext_getElem?
    intro j
    rw [List.getElem?_take, List.getElem?_take]
    split_ifs with hj
    · exact h.agrees j hj
    · rfl
  calc
    v = v.take k ++ v.drop k := (List.take_append_drop k v).symm
    _ = w.take k ++ x :: v.drop (k + 1) := by rw [htake, List.drop_eq_getElem_cons hk, hx]

theorem LeavesAt.le_length (h : LeavesAt w v k x) : k ≤ w.length := by
  have hk := (List.getElem?_eq_some_iff.1 h.symbol).1
  by_contra hlt
  have hagree := h.agrees w.length (by omega)
  rw [List.getElem?_eq_none le_rfl, List.getElem?_eq_none_iff] at hagree
  omega

theorem LeavesAt.not_prefix (h : LeavesAt w v k x) : ¬w.take k ++ [x] <+: w := by
  intro hprefix
  have hlength : (w.take k).length = k := List.length_take_of_le h.le_length
  have hlast := List.prefix_iff_getElem?.1 hprefix k (by simp [hlength])
  rw [List.getElem_append_right hlength.le, List.getElem_singleton] at hlast
  exact h.differs hlast

theorem LeavesAt.cons (h : LeavesAt w v k x) (a : α) : LeavesAt (a :: w) (a :: v) (k + 1) x where
  symbol := h.symbol
  differs := h.differs
  agrees j hj := by
    cases j with
    | zero => rfl
    | succ j => exact h.agrees j (by omega)

/-- Any word either stops on the way or leaves at some place. -/
theorem prefix_or_leaves (w v : List α) : v <+: w ∨ ∃ k x, LeavesAt w v k x := by
  induction v generalizing w with
  | nil => exact .inl List.nil_prefix
  | cons a v ih =>
    by_cases ha : w.head? = some a
    · obtain ⟨w, rfl⟩ := List.head?_eq_some_iff.1 ha
      rcases ih w with hv | ⟨k, x, h⟩
      · exact .inl (List.cons_prefix_cons.2 ⟨rfl, hv⟩)
      · exact .inr ⟨k + 1, x, h.cons a⟩
    · rw [List.head?_eq_getElem?] at ha
      exact .inr ⟨0, a, rfl, ha, fun j hj => absurd hj j.not_lt_zero⟩

variable [DecidableEq α]

/-- The answers of an automaton that reads what agrees with `w`, and not further. -/
structure ReadsUpToMismatch (m : Automaton α) (symbols w : List α) : Prop where
  accepts_iff : ∀ v, m.accepts v = .ok true ↔ v = w
  cut_short : ∀ v, v <+: w → v ≠ w → m.accepts v = .ok false
  mismatch : ∀ v k x, LeavesAt w v k x →
    m.accepts v = if x ∈ symbols then .ok false else .error (.invalidSymbol x)

section Chain
variable (hm : m.WellFormed) (hd : (wordDiagram alphabet w).Depicts m)
  (fits : w.length < UInt32.size)
include hm hd fits

/-- The run lives as long as it reads a prefix of the chain's own word. -/
theorem stepAll_word_eq_empty_iff : m.stepAll (m.closureOf 0) u = ∅ ↔ ¬u <+: w := by
  rw [stepAll_closureOf_eq_empty_iff hm]
  simp only [reads_start_iff hm hd fits, not_and]
  constructor
  · intro h hu
    exact h _ hu rfl
  · intro h q hu
    exact absurd hu h

theorem readsUpToMismatch_of_wordDiagram (halphabet : ∀ a, a ∈ m.alphabet ↔ a ∈ symbols)
    (hw : ∀ a ∈ w, a ∈ symbols) : m.ReadsUpToMismatch symbols w := by
  have hlanguage := language_of_wordDiagram hm hd fits
  have haccepts : ∀ v, m.accepts v = .ok true ↔ v = w := by
    intro v
    change v ∈ m.language ↔ v = w
    rw [hlanguage]
    rfl
  have hover : ∀ {v : List α}, v <+: w → ∀ a ∈ v, a ∈ m.alphabet := fun hv a ha =>
    (halphabet a).2 (hw a (hv.mem ha))
  refine ⟨haccepts, fun v hv hne => ?_, fun v k x h => ?_⟩
  · have hdecides := decides_language hd.initial v (hover hv)
    exact hdecides.2 fun hmem => hne ((haccepts v).1 hmem)
  · have hread : w.take k <+: w := List.take_prefix k w
    -- some state is left before the symbol at place `k`, and none after it
    rw [h.eq_take_append]
    split_ifs with hx
    · have hrun : m.run (w.take k ++ [x]) = .ok ∅ := by
        rw [run_eq_ok hd.initial, (stepAll_word_eq_empty_iff hm hd fits).2 h.not_prefix]
        exact List.forall_mem_append.2 ⟨hover hread, by simp [halphabet, hx]⟩
      have hend := accepts_after_end hd.initial hrun (v.drop (k + 1))
      rwa [List.append_assoc] at hend
    · rw [accepts_foreign hd.initial (hover hread) (mt (halphabet x).1 hx), if_neg]
      rw [stepAll_word_eq_empty_iff hm hd fits, not_not]
      exact hread

end Chain

/-- The first foreign symbol of a sequence is reported. Without one there is an automaton with one
state more than the sequence is long. It accepts that sequence only, and of any word it reads as
much as agrees with the sequence and one symbol more, which is the only one that can be a fault. -/
theorem ofWord_reads_up_to_mismatch (symbols w : List α) (fits : w.length + 1 ≤ UInt32.size) :
    assembleWord (.ofList symbols) w = ofWord (.ofList symbols) w ∧
      (∀ u x v, w = u ++ x :: v → (∀ a ∈ u, a ∈ symbols) → x ∉ symbols →
        ofWord (.ofList symbols) w = .error (.invalidSymbol x)) ∧
      ((∀ a ∈ w, a ∈ symbols) → ∃ m, ofWord (.ofList symbols) w = .ok m ∧
        m.stateCount = w.length + 1 ∧ m.ReadsUpToMismatch symbols w) ∧
      ∀ v, v <+: w ∨ ∃ k x, LeavesAt w v k x := by
  have hmem : ∀ a, a ∈ Alphabet.ofList symbols ↔ a ∈ symbols := fun a => Alphabet.mem_ofList
  refine ⟨assembleWord_eq fits, ?_, fun hw => ?_, prefix_or_leaves w⟩
  · rintro u x v rfl hu hx
    exact ofWord_foreign (fun a ha => (hmem a).2 (hu a ha)) (mt (hmem x).1 hx) fits
  · obtain ⟨m, hbuild, hd, hm⟩ :=
      (valid_wordDiagram (fun a ha => (hmem a).2 (hw a ha)) fits).build
    have hcount := hd.stateCount_eq (length_word_nodes.trans_le fits)
    refine ⟨m, hbuild, hcount.trans length_word_nodes,
      readsUpToMismatch_of_wordDiagram hm hd fits (fun a => ?_) hw⟩
    rw [hd.alphabet]
    exact hmem a

/-- The first two symbols are the same, so a word that has only one of them leaves at the second. -/
theorem ofWord_reads_up_to_mismatch_of_repeats :
    ['a', 'z', 'b'].length + 1 ≤ UInt32.size ∧ ['a', 'a', 'b'].length + 1 ≤ UInt32.size ∧
    ofWord (.ofList ['b', 'a']) ['a', 'z', 'b'] = .error (.invalidSymbol 'z') ∧
    ∃ m, ofWord (.ofList ['b', 'a']) ['a', 'a', 'b'] = .ok m ∧ m.stateCount = 4 ∧
      m.accepts ['a', 'a', 'b'] = .ok true ∧ m.accepts ['a', 'a'] = .ok false ∧
      m.accepts ['a', 'b', 'z'] = .ok false ∧
      m.accepts ['a', 'a', 'b', 'z'] = .error (.invalidSymbol 'z') := by
  have fits : ['a', 'z', 'b'].length + 1 ≤ UInt32.size := by decide
  have fits' : ['a', 'a', 'b'].length + 1 ≤ UInt32.size := by decide
  obtain ⟨-, hforeign, -, -⟩ := ofWord_reads_up_to_mismatch ['b', 'a'] ['a', 'z', 'b'] fits
  obtain ⟨-, -, hok, -⟩ := ofWord_reads_up_to_mismatch ['b', 'a'] ['a', 'a', 'b'] fits'
  obtain ⟨m, hm, hcount, hreads⟩ := hok (by simp)
  exact ⟨fits, fits', hforeign ['a'] 'z' ['b'] rfl (by simp) (by simp), m, hm, hcount,
    (hreads.accepts_iff _).2 rfl, hreads.cut_short _ (by decide) (by decide),
    hreads.mismatch _ 1 'b' ⟨rfl, by decide, by decide⟩,
    hreads.mismatch _ 3 'z' ⟨rfl, by decide, by decide⟩⟩

end FiniteAutomata.Automaton
