import FiniteAutomata.Proofs.Separation
import FiniteAutomata.Workload.Structured

/-! The automaton for the words whose `n`-th symbol from the end is a one keeps track of the ones
among the last `n` symbols (`mem_stepAll_nth_iff`). All `2 ^ n` patterns of ones occur, and zeros
bring a place where two of them differ to the end of the chain. -/
namespace FiniteAutomata

namespace Alphabet
variable {α : Type} {s : Alphabet α} {n : Nat} {w : List α}

theorem mem_words_iff : w ∈ s.words n ↔ w.length = n ∧ ∀ a ∈ w, a ∈ s := by
  induction n generalizing w with
  | zero =>
    cases w <;> simp [words]
  | succ n ih =>
    cases w with
    | nil => simp [words]
    | cons a w =>
      simp [words, ih, and_left_comm]

theorem length_words (s : Alphabet α) (n : Nat) : (s.words n).length = s.size ^ n := by
  induction n with
  | zero => rfl
  | succ n ih => simp [words, ih, size, Nat.pow_succ, Nat.mul_comm]

theorem words_nodup (s : Alphabet α) (n : Nat) : (s.words n).Nodup := by
  induction n with
  | zero => simp [words]
  | succ n ih =>
    rw [words, List.nodup_flatMap]
    refine ⟨fun a _ => ih.map fun u v huv => (List.cons.inj huv).2, ?_⟩
    refine s.nodup.imp fun {a b} hab => List.disjoint_left.2 ?_
    intro w ha hb
    obtain ⟨u, -, rfl⟩ := List.mem_map.1 ha
    obtain ⟨v, -, hv⟩ := List.mem_map.1 hb
    exact hab (List.cons.inj hv).1.symm

end Alphabet

namespace Workload
open Automaton
variable {m : Automaton Char} {n k : Nat} {p q : StateId} {x : Label Char} {a : Char}
  {u v w : List Char}

theorem mem_binary_iff : a ∈ binary ↔ a = '0' ∨ a = '1' := by
  simp [binary]

theorem mem_bothDigits_iff {r t : StateId} :
    ⟨p, x, q⟩ ∈ bothDigits r t t ↔ p = r ∧ q = t ∧ ∃ a ∈ binary, x = .literal a := by
  simp only [bothDigits, List.mem_cons, List.not_mem_nil, or_false, Edge.mk.injEq, mem_binary_iff,
    or_and_right, exists_or, exists_eq_left, ← and_or_left, and_comm (b := q = t)]

/-- The start keeps reading. A one leads from there into the chain, and any symbol leads on. -/
theorem nth_edge_iff (hn : 1 ≤ n) (fits : n + 1 ≤ UInt32.size) :
    ⟨p, x, q⟩ ∈ (nthFromEndDiagram n).edges ↔ ∃ a ∈ binary, x = .literal a ∧
      (p = 0 ∧ q = 0 ∨ p.toNat < n ∧ q.toNat = p.toNat + 1 ∧ (p = 0 → a = '1')) := by
  have hedges : (nthFromEndDiagram n).edges = bothDigits 0 0 0 ++ [⟨0, .literal '1', 1⟩] ++
      (List.range' 1 (n - 1)).flatMap fun i =>
        bothDigits (UInt32.ofNat i) (UInt32.ofNat (i + 1)) (UInt32.ofNat (i + 1)) := rfl
  simp only [hedges, List.mem_append, List.mem_singleton, List.mem_flatMap, mem_bothDigits_iff,
    List.mem_range'_1, Edge.mk.injEq]
  constructor
  · rintro ((⟨rfl, rfl, a, ha, rfl⟩ | ⟨rfl, rfl, rfl⟩) | ⟨k, hk, rfl, rfl, a, ha, rfl⟩)
    · exact ⟨a, ha, rfl, .inl ⟨rfl, rfl⟩⟩
    · exact ⟨'1', by simp [mem_binary_iff], rfl, .inr ⟨hn, rfl, fun _ => rfl⟩⟩
    · have hsource : (UInt32.ofNat k).toNat = k := UInt32.toNat_ofNat_of_lt' (by omega)
      have htarget : (UInt32.ofNat (k + 1)).toNat = k + 1 := UInt32.toNat_ofNat_of_lt' (by omega)
      refine ⟨a, ha, rfl, .inr ⟨by omega, by omega, fun hzero => ?_⟩⟩
      rw [hzero] at hsource
      have : k = 0 := hsource.symm
      omega
  · rintro ⟨a, ha, rfl, ⟨rfl, rfl⟩ | ⟨hp, hq, hone⟩⟩
    · exact .inl (.inl ⟨rfl, rfl, a, ha, rfl⟩)
    · by_cases hzero : p = 0
      · subst hzero
        have hq : q = 1 := UInt32.toNat_inj.1 hq
        exact .inl (.inr ⟨rfl, by rw [hone rfl], hq⟩)
      · have hpos : p.toNat ≠ 0 := mt (UInt32.toNat_inj (b := 0)).1 hzero
        refine .inr ⟨p.toNat, by omega, UInt32.ofNat_toNat.symm, ?_, a, ha, rfl⟩
        rw [← UInt32.toNat_inj, hq, UInt32.toNat_ofNat_of_lt' (by omega)]

theorem length_nth_nodes (hn : 1 ≤ n) : (nthFromEndDiagram n).nodes.length = n + 1 := by
  simp [nthFromEndDiagram, Nat.max_eq_left hn]

theorem valid_nthFromEndDiagram (hn : 1 ≤ n) (fits : n + 1 ≤ UInt32.size) :
    (nthFromEndDiagram n).Valid := by
  refine ⟨?_, ?_, ?_, ?_⟩
  · rwa [length_nth_nodes hn]
  · intro p x q he
    obtain ⟨a, -, -, hpq⟩ := (nth_edge_iff hn fits).1 he
    rw [length_nth_nodes hn]
    rcases hpq with ⟨rfl, rfl⟩ | ⟨hp, hq, -⟩
    · exact ⟨Nat.succ_pos n, Nat.succ_pos n⟩
    · omega
  · intro p b q he
    obtain ⟨a, ha, hx, -⟩ := (nth_edge_iff hn fits).1 he
    obtain rfl := Label.literal.inj hx
    exact ha
  · intro q hq
    obtain rfl := Option.some.inj hq
    rw [length_nth_nodes hn]
    exact Nat.succ_pos n

theorem mem_finals_nth_iff (hn : 1 ≤ n) (hd : (nthFromEndDiagram n).Depicts m) :
    q ∈ m.finals ↔ q.toNat = n := by
  have hinner : ∀ c ∈ List.replicate (max n 1) (⟨none, false⟩ : Node), c.isFinal = false := by simp
  rw [hd.mem_finals_iff_last rfl hinner, List.length_replicate, Nat.max_eq_left hn]

/-- A word of fixed length is determined by the places of its ones. -/
theorem eq_of_ones_iff (hu : u ∈ binary.words n) (hv : v ∈ binary.words n)
    (h : ∀ k < n, (u.reverse[k]? = some '1' ↔ v.reverse[k]? = some '1')) : u = v := by
  obtain ⟨hulen, hu⟩ := Alphabet.mem_words_iff.1 hu
  obtain ⟨hvlen, hv⟩ := Alphabet.mem_words_iff.1 hv
  apply List.reverse_injective
  apply List.ext_getElem (by simp [hulen, hvlen])
  intro k hku hkv
  have hiff := h k (by simpa [hulen] using hku)
  rw [List.getElem?_eq_getElem hku, List.getElem?_eq_getElem hkv, Option.some.injEq,
    Option.some.injEq] at hiff
  have hdigit : ∀ {w : List Char} (_ : ∀ a ∈ w, a ∈ binary) (hk : k < w.reverse.length),
      w.reverse[k] = '0' ∨ w.reverse[k] = '1' := fun hw hk =>
    mem_binary_iff.1 (hw _ (List.mem_reverse.1 (List.getElem_mem hk)))
  rcases hdigit hu hku with hzero | hone
  · rcases hdigit hv hkv with hzero' | hone'
    · rw [hzero, hzero']
    · rw [hzero, hone'] at hiff
      simp at hiff
  · rw [hone, hiff.1 hone]

/-- The last places of a word are those of a word of fixed length. Missing ones count as zeros. -/
theorem exists_ones_iff (n : Nat) (hw : ∀ a ∈ w, a ∈ binary) : ∃ u ∈ binary.words n,
    ∀ k < n, (u.reverse[k]? = some '1' ↔ w.reverse[k]? = some '1') := by
  refine ⟨(List.replicate n '0' ++ w).drop w.length, Alphabet.mem_words_iff.2 ⟨by simp, ?_⟩, ?_⟩
  · intro a ha
    rcases List.mem_append.1 (List.mem_of_mem_drop ha) with hzero | ha
    · exact mem_binary_iff.2 (.inl (List.eq_of_mem_replicate hzero))
    · exact hw a ha
  · intro k hk
    rw [List.reverse_drop, List.getElem?_take_of_lt (by simpa using hk), List.reverse_append,
      List.reverse_replicate]
    rcases Nat.lt_or_ge k w.reverse.length with hlt | hge
    · rw [List.getElem?_append_left hlt]
    · have hnone : w.reverse[k]? = none := List.getElem?_eq_none hge
      rw [List.getElem?_append_right hge, hnone, List.getElem?_replicate]
      simp

section Patterns
variable (hn : 1 ≤ n) (fits : n + 1 ≤ UInt32.size) (hd : (nthFromEndDiagram n).Depicts m)
include hn fits hd

theorem closure_nth (s : StateSet) : m.closure s = s := by
  apply closure_eq_self
  intro p _ q hq
  obtain ⟨a, -, hx, -⟩ := (nth_edge_iff hn fits).1 (hd.mem_destinations.1 hq)
  cases hx

theorem mem_step_nth_iff {s : StateSet} (ha : a ∈ binary) : q ∈ m.step s a ↔ ∃ p ∈ s,
    p = 0 ∧ q = 0 ∨ p.toNat < n ∧ q.toNat = p.toNat + 1 ∧ (p = 0 → a = '1') := by
  simp [step, closure_nth hn fits hd, hd.mem_destinations, nth_edge_iff hn fits, ha]

/-- A run is in its start and in the states whose distance from the end of the word is that of a
one. -/
theorem mem_stepAll_nth_iff (hw : ∀ a ∈ w, a ∈ binary) :
    q ∈ m.stepAll (m.closureOf 0) w ↔
      q = 0 ∨ ∃ k < n, q.toNat = k + 1 ∧ w.reverse[k]? = some '1' := by
  -- a symbol at the end puts all others one place further from it
  induction w using List.reverseRecOn generalizing q with
  | nil => simp [closureOf, closure_nth hn fits hd]
  | append_singleton w a ih =>
    obtain ⟨hw, ha⟩ := List.forall_mem_append.1 hw
    rw [stepAll_append, stepAll_cons, stepAll_nil, mem_step_nth_iff hn fits hd (ha a (by simp))]
    simp only [ih hw, List.reverse_append, List.reverse_singleton, List.singleton_append]
    constructor
    · rintro ⟨p, hp, ⟨-, hq⟩ | ⟨hpn, hq, hone⟩⟩
      · exact .inl hq
      · refine .inr ⟨p.toNat, hpn, hq, ?_⟩
        rcases hp with rfl | ⟨k, -, hpk, hk⟩
        · simp [hone rfl]
        · rw [hpk, List.getElem?_cons_succ, hk]
    · rintro (rfl | ⟨k, hkn, hq, hk⟩)
      · exact ⟨0, .inl rfl, .inl ⟨rfl, rfl⟩⟩
      · cases k with
        | zero => exact ⟨0, .inl rfl, .inr ⟨hkn, hq, fun _ => by simpa using hk⟩⟩
        | succ k =>
          have hnat : (UInt32.ofNat (k + 1)).toNat = k + 1 := UInt32.toNat_ofNat_of_lt' (by omega)
          refine ⟨UInt32.ofNat (k + 1), .inr ⟨k, by omega, hnat, by simpa using hk⟩,
            .inr ⟨by omega, by omega, fun hzero => ?_⟩⟩
          rw [hzero] at hnat
          cases hnat

/-- Two words lead to the same set if they have ones at the same ones of the last places. -/
theorem stepAll_nth_eq_iff (hu : ∀ a ∈ u, a ∈ binary) (hv : ∀ a ∈ v, a ∈ binary) :
    m.stepAll (m.closureOf 0) u = m.stepAll (m.closureOf 0) v ↔
      ∀ k < n, (u.reverse[k]? = some '1' ↔ v.reverse[k]? = some '1') := by
  constructor
  · intro h k hk
    obtain ⟨r, hr⟩ : ∃ r : StateId, r.toNat = k + 1 :=
      ⟨UInt32.ofNat (k + 1), UInt32.toNat_ofNat_of_lt' (by omega)⟩
    have hne : r ≠ 0 := fun hzero => by simp [hzero] at hr
    have hmem : ∀ {w : List Char}, (∀ a ∈ w, a ∈ binary) →
        (r ∈ m.stepAll (m.closureOf 0) w ↔ w.reverse[k]? = some '1') := by
      intro w hw
      simp [mem_stepAll_nth_iff hn fits hd hw, hr, hne, hk]
    rw [← hmem hu, ← hmem hv, h]
  · intro h
    ext q
    rw [mem_stepAll_nth_iff hn fits hd hu, mem_stepAll_nth_iff hn fits hd hv]
    refine or_congr_right (exists_congr fun k => and_congr_right fun hk => ?_)
    rw [h k hk]

/-- After a word, the last state is reached if the symbol at that distance from the end is a one. -/
theorem accepts_nth (hi : m.initial = some 0) (halphabet : m.alphabet = binary)
    (hw : ∀ a ∈ w, a ∈ binary) :
    m.accepts w = .ok (decide (w.reverse[n - 1]? = some '1')) := by
  rw [accepts_eq_ok hi (halphabet ▸ hw), Except.ok.injEq, Bool.eq_iff_iff, StateSet.meets_iff,
    decide_eq_true_eq]
  simp only [mem_stepAll_nth_iff hn fits hd hw, mem_finals_nth_iff hn hd]
  constructor
  · rintro ⟨q, rfl | ⟨k, -, hq, hk⟩, hlast⟩
    · have hzero : n = 0 := hlast.symm
      omega
    · obtain rfl : k = n - 1 := by omega
      exact hk
  · intro h
    have hnat : (UInt32.ofNat n).toNat = n := UInt32.toNat_ofNat_of_lt' fits
    exact ⟨UInt32.ofNat n, .inr ⟨n - 1, by omega, by omega, h⟩, hnat⟩

/-- The sets are those of the words of length `n`. Zeros after two words bring a place where they
differ to the end of the chain. -/
theorem separates_nth (hi : m.initial = some 0) (halphabet : m.alphabet = binary) :
    m.Separates (2 ^ n) := by
  have hrun : ∀ {w : List Char}, (∀ a ∈ w, a ∈ binary) →
      m.run w = .ok (m.stepAll (m.closureOf 0) w) := fun hw => run_eq_ok hi (halphabet ▸ hw)
  refine ⟨⟨(binary.words n).map (m.stepAll (m.closureOf 0)), ?_, ?_, fun s => ?_⟩, ?_⟩
  · refine List.Nodup.map_on (fun u hu v hv h => ?_) (binary.words_nodup n)
    rw [stepAll_nth_eq_iff hn fits hd (Alphabet.mem_words_iff.1 hu).2
      (Alphabet.mem_words_iff.1 hv).2] at h
    exact eq_of_ones_iff hu hv h
  · rw [List.length_map, Alphabet.length_words]
    rfl
  · rw [halphabet, List.mem_map]
    constructor
    · rintro ⟨u, hu, rfl⟩
      have hu := (Alphabet.mem_words_iff.1 hu).2
      exact ⟨u, hu, hrun hu⟩
    · rintro ⟨w, hw, hs⟩
      obtain ⟨u, hu, hiff⟩ := exists_ones_iff n hw
      refine ⟨u, hu, ?_⟩
      rw [hrun hw, Except.ok.injEq] at hs
      rwa [(stepAll_nth_eq_iff hn fits hd (Alphabet.mem_words_iff.1 hu).2 hw).2 hiff]
  · intro u v hu hv hne
    rw [halphabet] at hu hv ⊢
    rw [hrun hu, hrun hv, ne_eq, Except.ok.injEq, stepAll_nth_eq_iff hn fits hd hu hv] at hne
    simp only [not_forall] at hne
    obtain ⟨k, hk, hdiff⟩ := hne
    have hzeros : ∀ a ∈ List.replicate (n - 1 - k) '0', a ∈ binary := fun a ha =>
      mem_binary_iff.2 (.inl (List.eq_of_mem_replicate ha))
    have hplace : ∀ {w : List Char},
        (w ++ List.replicate (n - 1 - k) '0').reverse[n - 1]? = w.reverse[k]? := by
      intro w
      rw [List.reverse_append, List.reverse_replicate, List.getElem?_append_right (by simp),
        List.length_replicate]
      congr 1
      omega
    refine ⟨_, hzeros, decide (u.reverse[k]? = some '1'), ?_, ?_⟩
    · rw [accepts_nth hn fits hd hi halphabet (List.forall_mem_append.2 ⟨hu, hzeros⟩), hplace]
    · rw [accepts_nth hn fits hd hi halphabet (List.forall_mem_append.2 ⟨hv, hzeros⟩), hplace,
        ← decide_not, Except.ok.injEq, decide_eq_decide]
      exact (not_iff.1 hdiff).symm

end Patterns

/-- The automaton has `n + 1` states, and runs end in `2 ^ n` sets which later words tell apart. So
its deterministic form has `2 ^ n` states that all accept different languages, and a lower limit is
always exceeded. -/
theorem nthFromEnd_worst_case (hn : 1 ≤ n) (fits : n + 1 ≤ UInt32.size) :
    ∃ m, nthFromEnd n = .ok m ∧ m.alphabet = binary ∧ m.stateCount = n + 1 ∧
      m.Separates (2 ^ n) ∧
      (2 ^ n ≤ UInt32.size → ∃ d, m.toDfa = .ok d ∧ d.stateCount = 2 ^ n ∧
        ∀ p q, d.contains p = true → d.contains q = true →
          d.languageFrom p = d.languageFrom q → p = q) ∧
      ∀ limit, 0 < limit → limit < 2 ^ n →
        m.determinize limit = .error (.stateLimitExceeded (limit + 1) limit) := by
  obtain ⟨m, hm, hd⟩ := (valid_nthFromEndDiagram hn fits).exists_build
  have hsep := separates_nth hn fits hd hd.initial hd.alphabet
  refine ⟨m, hm, hd.alphabet, ?_, hsep, fun hfit => ?_, fun limit hpos hlt => ?_⟩
  · rw [hd.stateCount_eq (by rwa [length_nth_nodes hn]), length_nth_nodes hn]
  · obtain ⟨d, hok, hcount, hinj⟩ := hsep.determinize hd.initial hfit
    exact ⟨d.dfa, toDfa_eq_ok hok, hcount, hinj⟩
  · exact hsep.determinize_limit hd.initial hpos hlt

/-- With the third symbol from the end there are eight sets, and seven states are not enough. -/
theorem nthFromEnd_worst_case_three : 1 ≤ 3 ∧ 3 + 1 ≤ UInt32.size ∧ 2 ^ 3 ≤ UInt32.size ∧
    ∃ m, nthFromEnd 3 = .ok m ∧ m.alphabet = binary ∧ m.stateCount = 4 ∧ m.Separates 8 ∧
      (∃ d, m.toDfa = .ok d ∧ d.stateCount = 8 ∧
        ∀ p q, d.contains p = true → d.contains q = true →
          d.languageFrom p = d.languageFrom q → p = q) ∧
      m.determinize 7 = .error (.stateLimitExceeded 8 7) := by
  have hn : 1 ≤ 3 := by decide
  have fits : 3 + 1 ≤ UInt32.size := by decide
  have hfit : 2 ^ 3 ≤ UInt32.size := by decide
  obtain ⟨m, hm, halphabet, hcount, hsep, hdfa, hlimit⟩ := nthFromEnd_worst_case hn fits
  exact ⟨hn, fits, hfit, m, hm, halphabet, hcount, hsep, hdfa hfit,
    hlimit 7 (by decide) (by decide)⟩

end Workload
end FiniteAutomata
