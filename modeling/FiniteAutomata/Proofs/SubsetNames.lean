import FiniteAutomata.Proofs.Copy
import FiniteAutomata.Proofs.EdgeQueries
import FiniteAutomata.Proofs.Redeterminize

/-! The name of a list of numbers can be read back: a comma stands between two numbers and nowhere
else, and a number has at least one digit. -/
namespace FiniteAutomata

section Keys
variable {k l : List StateId} {s t : StateSet} {q : StateId}

theorem subsetKey_perm (l : List StateId) : (subsetKey l).Perm l := List.mergeSort_perm l _

theorem mem_subsetKey_iff : q ∈ subsetKey l ↔ q ∈ l := (subsetKey_perm l).mem_iff

/-- Sorted numbers that do not repeat go up strictly. -/
theorem subsetKey_ascending (h : l.Nodup) : (subsetKey l).Pairwise (· < ·) := by
  have hsorted : (subsetKey l).Pairwise fun p q => decide (p ≤ q) = true := by
    refine List.pairwise_mergeSort (fun p q r hpq hqr => ?_) (fun p q => ?_) l
    · exact decide_eq_true (UInt32.le_trans (of_decide_eq_true hpq) (of_decide_eq_true hqr))
    · simpa using UInt32.le_total p q
  have hdistinct : (subsetKey l).Pairwise (· ≠ ·) := (subsetKey_perm l).nodup_iff.2 h
  refine (hsorted.and hdistinct).imp fun {p q} hpq => ?_
  exact UInt32.lt_of_le_of_ne (of_decide_eq_true hpq.1) hpq.2

/-- In whatever order the members come, they are sorted into the one ascending list of them. -/
theorem Enumerates.subsetKey_eq (h : Enumerates l s) : subsetKey l = s.toList := by
  have hset : (⟨subsetKey l, subsetKey_ascending h.nodup⟩ : StateSet) = s := by
    ext q
    exact mem_subsetKey_iff.trans h.mem_iff
  exact congrArg StateSet.toList hset

theorem Enumerates.subsetKey_inj (hk : Enumerates k s) (hl : Enumerates l t) :
    subsetKey k = subsetKey l ↔ ∀ q, q ∈ s ↔ q ∈ t := by
  rw [hk.subsetKey_eq, hl.subsetKey_eq]
  constructor
  · intro h q
    rw [StateSet.toList_injective h]
  · intro h
    rw [StateSet.ext h]

end Keys

/-- The number that decimal digits stand for. -/
def readDecimal (digits : List Char) : StateId := UInt32.ofNat (Nat.ofDigitChars 10 digits 0)

/-- The numbers between the braces of a name. Where there are no digits, there is no number. -/
def readSubsetName (name : String) : List StateId :=
  (((name.toList.drop 1).dropLast.splitOn ',').filter (· ≠ [])).map readDecimal

theorem toList_decimalName (q : StateId) : (decimalName q).toList = Nat.toDigits 10 q.toNat :=
  Nat.toList_repr

theorem readDecimal_decimalName (q : StateId) : readDecimal (decimalName q).toList = q := by
  rw [readDecimal, toList_decimalName, Nat.ofDigitChars_toDigits (by decide) (by decide),
    UInt32.ofNat_toNat]

theorem comma_not_mem_decimalName (q : StateId) : ',' ∉ (decimalName q).toList := by
  rw [toList_decimalName]
  intro h
  have hdigit := Nat.isDigit_of_mem_toDigits (by decide) (by decide) h
  exact absurd hdigit (by decide)

theorem toList_subsetName (ids : List StateId) : (subsetName ids).toList =
    '\x7b' :: ([','].intercalate (ids.map fun q => (decimalName q).toList) ++ ['\x7d']) := by
  simp [subsetName, String.toList_intercalate, Function.comp_def]

/-- Every list of numbers can be read back from its name. -/
theorem readSubsetName_subsetName (ids : List StateId) : readSubsetName (subsetName ids) = ids := by
  have htext : ((subsetName ids).toList.drop 1).dropLast =
      [','].intercalate (ids.map fun q => (decimalName q).toList) := by
    rw [toList_subsetName, List.drop_one, List.tail_cons, List.dropLast_concat]
  have hparts : (([','].intercalate (ids.map fun q => (decimalName q).toList)).splitOn ',').filter
      (· ≠ []) = ids.map fun q => (decimalName q).toList := by
    cases ids with
    | nil => rfl
    | cons q ids =>
      rw [List.splitOn_intercalate]
      · simp [List.filter_eq_self, toList_decimalName]
      · simp [comma_not_mem_decimalName]
      · simp
  rw [readSubsetName, htext, hparts, List.map_map]
  exact List.map_id'' readDecimal_decimalName ids

theorem subsetName_inj {k l : List StateId} : subsetName k = subsetName l ↔ k = l := by
  constructor
  · intro h
    rw [← readSubsetName_subsetName k, h, readSubsetName_subsetName]
  · rintro rfl
    rfl

namespace Automaton
variable {α : Type} [DecidableEq α] {m : Automaton α} {d : Determinized α} {s t : StateSet}
  {i p q : StateId} {limit : Nat}

/-- The states of a deterministic automaton are called after what they stand for. -/
structure NamedBySubsets (d : Determinized α) : Prop where
  stands : ∀ q, d.dfa.contains q = true ↔ ∃ s, (q, s) ∈ d.stateMapping
  name : ∀ {q s l}, (q, s) ∈ d.stateMapping → Enumerates l s →
    d.dfa.name? q = some (subsetName (subsetKey l))
  distinct : (d.dfa.states.map Prod.snd).Nodup
  determines : ∀ {p q s t}, (p, s) ∈ d.stateMapping → (q, t) ∈ d.stateMapping →
    d.dfa.name? p = d.dfa.name? q → s = t

namespace Determinizes

theorem name?_of_mem_stateMapping (h : m.Determinizes i d) (hq : (q, s) ∈ d.stateMapping) :
    d.dfa.name? q = some (subsetName s.toList) := by
  obtain ⟨hs, rfl⟩ := h.mem_stateMapping_iff.1 hq
  exact h.name?_numberOf hs

theorem contains_iff_mem_stateMapping (h : m.Determinizes i d) :
    d.dfa.contains q = true ↔ ∃ s, (q, s) ∈ d.stateMapping := by
  constructor
  · intro hq
    obtain ⟨s, hs, rfl⟩ := h.exists_numberOf_eq hq
    exact ⟨s, h.mem_stateMapping_iff.2 ⟨hs, rfl⟩⟩
  · rintro ⟨s, hs⟩
    rw [← Automaton.isSome_name?, h.name?_of_mem_stateMapping hs]
    rfl

theorem subset_eq_of_name?_eq (h : m.Determinizes i d) (hp : (p, s) ∈ d.stateMapping)
    (hq : (q, t) ∈ d.stateMapping) (hname : d.dfa.name? p = d.dfa.name? q) : s = t := by
  rw [h.name?_of_mem_stateMapping hp, h.name?_of_mem_stateMapping hq, Option.some.injEq,
    subsetName_inj] at hname
  exact StateSet.toList_injective hname

/-- States that stand for one subset are one state. -/
theorem eq_of_name?_eq (h : m.Determinizes i d) (hp : d.dfa.contains p = true)
    (hq : d.dfa.contains q = true) (hname : d.dfa.name? p = d.dfa.name? q) : p = q := by
  obtain ⟨s, hs⟩ := h.contains_iff_mem_stateMapping.1 hp
  obtain ⟨t, ht⟩ := h.contains_iff_mem_stateMapping.1 hq
  obtain rfl := h.subset_eq_of_name?_eq hs ht hname
  rw [(h.mem_stateMapping_iff.1 hs).2, (h.mem_stateMapping_iff.1 ht).2]

theorem names_nodup (h : m.Determinizes i d) : (d.dfa.states.map Prod.snd).Nodup := by
  rw [states_eq_map h.size_le, List.map_map]
  refine (stateIds_nodup h.size_le).map_on fun p hp q hq hname => ?_
  rw [mem_stateIds_iff h.size_le] at hp hq
  have hsome : ∀ {q}, d.dfa.contains q = true →
      d.dfa.name? q = some ((d.dfa.name? q).getD "") := by
    intro q hq
    rw [← isSome_name?, Option.isSome_iff_exists] at hq
    obtain ⟨name, hname⟩ := hq
    rw [hname]
    rfl
  refine h.eq_of_name?_eq hp hq ?_
  rw [hsome hp, hsome hq]
  exact congrArg some hname

end Determinizes

theorem namedBySubsets (hok : m.determinize limit = .ok d)
    (fits : d.subsets.length ≤ UInt32.size) : NamedBySubsets d := by
  obtain ⟨i, hi, -⟩ := bind_eq_ok_iff.1 (determinize_eq_ok_iff.1 hok).1
  have h := determinizes_of_eq_ok (findInitial_eq_ok_iff.1 hi) hok fits
  refine ⟨fun q => h.contains_iff_mem_stateMapping, fun hq hl => ?_, h.names_nodup,
    h.subset_eq_of_name?_eq⟩
  rw [hl.subsetKey_eq]
  exact h.name?_of_mem_stateMapping hq

/-- The key of a set is the ascending list of its members, and it tells the set apart from all
others, whatever the order in which the members of either come. The name of a list of numbers tells
the list apart from all others. So the name of a state tells what subset it stands for. -/
theorem keys_and_names_identify (m : Automaton α) (limit : Nat) :
    (∀ {l s}, Enumerates l s →
      (subsetKey l).Pairwise (· < ·) ∧ ∀ q, q ∈ subsetKey l ↔ q ∈ s) ∧
    (∀ {k l s t}, Enumerates k s → Enumerates l t →
      (subsetKey k = subsetKey l ↔ ∀ q, q ∈ s ↔ q ∈ t)) ∧
    (∀ k l, subsetName k = subsetName l ↔ k = l) ∧
    ∀ {d}, m.determinize limit = .ok d → d.subsets.length ≤ UInt32.size → NamedBySubsets d := by
  refine ⟨fun hl => ⟨subsetKey_ascending hl.nodup, fun q => ?_⟩, Enumerates.subsetKey_inj,
    fun k l => subsetName_inj, namedBySubsets⟩
  exact mem_subsetKey_iff.trans hl.mem_iff

/-- One set comes in two orders, and two sets have the same digits in their names. -/
theorem keys_and_names_identify_in_a_cycle :
    Enumerates [9, 2, 0] (.ofList [0, 2, 9]) ∧ Enumerates [2, 0, 9] (.ofList [0, 2, 9]) ∧
      (subsetKey [9, 2, 0]).Pairwise (· < ·) ∧ subsetKey [9, 2, 0] = subsetKey [2, 0, 9] ∧
      subsetName [1, 23] ≠ subsetName [12, 3] ∧ ∃ d, epsilonCycle.determinize 0 = .ok d ∧
        d.subsets.length ≤ UInt32.size ∧ NamedBySubsets d := by
  have hfirst : Enumerates [9, 2, 0] (.ofList [0, 2, 9]) := ⟨by decide, by simp; tauto⟩
  have hsecond : Enumerates [2, 0, 9] (.ofList [0, 2, 9]) := ⟨by decide, by simp; tauto⟩
  obtain ⟨hkey, hinj, hname, hdfa⟩ := keys_and_names_identify epsilonCycle 0
  obtain ⟨d, hok, h⟩ :=
    exists_determinize initial_epsilonCycle fun _ => length_reachedSubsets_epsilonCycle_le
  exact ⟨hfirst, hsecond, (hkey hfirst).1, (hinj hfirst hsecond).2 fun _ => Iff.rfl,
    fun h => absurd ((hname _ _).1 h) (by decide), d, hok, h.fits, hdfa hok h.fits⟩

end Automaton
end FiniteAutomata
