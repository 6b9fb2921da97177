import FiniteAutomata.Proofs.Determinize

/-! If a map of subsets commutes with the steps and keeps different subsets different, then a second
exploration finds the images of what the first one finds, each at the same place. What holds of the
subsets that occur is the invariant `P`; the map need not be injective on others. -/
namespace FiniteAutomata
variable {α β : Type} {f : StateSet → StateSet} {P : StateSet → Prop} {s : StateSet}
  {l found found' : List StateSet} {limit next : Nat}

/-- The image of a subset has the number that the subset has. -/
theorem numberOf_map (hinj : ∀ t ∈ found, f s = f t → s = t) (hs : s ∈ found) :
    numberOf (found.map f) (f s) = numberOf found s := by
  have hplace : (found.map f).idxOf (f s) = found.idxOf s := by
    induction found with
    | nil => cases hs
    | cons t found ih =>
      rw [List.map_cons]
      by_cases hst : s = t
      · rw [hst, List.idxOf_cons_self, List.idxOf_cons_self]
      · have himage : f s ≠ f t := mt (hinj t List.mem_cons_self) hst
        have hrest := List.mem_of_ne_of_mem hst hs
        rw [List.idxOf_cons_ne _ himage.symm, List.idxOf_cons_ne _ (Ne.symm hst),
          ih (fun t ht => hinj t (List.mem_cons_of_mem _ ht)) hrest]
  rw [numberOf, numberOf, hplace]

namespace Automaton

theorem discover_map (hinj : ∀ t ∈ found, f s = f t → s = t)
    (hok : discover (α := α) limit found s = .ok found') :
    discover (α := β) limit (found.map f) (f s) = .ok (found'.map f) := by
  rw [discover_eq_ok_iff, mem_map_iff_of_inj hinj, List.length_map]
  rcases discover_eq_ok_iff.1 hok with ⟨hs, rfl⟩ | ⟨hs, hroom, rfl⟩
  · exact .inl ⟨hs, rfl⟩
  · exact .inr ⟨hs, hroom, List.map_append⟩

theorem foldlM_discover_map (hinj : ∀ {s t}, P s → P t → f s = f t → s = t)
    (hfound : ∀ s ∈ found, P s) (hl : ∀ s ∈ l, P s)
    (hok : l.foldlM (discover (α := α) limit) found = .ok found') :
    (l.map f).foldlM (discover (α := β) limit) (found.map f) = .ok (found'.map f) := by
  induction l generalizing found with
  | nil =>
    obtain rfl := Except.ok.inj hok
    rfl
  | cons s l ih =>
    rw [List.foldlM_cons] at hok
    obtain ⟨mid, hmid, hok⟩ := bind_eq_ok_iff.1 hok
    obtain ⟨hs, hl⟩ := List.forall_mem_cons.1 hl
    have himage : discover (α := β) limit (found.map f) (f s) = .ok (mid.map f) :=
      discover_map (fun t ht => hinj hs (hfound t ht)) hmid
    have hmidP : ∀ t ∈ mid, P t := by
      intro t ht
      rcases (discovers_of_discover hmid).only t ht with ht | ht
      · exact hfound t ht
      · rwa [List.mem_singleton.1 ht]
    rw [List.map_cons, List.foldlM_cons, himage]
    exact ih hmidP hl hok

variable [DecidableEq α] [DecidableEq β] {m : Automaton α} {m' : Automaton β} {i i' : StateId}

/-- Among the subsets of which `P` holds, the steps of the second automaton are the images of the
steps of the first. -/
structure Correspond (m : Automaton α) (m' : Automaton β) (f : StateSet → StateSet)
    (P : StateSet → Prop) : Prop where
  injective : ∀ {s t}, P s → P t → f s = f t → s = t
  step : ∀ {s a}, P s → a ∈ m.alphabet → P (m.step s a)
  steps : ∀ {s}, P s →
    m'.alphabet.symbols.map (m'.step (f s)) = (m.alphabet.symbols.map (m.step s)).map f

namespace Correspond

theorem explore (h : m.Correspond m' f P) (hfound : ∀ s ∈ found, P s)
    (hok : m.explore limit found next = .ok found') :
    m'.explore limit (found.map f) next = .ok (found'.map f) := by
  fun_induction Automaton.explore m limit found next with
  | case1 found next hnext mid hmid ih =>
    have hs := hfound _ (List.getElem_mem hnext)
    -- an expansion adds steps only, so what was required of the list is true of the longer one
    have hsteps : ∀ t ∈ m.alphabet.symbols.map (m.step found[next]), P t := by
      intro t ht
      obtain ⟨a, ha, rfl⟩ := List.mem_map.1 ht
      exact h.step hs ha
    have hmidP : ∀ t ∈ mid, P t := by
      intro t ht
      exact ((discovers_of_foldlM hmid).only t ht).elim (hfound t) (hsteps t)
    have hnext' : next < (found.map f).length := by rwa [List.length_map]
    have himage : m'.discoverSteps limit (found.map f) (f found[next]) = .ok (mid.map f) := by
      rw [discoverSteps, h.steps hs]
      exact foldlM_discover_map h.injective hfound hsteps hmid
    rw [explore_of_lt hnext', List.getElem_map, himage]
    exact ih hmidP hok
  | case2 found next hnext fault hfault => cases hok
  | case3 found next hnext =>
    obtain rfl := Except.ok.inj hok
    rw [Automaton.explore, dif_neg (by rwa [List.length_map])]

theorem reachedSubsets (h : m.Correspond m' f P) (hi : m.initial = some i)
    (hi' : m'.initial = some i') (hstart : P (m.closureOf i))
    (himage : m'.closureOf i' = f (m.closureOf i)) (hok : m.reachedSubsets limit = .ok found) :
    m'.reachedSubsets limit = .ok (found.map f) := by
  rw [reachedSubsets_eq hi] at hok
  rw [reachedSubsets_eq hi', himage]
  exact h.explore (List.forall_mem_singleton.2 hstart) hok

end Correspond

end Automaton
end FiniteAutomata
