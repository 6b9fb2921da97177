/-! A set of states is kept as its strictly ascending list, so two sets with the same members are
the same value (`ext`), and every operation is described by its members alone. -/
namespace FiniteAutomata

/-- States are numbered from zero in the order in which they were added. -/
abbrev StateId := UInt32

/-- The name of a state that is given none. -/
def decimalName (q : StateId) : String := Nat.repr q.toNat

/-- A finite set of states, as the ascending list of its members. -/
structure StateSet where
  toList : List StateId
  ascending : toList.Pairwise (· < ·)

namespace StateSet

instance : Membership StateId StateSet := ⟨fun s q => q ∈ s.toList⟩

theorem mem_def {q : StateId} {s : StateSet} : q ∈ s ↔ q ∈ s.toList := Iff.rfl

@[simp] theorem mem_toList {q : StateId} {s : StateSet} : q ∈ s.toList ↔ q ∈ s := Iff.rfl

instance (q : StateId) (s : StateSet) : Decidable (q ∈ s) :=
  inferInstanceAs (Decidable (q ∈ s.toList))

/-- A set is determined by its members. -/
@[ext] theorem ext {s t : StateSet} (h : ∀ q, q ∈ s ↔ q ∈ t) : s = t := by
  obtain ⟨l, hl⟩ := s
  obtain ⟨m, hm⟩ := t
  have hlm : l = m := by
    induction l generalizing m with
    | nil =>
      cases m with
      | nil => rfl
      | cons y m => exact absurd ((h y).2 List.mem_cons_self) List.not_mem_nil
    | cons x l ih =>
      cases m with
      | nil => exact absurd ((h x).1 List.mem_cons_self) List.not_mem_nil
      | cons y m =>
        have hx := List.pairwise_cons.1 hl
        have hy := List.pairwise_cons.1 hm
        have hxy : x = y := by
          rcases List.mem_cons.1 ((h x).1 List.mem_cons_self) with e | hxm
          · exact e
          rcases List.mem_cons.1 ((h y).2 List.mem_cons_self) with e | hyl
          · exact e.symm
          · exact absurd (UInt32.lt_trans (hx.1 y hyl) (hy.1 x hxm)) (UInt32.lt_irrefl x)
        subst hxy
        congr 1
        refine ih hx.2 m hy.2 fun q => ?_
        have hq := h q
        simp only [mem_def, List.mem_cons] at hq ⊢
        constructor
        · intro hql
          rcases hq.1 (.inr hql) with rfl | hqm
          · exact absurd (hx.1 q hql) (UInt32.lt_irrefl q)
          · exact hqm
        · intro hqm
          rcases hq.2 (.inr hqm) with rfl | hql
          · exact absurd (hy.1 q hqm) (UInt32.lt_irrefl q)
          · exact hql
  subst hlm
  rfl

theorem toList_injective {s t : StateSet} (h : s.toList = t.toList) : s = t :=
  ext fun q => by rw [mem_def, mem_def, h]

instance : DecidableEq StateSet := fun s t =>
  decidable_of_iff (s.toList = t.toList) ⟨toList_injective, congrArg toList⟩

instance : EmptyCollection StateSet := ⟨⟨[], .nil⟩⟩

instance : Inhabited StateSet := ⟨∅⟩

@[simp] theorem not_mem_empty (q : StateId) : q ∉ (∅ : StateSet) := List.not_mem_nil

@[simp] theorem toList_empty : (∅ : StateSet).toList = [] := rfl

def size (s : StateSet) : Nat := s.toList.length

def isEmpty (s : StateSet) : Bool := s.toList.isEmpty

@[simp] theorem isEmpty_iff {s : StateSet} : s.isEmpty = true ↔ s = ∅ := by
  refine ⟨fun h => toList_injective (by simpa [isEmpty] using h), fun h => by subst h; rfl⟩

theorem exists_mem_of_ne_empty {s : StateSet} (h : s ≠ ∅) : ∃ q, q ∈ s := by
  obtain ⟨_ | ⟨q, l⟩, hl⟩ := s
  · exact absurd rfl h
  · exact ⟨q, List.mem_cons_self⟩

/-- Inserts at its place in an ascending list, unless it is there already. -/
def insertAscending (q : StateId) : List StateId → List StateId
  | [] => [q]
  | p :: l => if q < p then q :: p :: l else if q = p then p :: l else p :: insertAscending q l

theorem mem_insertAscending {x q : StateId} {l : List StateId} :
    x ∈ insertAscending q l ↔ x = q ∨ x ∈ l := by
  induction l with
  | nil => simp [insertAscending]
  | cons p l ih =>
    unfold insertAscending
    split
    · simp
    · split
      · next h => subst h; simp
      · simp [ih, or_left_comm]

theorem pairwise_insertAscending {q : StateId} {l : List StateId} (h : l.Pairwise (· < ·)) :
    (insertAscending q l).Pairwise (· < ·) := by
  induction l with
  | nil => simp [insertAscending]
  | cons p l ih =>
    have hp := List.pairwise_cons.1 h
    unfold insertAscending
    split
    · next hqp =>
      refine List.pairwise_cons.2 ⟨fun x hx => ?_, h⟩
      rcases List.mem_cons.1 hx with rfl | hx
      · exact hqp
      · exact UInt32.lt_trans hqp (hp.1 x hx)
    · split
      · exact h
      · next hqp hne =>
        refine List.pairwise_cons.2 ⟨fun x hx => ?_, ih hp.2⟩
        rcases mem_insertAscending.1 hx with rfl | hx
        · exact UInt32.lt_of_le_of_ne (UInt32.not_lt.1 hqp) (Ne.symm hne)
        · exact hp.1 x hx

def insert (q : StateId) (s : StateSet) : StateSet :=
  ⟨insertAscending q s.toList, pairwise_insertAscending s.ascending⟩

@[simp] theorem mem_insert {x q : StateId} {s : StateSet} : x ∈ s.insert q ↔ x = q ∨ x ∈ s :=
  mem_insertAscending

def erase (s : StateSet) (q : StateId) : StateSet :=
  ⟨s.toList.filter (· ≠ q), s.ascending.filter _⟩

@[simp] theorem mem_erase {x q : StateId} {s : StateSet} : x ∈ s.erase q ↔ x ∈ s ∧ x ≠ q := by
  change x ∈ s.toList.filter (fun y => decide (y ≠ q)) ↔ _
  simp [List.mem_filter]

instance : Singleton StateId StateSet := ⟨fun q => ⟨[q], List.pairwise_singleton _ q⟩⟩

@[simp] theorem mem_singleton {x q : StateId} : x ∈ ({q} : StateSet) ↔ x = q := List.mem_singleton

instance : Union StateSet := ⟨fun s t => t.toList.foldl (fun u q => u.insert q) s⟩

theorem mem_foldl_insert {x : StateId} {s : StateSet} {l : List StateId} :
    x ∈ l.foldl (fun u q => u.insert q) s ↔ x ∈ s ∨ x ∈ l := by
  induction l generalizing s with
  | nil => simp
  | cons q l ih => simp [ih, or_assoc, or_left_comm]

@[simp] theorem mem_union {x : StateId} {s t : StateSet} : x ∈ s ∪ t ↔ x ∈ s ∨ x ∈ t :=
  mem_foldl_insert

/-- The members of a list, in any order and with repetitions. -/
def ofList (l : List StateId) : StateSet := l.foldl (fun u q => u.insert q) ∅

@[simp] theorem mem_ofList {x : StateId} {l : List StateId} : x ∈ ofList l ↔ x ∈ l := by
  simp [ofList, mem_foldl_insert]

instance : SDiff StateSet := ⟨fun s t => ⟨s.toList.filter (· ∉ t), s.ascending.filter _⟩⟩

@[simp] theorem mem_sdiff {x : StateId} {s t : StateSet} : x ∈ s \ t ↔ x ∈ s ∧ x ∉ t := by
  change x ∈ s.toList.filter (fun y => decide (y ∉ t)) ↔ _
  simp [List.mem_filter]

def unions (l : List StateSet) : StateSet := l.foldl (· ∪ ·) ∅

@[simp] theorem mem_unions {x : StateId} {l : List StateSet} : x ∈ unions l ↔ ∃ s ∈ l, x ∈ s := by
  have key : ∀ s, x ∈ l.foldl (· ∪ ·) s ↔ x ∈ s ∨ ∃ t ∈ l, x ∈ t := by
    induction l with
    | nil => simp
    | cons t l ih => intro s; simp [ih, or_assoc]
  simpa [unions] using key ∅

instance : HasSubset StateSet := ⟨fun s t => ∀ q, q ∈ s → q ∈ t⟩

def meets (s t : StateSet) : Bool := s.toList.any (· ∈ t)

@[simp] theorem meets_iff {s t : StateSet} : s.meets t = true ↔ ∃ q, q ∈ s ∧ q ∈ t := by
  simp [meets]

/-- The key of a subset is a sublist of the key of the whole set. -/
theorem sublist_of_subset {s t : StateSet} (h : s ⊆ t) : s.toList.Sublist t.toList := by
  obtain ⟨l, hl⟩ := s
  obtain ⟨m, hm⟩ := t
  replace h : ∀ q ∈ l, q ∈ m := h
  change l.Sublist m
  induction m generalizing l with
  | nil =>
    cases l with
    | nil => exact .slnil
    | cons x l => exact absurd (h x List.mem_cons_self) List.not_mem_nil
  | cons y m ih =>
    have hy := List.pairwise_cons.1 hm
    cases l with
    | nil => exact List.nil_sublist _
    | cons x l =>
      have hx := List.pairwise_cons.1 hl
      rcases List.mem_cons.1 (h x List.mem_cons_self) with rfl | hxm
      · refine .cons_cons _ (ih l hx.2 hy.2 fun q hq => ?_)
        rcases List.mem_cons.1 (h q (List.mem_cons_of_mem _ hq)) with rfl | hqm
        · exact absurd (hx.1 q hq) (UInt32.lt_irrefl q)
        · exact hqm
      · refine .cons _ (ih _ hl hy.2 fun q hq => ?_)
        have hyq : y < q := by
          rcases List.mem_cons.1 hq with rfl | hql
          · exact hy.1 _ hxm
          · exact UInt32.lt_trans (hy.1 x hxm) (hx.1 q hql)
        rcases List.mem_cons.1 (h q hq) with rfl | hqm
        · exact absurd hyq (UInt32.lt_irrefl q)
        · exact hqm

theorem size_lt_size {s t : StateSet} (h : s ⊆ t) {q : StateId} (hq : q ∈ t) (hs : q ∉ s) :
    s.size < t.size := by
  have hsub := sublist_of_subset h
  rcases Nat.lt_or_eq_of_le hsub.length_le with hlt | heq
  · exact hlt
  · exact absurd (toList_injective (hsub.eq_of_length heq) ▸ hq) hs

end StateSet

/-- The list goes through the members of the set, each once, in whatever order. -/
structure Enumerates (l : List StateId) (s : StateSet) : Prop where
  nodup : l.Nodup
  mem_iff : ∀ {q}, q ∈ l ↔ q ∈ s

/-- The members of a set, sorted as they come. -/
def subsetKey (l : List StateId) : List StateId := l.mergeSort (· ≤ ·)

end FiniteAutomata
