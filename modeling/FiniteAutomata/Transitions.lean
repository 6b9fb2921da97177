import FiniteAutomata.Label
import FiniteAutomata.StateSet

namespace FiniteAutomata

/-- A table with one entry for each label that occurs. -/
structure Transitions (α : Type) where
  entries : List (Label α × StateSet)
  nodup : (entries.map (·.1)).Nodup

namespace Transitions
variable {α : Type}

instance : EmptyCollection (Transitions α) := ⟨⟨[], .nil⟩⟩

/-- Every entry has a target. -/
def Pruned (t : Transitions α) : Prop := ∀ e ∈ t.entries, e.2 ≠ ∅

/-- Drops a target from all entries, and then the entries that have none left. -/
def forgetEntries (q : StateId) (l : List (Label α × StateSet)) : List (Label α × StateSet) :=
  (l.map fun e => (e.1, e.2.erase q)).filter fun e => !e.2.isEmpty

theorem forgetEntries_keys_sublist (q : StateId) (l : List (Label α × StateSet)) :
    ((forgetEntries q l).map (·.1)).Sublist (l.map (·.1)) := by
  have h : ((forgetEntries q l).map (·.1)).Sublist
      ((l.map fun e => (e.1, e.2.erase q)).map (·.1)) := List.filter_sublist.map _
  simpa [List.map_map, Function.comp_def] using h

def forget (t : Transitions α) (q : StateId) : Transitions α :=
  ⟨forgetEntries q t.entries, t.nodup.sublist (forgetEntries_keys_sublist q t.entries)⟩

/-- Some edge leads to the state, on whatever label. -/
def pointsTo (t : Transitions α) (q : StateId) : Bool := t.entries.any fun e => q ∈ e.2

/-- How many edges there are on labels of one kind. -/
def degree (t : Transitions α) (kind : Label α → Bool) : Nat :=
  t.entries.foldl (fun n e => if kind e.1 then n + e.2.size else n) 0

theorem pruned_empty : (∅ : Transitions α).Pruned := fun _ h => absurd h List.not_mem_nil

theorem pruned_forget (t : Transitions α) (q : StateId) : (t.forget q).Pruned := by
  intro e he
  have h := (List.mem_filter.1 he).2
  intro hempty
  simp [hempty, StateSet.isEmpty] at h

variable [DecidableEq α]

def find? (t : Transitions α) (x : Label α) : Option StateSet := t.entries.lookup x

/-- The targets of the edges on a label, of which there may be none. -/
def destinations (t : Transitions α) (x : Label α) : StateSet := (t.find? x).getD ∅

/-- Adds a target to the entry of a label, which is made at the end if it is missing. -/
def insertEntry (x : Label α) (q : StateId) :
    List (Label α × StateSet) → List (Label α × StateSet)
  | [] => [(x, {q})]
  | e :: l => if e.1 = x then (x, e.2.insert q) :: l else e :: insertEntry x q l

theorem mem_keys_insertEntry {x y : Label α} {q : StateId} {l : List (Label α × StateSet)} :
    y ∈ (insertEntry x q l).map (·.1) ↔ y = x ∨ y ∈ l.map (·.1) := by
  induction l with
  | nil => simp [insertEntry]
  | cons e l ih =>
    unfold insertEntry
    split
    · next h => simp [← h]
    · simp only [List.map_cons, List.mem_cons, ih]
      exact or_left_comm

theorem nodup_keys_insertEntry {x : Label α} {q : StateId} {l : List (Label α × StateSet)}
    (h : (l.map (·.1)).Nodup) : ((insertEntry x q l).map (·.1)).Nodup := by
  induction l with
  | nil => simp [insertEntry]
  | cons e l ih =>
    have he := List.nodup_cons.1 h
    unfold insertEntry
    split
    · next hx => exact List.nodup_cons.2 ⟨hx ▸ he.1, he.2⟩
    · next hx =>
      refine List.nodup_cons.2 ⟨fun hm => ?_, ih he.2⟩
      rcases mem_keys_insertEntry.1 hm with hex | hm
      · exact hx hex
      · exact he.1 hm

def insert (t : Transitions α) (x : Label α) (q : StateId) : Transitions α :=
  ⟨insertEntry x q t.entries, nodup_keys_insertEntry t.nodup⟩

@[simp] theorem destinations_empty (x : Label α) : (∅ : Transitions α).destinations x = ∅ := rfl

theorem lookup_cons_ne {x y : Label α} (h : y ≠ x) (d : StateSet)
    (l : List (Label α × StateSet)) : ((x, d) :: l).lookup y = l.lookup y := by
  have hyx : (y == x) = false := by simpa using h
  rw [List.lookup_cons, hyx]

theorem lookup_insertEntry (x y : Label α) (q : StateId) (l : List (Label α × StateSet)) :
    (insertEntry x q l).lookup y =
      if y = x then some (((l.lookup x).getD ∅).insert q) else l.lookup y := by
  induction l with
  | nil =>
    by_cases h : y = x
    · subst h
      simp only [insertEntry, List.lookup_cons_self, if_true]
      rfl
    · simp [insertEntry, lookup_cons_ne h, h]
  | cons e l ih =>
    obtain ⟨k, d⟩ := e
    by_cases hk : k = x
    · subst hk
      by_cases h : y = k
      · subst h; simp [insertEntry]
      · simp [insertEntry, lookup_cons_ne h, h]
    · by_cases hy : y = k
      · subst hy; simp [insertEntry, hk]
      · simp [insertEntry, hk, lookup_cons_ne hy, lookup_cons_ne (Ne.symm hk), ih]

theorem destinations_insert (t : Transitions α) (x y : Label α) (q : StateId) :
    (t.insert x q).destinations y =
      if y = x then (t.destinations x).insert q else t.destinations y := by
  simp only [destinations, find?, insert, lookup_insertEntry]
  split <;> rfl

theorem find?_eq_some_iff {t : Transitions α} {x : Label α} {d : StateSet} :
    t.find? x = some d ↔ (x, d) ∈ t.entries := by
  obtain ⟨l, hl⟩ := t
  change l.lookup x = some d ↔ (x, d) ∈ l
  induction l with
  | nil => simp
  | cons e l ih =>
    obtain ⟨k, c⟩ := e
    have hk := List.nodup_cons.1 hl
    by_cases h : x = k
    · subst h
      have hx : ∀ c, (x, c) ∉ l := fun c hc => hk.1 (List.mem_map.2 ⟨(x, c), hc, rfl⟩)
      simp [hx, eq_comm]
    · simp [lookup_cons_ne h, ih hk.2, h]

theorem mem_destinations_iff {t : Transitions α} {x : Label α} {q : StateId} :
    q ∈ t.destinations x ↔ ∃ d, (x, d) ∈ t.entries ∧ q ∈ d := by
  simp only [← find?_eq_some_iff, destinations]
  cases t.find? x <;> simp

theorem mem_destinations_forget {t : Transitions α} {x : Label α} {p q : StateId} :
    q ∈ (t.forget p).destinations x ↔ q ∈ t.destinations x ∧ q ≠ p := by
  simp only [mem_destinations_iff, forget, forgetEntries, List.mem_filter, List.mem_map]
  constructor
  · rintro ⟨_, ⟨⟨⟨y, c⟩, hc, he⟩, _⟩, hq⟩
    cases he
    have := StateSet.mem_erase.1 hq
    exact ⟨⟨c, hc, this.1⟩, this.2⟩
  · rintro ⟨⟨c, hc, hq⟩, hne⟩
    have hqe := StateSet.mem_erase.2 ⟨hq, hne⟩
    refine ⟨c.erase p, ⟨⟨(x, c), hc, rfl⟩, ?_⟩, hqe⟩
    simp only [Bool.not_eq_true', Bool.eq_false_iff, ne_eq, StateSet.isEmpty_iff]
    exact fun h => StateSet.not_mem_empty q (h ▸ hqe)

theorem pointsTo_iff {t : Transitions α} {q : StateId} :
    t.pointsTo q = true ↔ ∃ x, q ∈ t.destinations x := by
  simp only [pointsTo, List.any_eq_true, decide_eq_true_eq, mem_destinations_iff]
  exact ⟨fun ⟨e, he, hq⟩ => ⟨e.1, e.2, he, hq⟩, fun ⟨x, d, he, hq⟩ => ⟨(x, d), he, hq⟩⟩

theorem pruned_insert {t : Transitions α} (h : t.Pruned) (x : Label α) (q : StateId) :
    (t.insert x q).Pruned := by
  intro e he hempty
  have hd : (t.insert x q).find? e.1 = some e.2 := find?_eq_some_iff.2 he
  rw [find?, insert, lookup_insertEntry] at hd
  split at hd
  · have hq : q ∈ e.2 := Option.some.inj hd ▸ StateSet.mem_insert.2 (.inl rfl)
    exact StateSet.not_mem_empty q (hempty ▸ hq)
  · exact h _ (find?_eq_some_iff.1 hd) hempty

end Transitions
end FiniteAutomata
