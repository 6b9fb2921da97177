import FiniteAutomata.Alphabet
import FiniteAutomata.Proofs.General
import Mathlib.Data.List.Shortlex

namespace FiniteAutomata.Alphabet
variable {α : Type} [DecidableEq α] {s : Alphabet α} {a b : α} {u v w : List α}

/-- The places that the symbols of a word have in the alphabet. -/
def places (s : Alphabet α) (w : List α) : List Nat := w.map s.symbols.idxOf

/-- Shorter words come first, words of one length in the order of their first different symbols. -/
def Precedes (s : Alphabet α) (u v : List α) : Prop :=
  List.Shortlex (· < ·) (s.places u) (s.places v)

theorem precedes_iff : s.Precedes u v ↔
    u.length < v.length ∨ u.length = v.length ∧ s.places u < s.places v := by
  rw [Precedes, List.shortlex_def, places, places, List.length_map, List.length_map]
  rfl

instance (s : Alphabet α) (u v : List α) : Decidable (s.Precedes u v) :=
  decidable_of_iff _ precedes_iff.symm

/-- What counts is the order of the alphabet, not one of the symbols themselves. -/
example : (ofList ['b', 'a']).Precedes ['b', 'a'] ['a', 'b'] := by decide

theorem Precedes.trans (h : s.Precedes u v) (h' : s.Precedes v w) : s.Precedes u w := by
  rw [precedes_iff] at h h' ⊢
  rcases h with h | ⟨hlen, h⟩ <;> rcases h' with h' | ⟨hlen', h'⟩
  · exact .inl (h.trans h')
  · exact .inl (by omega)
  · exact .inl (by omega)
  · exact .inr ⟨hlen.trans hlen', h.trans h'⟩

theorem Precedes.asymm (h : s.Precedes u v) : ¬s.Precedes v u :=
  asymm_of (List.Shortlex (· < ·)) h

theorem not_precedes_self (s : Alphabet α) (u : List α) : ¬s.Precedes u u := fun h => h.asymm h

theorem precedes_wf (s : Alphabet α) : WellFounded s.Precedes :=
  InvImage.wf s.places (List.Shortlex.wf wellFounded_lt)

/-- A word over the alphabet is known by the places of its symbols. -/
theorem places_inj (hu : ∀ a ∈ u, a ∈ s) (hv : ∀ a ∈ v, a ∈ s) (h : s.places u = s.places v) :
    u = v := by
  induction u generalizing v with
  | nil => exact (List.map_eq_nil_iff.1 h.symm).symm
  | cons a u ih =>
    cases v with
    | nil => cases h
    | cons b v =>
      obtain ⟨ha, hu⟩ := List.forall_mem_cons.1 hu
      obtain ⟨hb, hv⟩ := List.forall_mem_cons.1 hv
      obtain ⟨hplace, hrest⟩ := List.cons.inj h
      rw [(List.idxOf_inj ha).1 hplace, ih hu hv hrest]

theorem precedes_trichotomy (hu : ∀ a ∈ u, a ∈ s) (hv : ∀ a ∈ v, a ∈ s) :
    s.Precedes u v ∨ u = v ∨ s.Precedes v u :=
  (trichotomous_of (List.Shortlex (· < ·)) (s.places u) (s.places v)).imp_right
    (.imp_left (places_inj hu hv))

theorem nil_precedes (s : Alphabet α) (hw : w ≠ []) : s.Precedes [] w :=
  precedes_iff.2 (.inl (List.length_pos_iff.2 hw))

/-- Whatever symbols are added at the end, the order stays. -/
theorem Precedes.concat (h : s.Precedes u v) (a b : α) : s.Precedes (u ++ [a]) (v ++ [b]) := by
  have happend : ∀ w c, s.places (w ++ [c]) = s.places w ++ [s.symbols.idxOf c] :=
    fun w c => List.map_append
  rw [precedes_iff, happend, happend, List.length_append, List.length_append]
  rcases precedes_iff.1 h with hlt | ⟨hlen, hlt⟩
  · exact .inl (Nat.add_lt_add_right hlt 1)
  · have hplaces : (s.places u).length = (s.places v).length := by
      rw [places, places, List.length_map, List.length_map, hlen]
    exact .inr ⟨congrArg (· + 1) hlen, append_lt_append hlt hplaces _ _⟩

theorem precedes_concat (w : List α) (h : s.symbols.idxOf a < s.symbols.idxOf b) :
    s.Precedes (w ++ [a]) (w ++ [b]) := by
  rw [Precedes, places, List.map_append, places, List.map_append]
  exact List.Shortlex.append_left ((List.shortlex_singleton_iff _ _).2 h) _

/-- `u` is the first of the words with a property. -/
structure IsFirst (s : Alphabet α) (P : List α → Prop) (u : List α) : Prop where
  holds : P u
  first : ∀ v, P v → v = u ∨ s.Precedes u v

variable {P : List α → Prop}

theorem IsFirst.unique (h : s.IsFirst P u) (h' : s.IsFirst P v) : u = v := by
  rcases h.first v h'.holds with e | hlt
  · exact e.symm
  · rcases h'.first u h.holds with e | hlt'
    · exact e
    · exact absurd hlt' hlt.asymm

theorem exists_isFirst (hover : ∀ w, P w → ∀ a ∈ w, a ∈ s) (h : P w) : ∃ u, s.IsFirst P u := by
  obtain ⟨u, hu, hmin⟩ := s.precedes_wf.has_min {u | P u} ⟨w, h⟩
  refine ⟨u, hu, fun v hv => ?_⟩
  rcases precedes_trichotomy (hover v hv) (hover u hu) with hlt | e | hlt
  · exact absurd hlt (hmin v hv)
  · exact .inl e
  · exact .inr hlt

end FiniteAutomata.Alphabet
