import Mathlib.Data.List.Basic
import Mathlib.Tactic.Common

/-! Results that can fail, lists and arrays: what the library does not have and several modules
need, or one of them for any type. -/
namespace FiniteAutomata

section Results
variable {ε β γ : Type}

theorem ok_bind (b : β) (f : β → Except ε γ) : (Except.ok b >>= f) = f b := rfl

theorem bind_eq_ok_iff {x : Except ε β} {f : β → Except ε γ} {c : γ} :
    x >>= f = .ok c ↔ ∃ b, x = .ok b ∧ f b = .ok c := by
  cases x <;> simp [bind, Except.bind]

theorem check_bind_eq_ok_iff {x : Except ε Unit} {f : Unit → Except ε γ} {c : γ} :
    x >>= f = .ok c ↔ x = .ok () ∧ f () = .ok c := by
  cases x <;> simp [bind, Except.bind]

theorem pure_eq_ok_iff {b c : β} : (pure b : Except ε β) = .ok c ↔ c = b := by
  simp [pure, Except.pure, eq_comm]

/-- Checks in a row succeed if each of them does. -/
theorem forM_eq_ok_iff {f : β → Except ε Unit} {l : List β} :
    forM l f = .ok () ↔ ∀ b ∈ l, f b = .ok () := by
  induction l with
  | nil => simp [pure, Except.pure]
  | cons b l ih => rw [List.forM_cons, check_bind_eq_ok_iff, List.forall_mem_cons, ih]

/-- Checks in a row that can fail in one way only fail if one of them does. -/
theorem forM_eq_ite {f : β → Except ε Unit} {P : β → Prop} [DecidablePred P] {e : ε}
    {l : List β} (h : ∀ b ∈ l, f b = if P b then .error e else .ok ()) :
    forM l f = if ∃ b ∈ l, P b then .error e else .ok () := by
  induction l with
  | nil => simp [pure, Except.pure]
  | cons b l ih =>
    obtain ⟨hb, hl⟩ := List.forall_mem_cons.1 h
    rw [List.forM_cons, hb]
    by_cases hP : P b
    · simp [hP, bind, Except.bind]
    · simp [hP, bind, Except.bind, ih hl]

end Results

section Lists
variable {β γ : Type} {a b : β} {l : List β}

theorem mem_map_iff_of_inj {f : β → γ} (hinj : ∀ b ∈ l, f a = f b → a = b) :
    f a ∈ l.map f ↔ a ∈ l := by
  constructor
  · intro ha
    obtain ⟨b, hb, heq⟩ := List.mem_map.1 ha
    rwa [hinj b hb heq.symm]
  · exact List.mem_map_of_mem

/-- The member at a distance from the end, counted from either side. -/
theorem getElem?_reverse_pred_iff {n : Nat} (hn : 1 ≤ n) :
    l.reverse[n - 1]? = some a ↔ n ≤ l.length ∧ l[l.length - n]? = some a := by
  by_cases hlt : n ≤ l.length
  · have hplace : l.length - 1 - (n - 1) = l.length - n := by omega
    rw [List.getElem?_reverse (by omega), hplace]
    simp [hlt]
  · rw [List.getElem?_eq_none (by rw [List.length_reverse]; omega)]
    simp [hlt]

theorem append_lt_append {k l : List Nat} (h : k < l) (hlen : k.length = l.length)
    (k' l' : List Nat) : k ++ k' < l ++ l' := by
  induction h with
  | nil => cases hlen
  | cons _ ih => exact .cons (ih (Nat.succ.inj hlen))
  | rel h => exact .rel h

/-- Two numberings without gaps are equal if they put the members in the same order. -/
theorem eq_of_lt_iff_lt {f g : β → Nat} {P : β → Prop}
    (hlt : ∀ a b, P a → P b → (f a < f b ↔ g a < g b))
    (hf : ∀ b, P b → ∀ k < f b, ∃ a, P a ∧ f a = k)
    (hg : ∀ b, P b → ∀ k < g b, ∃ a, P a ∧ g a = k) (hb : P b) : f b = g b := by
  induction hk : f b using Nat.strongRecOn generalizing b with
  | ind k ih =>
    subst hk
    rcases Nat.lt_trichotomy (f b) (g b) with h | h | h
    · obtain ⟨a, ha, hga⟩ := hg b hb (f b) h
      have hfa := (hlt a b ha hb).2 (hga ▸ h)
      have := ih (f a) hfa ha rfl
      omega
    · exact h
    · obtain ⟨a, ha, hfa⟩ := hf b hb (g b) h
      have hga := (hlt a b ha hb).1 (hfa ▸ h)
      have := ih (f a) (hfa ▸ h) ha rfl
      omega

variable [DecidableEq β]

theorem mem_of_idxOf_lt {before rest : List β} (hnodup : (before ++ a :: rest).Nodup)
    (h : (before ++ a :: rest).idxOf b < (before ++ a :: rest).idxOf a) : b ∈ before := by
  have ha : a ∉ before := fun ha => (List.nodup_append.1 hnodup).2.2 a ha a List.mem_cons_self rfl
  by_contra hb
  rw [List.idxOf_append_of_notMem hb, List.idxOf_append_of_notMem ha, List.idxOf_cons_self] at h
  omega

theorem lookup_zipIdx_map (ha : a ∈ l) (f : Nat → γ) (k : Nat) :
    ((l.zipIdx k).map fun c => (c.1, f c.2)).lookup a = some (f (k + l.idxOf a)) := by
  induction l generalizing k with
  | nil => cases ha
  | cons b l ih =>
    rw [List.zipIdx_cons, List.map_cons, List.lookup_cons, List.idxOf_cons]
    by_cases hab : a = b
    · simp [hab]
    · have hbeq : (a == b) = false ∧ (b == a) = false := by simp [hab, Ne.symm hab]
      rw [ih ((List.mem_cons.1 ha).resolve_left hab), hbeq.1, hbeq.2, cond_false,
        Nat.add_right_comm k 1, Nat.add_assoc k]

omit [DecidableEq β] in
/-- A list is a table from places to members, as long as the places are 32-bit numbers. -/
theorem lookup_zipIdx (l : List β) (n : Nat) (fits : n + l.length ≤ UInt32.size) (q : UInt32) :
    ((l.zipIdx n).map fun c => (UInt32.ofNat c.2, c.1)).lookup q =
      if n ≤ q.toNat then l[q.toNat - n]? else none := by
  induction l generalizing n with
  | nil => simp
  | cons b l ih =>
    rw [List.length_cons] at fits
    have hn : (UInt32.ofNat n).toNat = n := UInt32.toNat_ofNat_of_lt' (by omega)
    rw [List.zipIdx_cons, List.map_cons, List.lookup_cons, ih (n + 1) (by omega)]
    by_cases hq : q = UInt32.ofNat n
    · simp [hq, hn]
    · have hne : q.toNat ≠ n := by
        rw [← hn]
        exact mt UInt32.toNat_inj.1 hq
      have hsub : n < q.toNat → q.toNat - n = q.toNat - (n + 1) + 1 := by omega
      rw [beq_false_of_ne hq]
      split_ifs with hlt hle hle
      · rw [hsub hlt, List.getElem?_cons_succ]
      · omega
      · omega
      · rfl

end Lists

section Arrays
variable {β : Type}

theorem modify_push (a : Array β) {k : Nat} (hk : k < a.size) (x : β) (g : β → β) :
    (a.push x).modify k g = (a.modify k g).push x := by
  ext i hi hi'
  · simp
  · simp only [Array.getElem_modify, Array.getElem_push, Array.size_modify]
    split_ifs with h h' h'
    · rfl
    · omega
    · rfl
    · rfl

/-- Emptying two slots, each time with a change to all others, when the changes commute. -/
theorem setIfInBounds_map_comm {f g : β → β} (h : ∀ b, g (f b) = f (g b))
    (slots : Array (Option β)) (j k : Nat) :
    (((slots.setIfInBounds j none).map (·.map f)).setIfInBounds k none).map (·.map g) =
      (((slots.setIfInBounds k none).map (·.map g)).setIfInBounds j none).map (·.map f) := by
  apply Array.ext_getElem?
  intro n
  simp only [Array.getElem?_map, Array.getElem?_setIfInBounds, Array.size_map,
    Array.size_setIfInBounds]
  by_cases hj : j = n
  · by_cases hk : k = n
    · simp [hj, hk]
    · simp [hj, hk]
  · by_cases hk : k = n
    · simp [hj, hk]
    · simp [hj, hk, Function.comp_def, h]

end Arrays

end FiniteAutomata
