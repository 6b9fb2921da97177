import FiniteAutomata.Proofs.WellFormed

namespace FiniteAutomata

/-- The word that is read along edges with these labels. -/
def Label.word {α : Type} (xs : List (Label α)) : List α := xs.filterMap Label.literal?

section Words
variable {α : Type}

@[simp] theorem word_nil : Label.word ([] : List (Label α)) = [] := rfl

@[simp] theorem word_cons_epsilon (xs : List (Label α)) :
    Label.word (.epsilon :: xs) = Label.word xs := rfl

@[simp] theorem word_cons_literal (a : α) (xs : List (Label α)) :
    Label.word (.literal a :: xs) = a :: Label.word xs := rfl

@[simp] theorem word_append (xs ys : List (Label α)) :
    Label.word (xs ++ ys) = Label.word xs ++ Label.word ys :=
  List.filterMap_append

end Words

namespace Automaton
variable {α : Type} {m : Automaton α} {p q r : StateId}

/-- From one state to another along listed edges, with the labels on the way. -/
inductive Path (m : Automaton α) : StateId → List (Label α) → StateId → Prop
  | nil (q : StateId) : Path m q [] q
  | cons {p q r : StateId} {x : Label α} {xs : List (Label α)}
      (edge : ⟨p, x, q⟩ ∈ m.transitions) (rest : Path m q xs r) : Path m p (x :: xs) r

theorem Path.append {xs ys : List (Label α)} (h : m.Path p xs q) (h' : m.Path q ys r) :
    m.Path p (xs ++ ys) r := by
  induction h with
  | nil q => exact h'
  | cons edge _ ih => exact .cons edge (ih h')

/-- A path is carried over to another automaton by renumbering, if every edge is. -/
theorem Path.map {c : Automaton α} {f : StateId → StateId}
    (hf : ∀ {p x q}, ⟨p, x, q⟩ ∈ m.transitions → ⟨f p, x, f q⟩ ∈ c.transitions)
    {xs : List (Label α)} (h : m.Path p xs q) : c.Path (f p) xs (f q) := by
  induction h with
  | nil q => exact .nil _
  | cons edge _ ih => exact .cons (hf edge) ih

/-- Some path reads the word between the two states. -/
def Reads (m : Automaton α) (p : StateId) (w : List α) (q : StateId) : Prop :=
  ∃ xs, m.Path p xs q ∧ Label.word xs = w

theorem Path.reads {xs : List (Label α)} (h : m.Path p xs q) : m.Reads p (Label.word xs) q :=
  ⟨xs, h, rfl⟩

theorem Reads.refl (m : Automaton α) (q : StateId) : m.Reads q [] q := ⟨[], .nil q, rfl⟩

theorem Reads.epsilon {w : List α} (edge : ⟨p, .epsilon, q⟩ ∈ m.transitions)
    (h : m.Reads q w r) : m.Reads p w r := by
  obtain ⟨xs, hxs, rfl⟩ := h
  exact ⟨.epsilon :: xs, .cons edge hxs, rfl⟩

theorem Reads.literal {a : α} {w : List α} (edge : ⟨p, .literal a, q⟩ ∈ m.transitions)
    (h : m.Reads q w r) : m.Reads p (a :: w) r := by
  obtain ⟨xs, hxs, rfl⟩ := h
  exact ⟨.literal a :: xs, .cons edge hxs, rfl⟩

theorem Reads.append {u v : List α} (h : m.Reads p u q) (h' : m.Reads q v r) :
    m.Reads p (u ++ v) r := by
  obtain ⟨xs, hxs, rfl⟩ := h
  obtain ⟨ys, hys, rfl⟩ := h'
  exact ⟨xs ++ ys, hxs.append hys, word_append xs ys⟩

theorem Reads.map {c : Automaton α} {f : StateId → StateId} {w : List α}
    (hf : ∀ {p x q}, ⟨p, x, q⟩ ∈ m.transitions → ⟨f p, x, f q⟩ ∈ c.transitions)
    (h : m.Reads p w q) : c.Reads (f p) w (f q) := by
  obtain ⟨xs, hxs, rfl⟩ := h
  exact ⟨xs, hxs.map hf, rfl⟩

/-- Reading a symbol first: epsilon edges, one edge with the symbol, and the rest. -/
theorem reads_cons_iff {a : α} {w : List α} :
    m.Reads p (a :: w) r ↔ ∃ q q', m.Reads p [] q ∧
      ⟨q, .literal a, q'⟩ ∈ m.transitions ∧ m.Reads q' w r := by
  constructor
  · intro h
    obtain ⟨xs, hxs, hw⟩ := h
    induction hxs with
    | nil q => cases hw
    | @cons p q r x xs edge hrest ih =>
      cases x with
      | epsilon =>
        obtain ⟨s, s', hs, hedge, hs'⟩ := ih hw
        exact ⟨s, s', hs.epsilon edge, hedge, hs'⟩
      | literal b =>
        obtain ⟨rfl, rfl⟩ := List.cons.inj hw
        exact ⟨p, q, .refl m p, edge, hrest.reads⟩
  · intro h
    obtain ⟨q, q', hq, edge, hr⟩ := h
    exact hq.append (hr.literal edge)

variable [DecidableEq α]

/-- A path ends in a state if it starts in one. -/
theorem Path.target_live (hm : m.WellFormed) {xs : List (Label α)} (h : m.Path p xs q)
    (hp : m.contains p = true) : m.contains q = true := by
  induction h with
  | nil q => exact hp
  | cons edge _ ih => exact ih (hm.target_live ((mem_transitions_iff hm.fits).1 edge))

theorem Reads.target_live (hm : m.WellFormed) {w : List α} (h : m.Reads p w q)
    (hp : m.contains p = true) : m.contains q = true := by
  obtain ⟨xs, hxs, -⟩ := h
  exact hxs.target_live hm hp

/-- Paths read symbols of the alphabet only. -/
theorem Reads.symbol_valid (hm : m.WellFormed) {w : List α} (h : m.Reads p w q) :
    ∀ a ∈ w, a ∈ m.alphabet := by
  obtain ⟨xs, hxs, rfl⟩ := h
  induction hxs with
  | nil q => simp
  | @cons p q r x xs edge _ ih =>
    cases x with
    | epsilon => exact ih
    | literal a =>
      rw [word_cons_literal, List.forall_mem_cons]
      exact ⟨hm.label_valid ((mem_transitions_iff hm.fits).1 edge), ih⟩

/-- Suppose that `c` holds a copy of `m`, in which state `p` has the number `f p`, and that every
edge out of the copy is an `Exit`. Then a path that starts in the copy stays there, or it can be cut
at the first exit. -/
theorem Path.stays_or_leaves {c : Automaton α} {f : StateId → StateId}
    {Exit : StateId → Label α → StateId → Prop} (hm : m.WellFormed)
    (hedge : ∀ {p x r}, m.contains p = true → ⟨f p, x, r⟩ ∈ c.transitions →
      (∃ q, ⟨p, x, q⟩ ∈ m.transitions ∧ r = f q) ∨ Exit p x r)
    {xs : List (Label α)} (h : c.Path (f p) xs r) (hp : m.contains p = true) :
    (∃ q, r = f q ∧ m.Path p xs q) ∨ ∃ us x vs k o,
      xs = us ++ x :: vs ∧ m.Path p us k ∧ Exit k x o ∧ c.Path o vs r := by
  generalize hs : f p = s at h
  induction h generalizing p with
  | nil s => exact .inl ⟨p, hs.symm, .nil p⟩
  | @cons s t r x xs edge rest ih =>
    subst hs
    rcases hedge hp edge with ⟨q, hpq, rfl⟩ | hexit
    · have hq := hm.target_live ((mem_transitions_iff hm.fits).1 hpq)
      rcases ih hq rfl with ⟨q', hr, hpath⟩ | ⟨us, y, vs, k, o, rfl, hpath, hexit, hrest⟩
      · exact .inl ⟨q', hr, .cons hpq hpath⟩
      · exact .inr ⟨x :: us, y, vs, k, o, rfl, .cons hpq hpath, hexit, hrest⟩
    · exact .inr ⟨[], x, xs, p, t, rfl, .nil p, hexit, rest⟩

/-- A path in a copy without exits is a path of what was copied. -/
theorem Path.stays {c : Automaton α} {f : StateId → StateId} (hm : m.WellFormed)
    (hedge : ∀ {p x r}, m.contains p = true → ⟨f p, x, r⟩ ∈ c.transitions →
      ∃ q, ⟨p, x, q⟩ ∈ m.transitions ∧ r = f q)
    {xs : List (Label α)} (h : c.Path (f p) xs r) (hp : m.contains p = true) :
    ∃ q, r = f q ∧ m.Path p xs q := by
  have hedge' : ∀ {p x r}, m.contains p = true → ⟨f p, x, r⟩ ∈ c.transitions →
      (∃ q, ⟨p, x, q⟩ ∈ m.transitions ∧ r = f q) ∨ False := fun hp he => .inl (hedge hp he)
  rcases h.stays_or_leaves hm hedge' hp with hstay | ⟨_, _, _, _, _, _, _, hfalse, _⟩
  · exact hstay
  · exact hfalse.elim

end Automaton
end FiniteAutomata
