import FiniteAutomata.Proofs.WellFormed
import Mathlib.Data.List.Nodup
import Mathlib.Logic.Embedding.Basic

/-! A renaming keeps different symbols different. It leaves the states, marks and names alone and
goes through every query and every edit; a fault keeps its kind, and an invalid symbol is reported
under its new name (`mapResult`). -/
namespace FiniteAutomata
variable {α β γ δ : Type}

theorem Label.map_injective (f : α ↪ β) : Function.Injective (Label.map f) := by
  intro x y h
  cases x <;> cases y <;> simp_all [Label.map]

@[simp] theorem Label.map_inj (f : α ↪ β) {x y : Label α} : x.map f = y.map f ↔ x = y :=
  (Label.map_injective f).eq_iff

@[simp] theorem Label.isEpsilon_map (f : α ↪ β) (x : Label α) :
    (x.map f).isEpsilon = x.isEpsilon := by
  cases x <;> rfl

namespace Alphabet

/-- The renamed symbols, in the same order. -/
def map (f : α ↪ β) (s : Alphabet α) : Alphabet β := ⟨s.symbols.map f, s.nodup.map f.injective⟩

variable (f : α ↪ β) (s t : Alphabet α) {a : α}

@[simp] theorem symbols_map : (s.map f).symbols = s.symbols.map f := rfl

@[simp] theorem mem_map_iff : f a ∈ s.map f ↔ a ∈ s := by
  rw [← mem_symbols, symbols_map, List.mem_map_of_injective f.injective, mem_symbols]

theorem labels_map : (s.map f).labels = s.labels.map (Label.map f) := by
  simp [labels, Label.map, Function.comp_def]

theorem words_map (n : Nat) : (s.map f).words n = (s.words n).map (List.map f) := by
  induction n with
  | zero => rfl
  | succ n ih => simp [words, ih, List.flatMap_map, List.map_flatMap, Function.comp_def]

variable [DecidableEq α] [DecidableEq β]

theorem insert_map : (s.map f).insert (f a) = (s.insert a).map f := by
  unfold insert
  by_cases ha : a ∈ s
  · simp [ha]
  · ext1
    simp [ha]

theorem ofList_map (l : List α) : ofList (l.map f) = (ofList l).map f := by
  have key : ∀ s : Alphabet α, (l.map f).foldl insert (s.map f) = (l.foldl insert s).map f := by
    induction l with
    | nil => intro s; rfl
    | cons a l ih => intro s; simp [insert_map, ih]
  exact key ∅

theorem sameSymbols_map : (s.map f).sameSymbols (t.map f) = s.sameSymbols t := by
  simp [sameSymbols, size, List.all_map, Function.comp_def]

end Alphabet

def Edge.map (f : α → β) (e : Edge α) : Edge β := ⟨e.source, e.label.map f, e.target⟩

/-- What an operation returns, if `f` renames the symbol that a fault names and `g` the rest. -/
def mapResult (f : α → β) (g : γ → δ) : Except (Fault α) γ → Except (Fault β) δ
  | .ok c => .ok (g c)
  | .error e => .error (e.map f)

section Results
variable {ε ζ : Type} {f : α → β} {g : γ → δ} {h : ε → ζ}

@[simp] theorem mapResult_ok {c : γ} : mapResult f g (.ok c) = .ok (g c) := rfl

@[simp] theorem mapResult_error {e : Fault α} : mapResult f g (.error e) = .error (e.map f) := rfl

@[simp] theorem mapResult_pure {c : γ} : mapResult f g (pure c) = pure (g c) := rfl

/-- Steps that are renamed one by one are renamed as a whole. -/
theorem mapResult_bind {x : Except (Fault α) γ} {k : γ → Except (Fault α) ε}
    {k' : δ → Except (Fault β) ζ} (hk : ∀ c, k' (g c) = mapResult f h (k c)) :
    (mapResult f g x >>= k') = mapResult f h (x >>= k) := by
  cases x with
  | ok c => exact hk c
  | error e => rfl

theorem mapResult_map {x : Except (Fault α) γ} {k : γ → ε} {k' : δ → ζ}
    (hk : ∀ c, k' (g c) = h (k c)) :
    (mapResult f g x).map k' = mapResult f h (x.map k) := by
  cases x with
  | ok c => exact congrArg Except.ok (hk c)
  | error e => rfl

theorem mapResult_forM {l : List γ} {k : γ → Except (Fault α) Unit}
    {k' : γ → Except (Fault β) Unit} (hk : ∀ c, k' c = mapResult f id (k c)) :
    forM l k' = mapResult f id (forM l k) := by
  induction l with
  | nil => rfl
  | cons c l ih =>
    rw [List.forM_cons, List.forM_cons, hk]
    exact mapResult_bind fun _ => ih

theorem mapResult_foldlM {l : List γ} {k : ε → γ → Except (Fault α) ε}
    {k' : ζ → γ → Except (Fault β) ζ} (hk : ∀ b c, k' (h b) c = mapResult f h (k b c)) (b : ε) :
    l.foldlM k' (h b) = mapResult f h (l.foldlM k b) := by
  induction l generalizing b with
  | nil => rfl
  | cons c l ih =>
    rw [List.foldlM_cons, List.foldlM_cons, hk]
    exact mapResult_bind ih

theorem mapResult_mapM {l : List γ} {k : γ → Except (Fault α) ε} {k' : γ → Except (Fault β) ζ}
    (hk : ∀ c, k' c = mapResult f h (k c)) :
    l.mapM k' = mapResult f (List.map h) (l.mapM k) := by
  induction l with
  | nil => rfl
  | cons c l ih =>
    rw [List.mapM_cons, List.mapM_cons, hk, ih]
    exact mapResult_bind fun _ => mapResult_bind fun _ => rfl

end Results

namespace Transitions

def map (f : α ↪ β) (t : Transitions α) : Transitions β where
  entries := t.entries.map fun e => (e.1.map f, e.2)
  nodup := by
    have hkeys := t.nodup.map (Label.map_injective f)
    simpa [Function.comp_def] using hkeys

variable (f : α ↪ β) (t : Transitions α) {x : Label α} {q : StateId}

@[simp] theorem map_empty : (∅ : Transitions α).map f = ∅ := rfl

@[simp] theorem pointsTo_map : (t.map f).pointsTo q = t.pointsTo q := by
  simp [pointsTo, map, Function.comp_def]

theorem forget_map : (t.map f).forget q = (t.forget q).map f := by
  simp [forget, map, forgetEntries, List.filter_map, Function.comp_def]

variable [DecidableEq α] [DecidableEq β]

@[simp] theorem find?_map : (t.map f).find? (x.map f) = t.find? x := by
  obtain ⟨l, hl⟩ := t
  change (l.map fun e => (e.1.map f, e.2)).lookup (x.map f) = l.lookup x
  clear hl
  induction l with
  | nil => rfl
  | cons e l ih =>
    obtain ⟨y, d⟩ := e
    by_cases hxy : x = y
    · simp [hxy]
    · have hmap : x.map f ≠ y.map f := by simpa using hxy
      rw [List.map_cons, lookup_cons_ne hmap, lookup_cons_ne hxy, ih]

@[simp] theorem destinations_map : (t.map f).destinations (x.map f) = t.destinations x := by
  rw [destinations, destinations, find?_map]

theorem insert_map : (t.map f).insert (x.map f) q = (t.insert x q).map f := by
  have key : ∀ l : List (Label α × StateSet),
      insertEntry (x.map f) q (l.map fun e => (e.1.map f, e.2)) =
        (insertEntry x q l).map fun e => (e.1.map f, e.2) := by
    intro l
    induction l with
    | nil => rfl
    | cons e l ih =>
      by_cases hx : e.1 = x
      · simp [insertEntry, hx]
      · simp [insertEntry, hx, ih]
  simp [insert, map, key]

end Transitions

def State.map (f : α ↪ β) (s : State α) : State β := ⟨s.name, s.transitions.map f⟩

namespace Automaton

/-- The automaton with all its symbols renamed: those of the alphabet and those on the edges. -/
def map (f : α ↪ β) (m : Automaton α) : Automaton β where
  alphabet := m.alphabet.map f
  slots := m.slots.map (Option.map (State.map f))
  initial := m.initial
  finals := m.finals

variable (f : α ↪ β) (m : Automaton α) {p q : StateId}

theorem empty_map (alphabet : Alphabet α) : empty (alphabet.map f) = (empty alphabet).map f := by
  simp [empty, map]

@[simp] theorem alphabet_map : (m.map f).alphabet = m.alphabet.map f := rfl

@[simp] theorem initial_map : (m.map f).initial = m.initial := rfl

@[simp] theorem finals_map : (m.map f).finals = m.finals := rfl

@[simp] theorem nextId_map : (m.map f).nextId = m.nextId := by
  simp [nextId, map]

@[simp] theorem state?_map : (m.map f).state? q = (m.state? q).map (State.map f) := by
  simp only [state?, map, Array.getElem?_map]
  cases m.slots[q.toNat]? with
  | none => rfl
  | some s => rfl

@[simp] theorem contains_map : (m.map f).contains q = m.contains q := by
  simp [contains]

@[simp] theorem name?_map : (m.map f).name? q = m.name? q := by
  simp [name?, State.map, Function.comp_def]

@[simp] theorem liveStates_map :
    (m.map f).liveStates = m.liveStates.map fun s => (s.1, s.2.map f) := by
  simp [liveStates, map, List.zipIdx_map, List.filterMap_map, List.map_filterMap,
    Function.comp_def]

@[simp] theorem stateIds_map : (m.map f).stateIds = m.stateIds := by
  simp [stateIds]

@[simp] theorem states_map : (m.map f).states = m.states := by
  simp [states, State.map]

@[simp] theorem stateCount_map : (m.map f).stateCount = m.stateCount := by
  simp [stateCount]

theorem transitions_map : (m.map f).transitions = m.transitions.map (Edge.map f) := by
  simp [transitions, State.map, Transitions.map, Edge.map, List.flatMap_map, List.map_flatMap,
    Function.comp_def]

theorem findState_map : (m.map f).findState q = mapResult f (State.map f) (m.findState q) := by
  rw [findState, findState, state?_map]
  cases m.state? q <;> rfl

theorem findInitial_map : (m.map f).findInitial = mapResult f id m.findInitial := by
  rw [findInitial, findInitial, initial_map]
  cases m.initial <;> rfl

@[simp] theorem hasAnyTransition_map :
    (m.map f).hasAnyTransition p q = m.hasAnyTransition p q := by
  simp [hasAnyTransition, State.map, Option.any_map]

theorem transitionsFrom_map :
    (m.map f).transitionsFrom p = mapResult f (Transitions.map f) (m.transitionsFrom p) := by
  rw [transitionsFrom, findState_map]
  exact mapResult_bind fun _ => rfl

@[simp] theorem isDeterministic_map : (m.map f).isDeterministic = m.isDeterministic := by
  simp [isDeterministic, State.map, Transitions.map, Function.comp_def]

variable [DecidableEq α] [DecidableEq β] {x : Label α} {a : α}

@[simp] theorem destinations_map :
    (m.map f).destinations p (x.map f) = m.destinations p x := by
  simp only [destinations, state?_map]
  cases m.state? p <;> simp [State.map]

@[simp] theorem hasTransition_map :
    (m.map f).hasTransition p (x.map f) q = m.hasTransition p x q := by
  simp [hasTransition]

theorem checkSymbol_map :
    (m.map f).checkSymbol (f a) = mapResult f id (m.checkSymbol a) := by
  by_cases ha : a ∈ m.alphabet <;> simp [checkSymbol, ha, Fault.map]

theorem checkLabel_map :
    (m.map f).checkLabel (x.map f) = mapResult f id (m.checkLabel x) := by
  cases x with
  | epsilon => rfl
  | literal a => exact checkSymbol_map f m

theorem delta_map : (m.map f).delta p (x.map f) = mapResult f id (m.delta p x) := by
  rw [delta, checkLabel_map, findState_map]
  refine mapResult_bind fun _ => mapResult_bind fun s => ?_
  simp [State.map]

theorem transitionsOn_map :
    (m.map f).transitionsOn (x.map f) = mapResult f id (m.transitionsOn x) := by
  rw [transitionsOn, checkLabel_map]
  refine mapResult_bind fun _ => ?_
  simp [State.map, List.filterMap_map]

end Automaton
end FiniteAutomata
