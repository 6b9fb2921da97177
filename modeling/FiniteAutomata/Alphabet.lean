import FiniteAutomata.Label

namespace FiniteAutomata

/-- Different symbols in a fixed order. -/
structure Alphabet (α : Type) where
  symbols : List α
  nodup : symbols.Nodup

namespace Alphabet
variable {α : Type}

instance : Membership α (Alphabet α) := ⟨fun s a => a ∈ s.symbols⟩

instance : EmptyCollection (Alphabet α) := ⟨⟨[], .nil⟩⟩

instance : Inhabited (Alphabet α) := ⟨∅⟩

@[simp] theorem mem_symbols {a : α} {s : Alphabet α} : a ∈ s.symbols ↔ a ∈ s := Iff.rfl

@[simp] theorem not_mem_empty (a : α) : a ∉ (∅ : Alphabet α) := List.not_mem_nil

@[ext] theorem ext {s t : Alphabet α} (h : s.symbols = t.symbols) : s = t := by
  cases s; cases t; subst h; rfl

def size (s : Alphabet α) : Nat := s.symbols.length

/-- Epsilon, then the symbols in order. -/
def labels (s : Alphabet α) : List (Label α) := .epsilon :: s.symbols.map .literal

theorem mem_labels_iff {s : Alphabet α} {x : Label α} :
    x ∈ s.labels ↔ ∀ a, x = .literal a → a ∈ s := by
  cases x <;> simp [labels]

/-- All words of one length, the first symbol being the most significant. -/
def words (s : Alphabet α) : Nat → List (List α)
  | 0 => [[]]
  | n + 1 => s.symbols.flatMap fun a => (s.words n).map (a :: ·)

variable [DecidableEq α]

instance (a : α) (s : Alphabet α) : Decidable (a ∈ s) :=
  inferInstanceAs (Decidable (a ∈ s.symbols))

/-- Appends a symbol unless it is there already. -/
def insert (s : Alphabet α) (a : α) : Alphabet α :=
  if h : a ∈ s then s
  else ⟨s.symbols ++ [a], List.nodup_append.2
    ⟨s.nodup, List.nodup_cons.2 ⟨List.not_mem_nil, .nil⟩, by
      intro b hb c hc hbc
      rw [List.mem_singleton] at hc
      exact h (hc ▸ hbc ▸ hb)⟩⟩

@[simp] theorem mem_insert {a b : α} {s : Alphabet α} : b ∈ s.insert a ↔ b ∈ s ∨ b = a := by
  unfold insert
  split
  · next h => exact ⟨.inl, fun hb => hb.elim id fun e => e ▸ h⟩
  · change b ∈ s.symbols ++ [a] ↔ _
    simp

/-- The symbols of a list in the order of their first occurrences. -/
def ofList (l : List α) : Alphabet α := l.foldl insert ∅

@[simp] theorem mem_ofList {a : α} {l : List α} : a ∈ ofList l ↔ a ∈ l := by
  have key : ∀ s : Alphabet α, a ∈ l.foldl insert s ↔ a ∈ s ∨ a ∈ l := by
    induction l with
    | nil => simp
    | cons b l ih => intro s; simp [ih, or_assoc]
  simpa [ofList] using key ∅

/-- The same set of symbols: equally many, and the ones all among the others. -/
def sameSymbols (s t : Alphabet α) : Bool := s.size == t.size && s.symbols.all (· ∈ t)

end Alphabet
end FiniteAutomata
