namespace FiniteAutomata

/-- What an edge reads: nothing, or one symbol. -/
inductive Label (α : Type) where
  | epsilon
  | literal (symbol : α)
  deriving DecidableEq, Repr, Inhabited

namespace Label
variable {α β : Type}

def isEpsilon : Label α → Bool
  | epsilon => true
  | literal _ => false

def literal? : Label α → Option α
  | epsilon => none
  | literal a => some a

@[simp] theorem isEpsilon_iff {x : Label α} : x.isEpsilon = true ↔ x = epsilon := by
  cases x <;> simp [isEpsilon]

def map (f : α → β) : Label α → Label β
  | epsilon => epsilon
  | literal a => literal (f a)

end Label
end FiniteAutomata
