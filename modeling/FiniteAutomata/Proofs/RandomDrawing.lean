import FiniteAutomata.Proofs.DiagramGrowth
import FiniteAutomata.Proofs.NthFromEnd
import FiniteAutomata.Workload.RandomAssembly

/-! `Makes` says that a computation draws what another one draws and then makes something of it
without a fault. The loops are taken round by round: what a round draws goes to the end of what was
drawn before, and the diagram of that is what has been built so far. -/
namespace FiniteAutomata

namespace Workload
open Automaton
variable {σ β β' γ γ' : Type} {source : DrawSource σ} {out : Automaton Char} {p q : StateId}
  {count k n : Nat} {x : StateM σ β} {P : β → Prop} {Q : β' → Prop}

/-- Whatever the source is at, what is drawn has the property. -/
def Always (x : StateM σ β) (P : β → Prop) : Prop := ∀ s, P (x.run s).1

theorem always_pure {b : β} (h : P b) : Always (pure b : StateM σ β) P := fun _ => h

theorem Always.bind {x' : β → StateM σ β'} (h : Always x P) (h' : ∀ b, P b → Always (x' b) Q) :
    Always (x >>= x') Q :=
  fun s => h' _ (h s) _

theorem Always.imp {P' : β → Prop} (h : Always x P) (h' : ∀ b, P b → P' b) : Always x P' :=
  fun s => h' _ (h s)

theorem always_true (x : StateM σ β) : Always x fun _ => True := fun _ => trivial

/-- One draw for each number below `n`, in this order. -/
theorem always_mapM_range {x : Nat → StateM σ β} {R : Nat → β → Prop}
    (h : ∀ k < n, Always (x k) (R k)) : Always ((List.range n).mapM x) fun drawn =>
      drawn.length = n ∧ ∀ k b, drawn[k]? = some b → R k b := by
  induction n with
  | zero => exact always_pure ⟨rfl, fun k b hb => nomatch hb⟩
  | succ n ih =>
    rw [List.range_succ, List.mapM_append]
    simp only [List.mapM_cons, List.mapM_nil, pure_bind, bind_assoc]
    refine (ih fun k hk => h k (by omega)).bind fun drawn hdrawn => ?_
    refine (h n (by omega)).bind fun b hb => always_pure ?_
    obtain ⟨rfl, hdrawn⟩ := hdrawn
    refine ⟨List.length_append, fun k b' hb' => ?_⟩
    rw [List.getElem?_append] at hb'
    split_ifs at hb' with hlt
    · exact hdrawn k b' hb'
    · rw [List.getElem?_singleton] at hb'
      split_ifs at hb' with hzero
      obtain rfl := Option.some.inj hb'
      rwa [show k = drawn.length by omega]

theorem always_mapM_range_forall {x : Nat → StateM σ β} (h : ∀ k < n, Always (x k) P) :
    Always ((List.range n).mapM x) fun drawn => drawn.length = n ∧ ∀ b ∈ drawn, P b := by
  refine (always_mapM_range (R := fun _ => P) h).imp fun drawn hdrawn => ⟨hdrawn.1, fun b hb => ?_⟩
  obtain ⟨k, hk⟩ := List.mem_iff_getElem?.1 hb
  exact hdrawn.2 k b hk

theorem always_below (hcount : 0 < count) : Always (source.below count) (· < count) :=
  fun s => source.below_lt count s hcount

theorem always_drawDigit (source : DrawSource σ) : Always (drawDigit source) (· ∈ binary) := by
  refine (always_true (source.below 2)).bind fun k _ => always_pure ?_
  rw [mem_binary_iff]
  split_ifs <;> simp

/-- The computation does not fault: it draws what `x` draws, and makes `g` of that. -/
def Makes (y : Drawing σ γ) (x : StateM σ β) (g : β → γ) : Prop :=
  ∀ s, y.run.run s = (.ok (g (x.run s).1), (x.run s).2)

theorem makes_lift (x : StateM σ β) : Makes (liftM x) x id := fun _ => rfl

theorem makes_ok {y : Except (Fault Char) γ} {b : β} {g : β → γ} (h : y = .ok (g b)) :
    Makes (liftM y : Drawing σ γ) (pure b) g := by
  subst h
  exact fun s => rfl

theorem makes_pure (b : β) (g : β → γ) : Makes (pure (g b) : Drawing σ γ) (pure b) g := fun _ => rfl

/-- One computation after the other, where the second has to do only with what can be drawn. -/
theorem Makes.bind {y : Drawing σ γ} {g : β → γ} {y' : γ → Drawing σ γ'}
    {x' : β → StateM σ β'} {g' : β' → γ'} (h : Makes y x g) (hx : Always x P)
    (h' : ∀ b, P b → Makes (y' (g b)) (x' b) g') : Makes (y >>= y') (x >>= x') g' := by
  intro s
  have hsecond := h' _ (hx s) (x.run s).2
  rw [ExceptT.run_bind, StateT.run_bind, h s]
  exact hsecond

theorem Makes.map {y : Drawing σ γ} {f : β → β'} {g : β' → γ}
    (h : Makes y x fun b => g (f b)) : Makes y (do return f (← x)) g := h

/-- A loop that draws in each round, and makes something of all that has been drawn so far. -/
theorem makes_foldlM_range {x : Nat → StateM σ β} {y : γ → Nat → Drawing σ γ} {g : List β → γ}
    (hround : ∀ k < n, ∀ drawn : List β, drawn.length = k →
      Makes (y (g drawn) k) (x k) fun b => g (drawn ++ [b])) :
    Makes ((List.range n).foldlM y (g [])) ((List.range n).mapM x) g := by
  induction n with
  | zero => exact fun s => rfl
  | succ n ih =>
    have hbefore := ih fun k hk => hround k (by omega)
    have hdrawn := always_mapM_range_forall fun k (_ : k < n) => always_true (x k)
    rw [List.range_succ, List.foldlM_append, List.mapM_append]
    refine hbefore.bind hdrawn fun drawn hdrawn => ?_
    simp only [List.foldlM_cons, List.foldlM_nil, bind_pure, List.mapM_cons, List.mapM_nil,
      pure_bind, bind_assoc]
    exact (hround n (by omega) drawn hdrawn.1).map

/-- The states that have been drawn so far. -/
def randomStates (nodes : List Node) : Automaton Char :=
  Diagram.automaton ⟨binary, nodes, if nodes.length = 0 then none else some 0, []⟩

theorem addState_randomStates (nodes : List Node) (isFinal : Bool) :
    (randomStates nodes).addState (nodes.length == 0) isFinal none =
      randomStates (nodes ++ [⟨none, isFinal⟩]) := by
  cases nodes with
  | nil => rfl
  | cons node nodes =>
    have hnode := Diagram.automaton_addNode
      (d := (⟨binary, node :: nodes, some 0, []⟩ : Diagram Char)) (by simp) ⟨none, isFinal⟩
    exact hnode.symm

theorem makes_addDrawnState (drawn : List Node) :
    Makes (addDrawnState source (randomStates drawn) drawn.length)
      (do return Node.mk none (← source.percent 20))
      fun node => randomStates (drawn ++ [node]) := by
  refine (makes_lift (source.percent 20)).bind (always_true _) fun isFinal _ => ?_
  rw [id, addState_randomStates]
  exact makes_pure _ fun node => randomStates (drawn ++ [node])

/-- A binary automaton with so many states, numbered without gaps. -/
structure Counts (out : Automaton Char) (count : Nat) : Prop where
  alphabet : out.alphabet = binary
  contains_iff : ∀ {q}, out.contains q = true ↔ q.toNat < count

theorem Counts.putEdges (h : Counts out count) (edges : List (Edge Char)) :
    Counts (Diagram.putEdges out edges) count := by
  have hsame := Diagram.sameStates_putEdges out edges
  exact ⟨hsame.alphabet.trans h.alphabet, fun {q} => (hsame.contains q).symm ▸ h.contains_iff⟩

theorem Counts.addTransition_eq (h : Counts out count) {x : Label Char}
    (hx : ∀ a, x = .literal a → a ∈ binary) (hp : p.toNat < count) (hq : q.toNat < count) :
    out.addTransition p x q = .ok (Diagram.putEdges out [⟨p, x, q⟩]) := by
  refine addTransition_eq_ok_iff.2 ⟨checkLabel_eq_ok_iff.2 ?_, h.contains_iff.2 hq,
    h.contains_iff.2 hp, rfl⟩
  rwa [h.alphabet]

theorem makes_addDrawnLiteral (source : DrawSource σ) (h : Counts out count)
    (fits : count ≤ UInt32.size) (hp : p.toNat < count) (drawn : List (Edge Char)) :
    Makes (addDrawnLiteral source count p (Diagram.putEdges out drawn))
      (drawLiteralEdge source count p) fun e => Diagram.putEdges out (drawn ++ [e]) := by
  have hcount : 0 < count := by omega
  refine (makes_lift (source.below count)).bind (always_below hcount) fun q hq => ?_
  refine (makes_lift (drawDigit source)).bind (always_drawDigit source) fun a ha => ?_
  have htarget : (UInt32.ofNat q).toNat < count := by
    rwa [UInt32.toNat_ofNat_of_lt' (hq.trans_le fits)]
  refine makes_ok (g := fun e => Diagram.putEdges out (drawn ++ [e])) ?_
  rw [Diagram.putEdges_append]
  exact (h.putEdges drawn).addTransition_eq (fun b hb => Label.literal.inj hb ▸ ha) hp htarget

theorem drawEdges_eq (source : DrawSource σ) (count : Nat) (p : StateId) :
    drawEdges source count p = do
      let literals ← (List.range 3).mapM fun _ => drawLiteralEdge source count p
      if ← source.percent 15 then
        return literals ++ [Edge.epsilon p (UInt32.ofNat (← source.below count))]
      else
        return literals :=
  rfl

theorem makes_addDrawnEdges (h : Counts out count) (fits : count ≤ UInt32.size)
    (hk : k < count) (drawn : List (List (Edge Char))) :
    Makes (addDrawnEdges source count (Diagram.putEdges out drawn.flatten) k)
      (drawEdges source count (UInt32.ofNat k))
      fun es => Diagram.putEdges out (drawn ++ [es]).flatten := by
  have hp : (UInt32.ofNat k).toNat < count := by
    rwa [UInt32.toNat_ofNat_of_lt' (hk.trans_le fits)]
  have hready := h.putEdges drawn.flatten
  have hliterals := makes_foldlM_range
    (y := fun out _ => addDrawnLiteral source count (UInt32.ofNat k) out)
    (g := Diagram.putEdges (Diagram.putEdges out drawn.flatten)) (n := 3)
    fun _ _ literals _ => makes_addDrawnLiteral source hready fits hp literals
  simp only [List.flatten_append, List.flatten_singleton, Diagram.putEdges_append]
  rw [drawEdges_eq]
  refine hliterals.bind (always_true _) fun literals _ => ?_
  refine (makes_lift (source.percent 15)).bind (always_true _) fun chosen _ => ?_
  cases chosen with
  | false => exact makes_pure literals _
  | true =>
    refine (makes_lift (source.below count)).bind (always_below (by omega)) fun q hq => ?_
    have htarget : (UInt32.ofNat q).toNat < count := by
      rwa [UInt32.toNat_ofNat_of_lt' (hq.trans_le fits)]
    refine makes_ok (g := Diagram.putEdges (Diagram.putEdges out drawn.flatten)) ?_
    rw [Diagram.putEdges_append]
    exact (hready.putEdges literals).addTransition_eq (fun _ hx => nomatch hx) hp htarget

theorem randomCount_le (n : Nat) : randomCount n ≤ UInt32.size :=
  (UInt32.toNat_lt_size _).le

theorem counts_randomStates {nodes : List Node} (fits : nodes.length ≤ UInt32.size) :
    Counts (randomStates nodes) nodes.length :=
  ⟨Diagram.alphabet_automaton _, Diagram.contains_automaton_iff fits⟩

/-- Each of the two loops makes of its draws what the diagram of them holds. -/
theorem makes_assembleDrawn (source : DrawSource σ) (n : Nat) :
    Makes (assembleDrawn source n) (randomDiagram source n) Diagram.automaton := by
  have hstates : Makes _ _ randomStates := makes_foldlM_range (n := randomCount n)
    (y := addDrawnState source) (x := fun _ => do return Node.mk none (← source.percent 20))
    (g := randomStates) fun k _ drawn hdrawn => hdrawn ▸ makes_addDrawnState drawn
  have hnodes := always_mapM_range_forall fun k (_ : k < randomCount n) =>
    always_true (do return Node.mk none (← source.percent 20))
  refine hstates.bind hnodes fun nodes hnodes => ?_
  have hlength : nodes.length = randomCount n := hnodes.1
  have hready : Counts (randomStates nodes) nodes.length :=
    counts_randomStates (hlength.trans_le (randomCount_le n))
  rw [hlength] at hready
  have hedges := makes_foldlM_range (n := randomCount n) (y := addDrawnEdges source (randomCount n))
    (x := fun k => drawEdges source (randomCount n) (UInt32.ofNat k))
    (g := fun drawn => Diagram.putEdges (randomStates nodes) drawn.flatten)
    fun k hk drawn _ => makes_addDrawnEdges hready (randomCount_le n) hk drawn
  have hdiagram (edges : List (List (Edge Char))) :
      Diagram.putEdges (randomStates nodes) edges.flatten =
        Diagram.automaton ⟨binary, nodes, if randomCount n = 0 then none else some 0,
          edges.flatten⟩ := by
    rw [randomStates, Diagram.putEdges_automaton, hlength]
    rfl
  simp only [hdiagram] at hedges
  rw [randomStates, hlength]
  exact hedges.map

end Workload
end FiniteAutomata
