import FiniteAutomata.Proofs.Closure
import FiniteAutomata.Proofs.Discovery
import FiniteAutomata.Proofs.Renaming.Edit
import FiniteAutomata.Regular
import FiniteAutomata.Subset.Determinize

namespace FiniteAutomata
variable {α β : Type} (f : α ↪ β)

namespace Automaton
variable [DecidableEq α] [DecidableEq β] (m : Automaton α) (s : StateSet) (w : List α)

theorem destinations_literal_map (p : StateId) (a : α) :
    (m.map f).destinations p (.literal (f a)) = m.destinations p (.literal a) :=
  destinations_map f m (x := .literal a)

@[simp] theorem closure_map : (m.map f).closure s = m.closure s :=
  closure_congr (fun _ => destinations_map f m (x := .epsilon)) s

@[simp] theorem closureOf_map (q : StateId) : (m.map f).closureOf q = m.closureOf q :=
  closure_map f m {q}

@[simp] theorem step_map (a : α) : (m.map f).step s (f a) = m.step s a := by
  simp only [step, image, closure_map, destinations_literal_map]

theorem moveOn_map (a : α) : (m.map f).moveOn s (f a) = mapResult f id (m.moveOn s a) := by
  rw [moveOn, checkSymbol_map, step_map]
  exact mapResult_bind fun _ => rfl

theorem runFrom_map : (m.map f).runFrom s (w.map f) = mapResult f id (m.runFrom s w) := by
  induction w generalizing s with
  | nil => rfl
  | cons a w ih =>
    rw [List.map_cons, runFrom, moveOn_map]
    refine mapResult_bind fun t => ?_
    simp only [id]
    split_ifs
    · rfl
    · exact ih t

theorem run_map : (m.map f).run (w.map f) = mapResult f id (m.run w) := by
  rw [run, findInitial_map]
  refine mapResult_bind fun q => ?_
  rw [closureOf_map]
  exact runFrom_map f m _ w

theorem accepts_map : (m.map f).accepts (w.map f) = mapResult f id (m.accepts w) := by
  rw [accepts, run_map]
  exact mapResult_bind fun _ => rfl

theorem languageProfile_map (bound : Nat) :
    (m.map f).languageProfile bound = mapResult f id (m.languageProfile bound) := by
  have hlength : ∀ n, ((m.map f).alphabet.words n).mapM (m.map f).accepts =
      mapResult f id ((m.alphabet.words n).mapM m.accepts) := by
    intro n
    have hword : ∀ w, ((m.map f).accepts ∘ List.map f) w = mapResult f id (m.accepts w) :=
      accepts_map f m
    rw [alphabet_map, Alphabet.words_map, List.mapM_map, mapResult_mapM hword, List.map_id_fun]
  rw [languageProfile, mapResult_mapM hlength, List.map_id_fun]
  rfl

end Automaton

namespace Diagram

def map (f : α ↪ β) (d : Diagram α) : Diagram β :=
  ⟨d.alphabet.map f, d.nodes, d.initial, d.edges.map (Edge.map f)⟩

theorem withNodes_map (alphabet : Alphabet α) (nodes : List Node) :
    withNodes (alphabet.map f) nodes = (withNodes alphabet nodes).map f := by
  have key : ∀ m : Automaton α,
      nodes.foldl (fun m node => m.addState false node.isFinal node.name) (m.map f) =
        (nodes.foldl (fun m node => m.addState false node.isFinal node.name) m).map f := by
    induction nodes with
    | nil => intro m; rfl
    | cons node nodes ih => intro m; simp [Automaton.addState_map, ih]
  rw [withNodes, Automaton.empty_map]
  exact key _

theorem setInitial_map (m : Automaton α) (initial : Option StateId) :
    setInitial (m.map f) initial = mapResult f (Automaton.map f) (setInitial m initial) := by
  cases initial with
  | none => rfl
  | some q => exact m.setInitial_map f

variable [DecidableEq α] [DecidableEq β]

theorem addEdges_map (m : Automaton α) (edges : List (Edge α)) :
    addEdges (m.map f) (edges.map (Edge.map f)) =
      mapResult f (Automaton.map f) (addEdges m edges) := by
  rw [addEdges, List.foldlM_map]
  exact mapResult_foldlM (fun m _ => m.addTransition_map f) m

theorem build_map (d : Diagram α) : (d.map f).build = mapResult f (Automaton.map f) d.build := by
  rw [build, map, withNodes_map, addEdges_map]
  exact mapResult_bind fun m => setInitial_map f m d.initial

end Diagram

namespace Automaton
variable (m a b : Automaton α) (i j : StateId)

@[simp] theorem renumbered_map : (m.map f).renumbered = m.renumbered := by
  funext offset q
  rw [renumbered, renumbered, stateIds_map]

@[simp] theorem nodes_map : (m.map f).nodes = m.nodes := by
  rw [nodes, nodes, states_map]
  rfl

@[simp] theorem innerNodes_map : (m.map f).innerNodes = m.innerNodes := by
  rw [innerNodes, innerNodes, states_map]

theorem copiedEdges_map (offset : Nat) :
    (m.map f).copiedEdges offset = (m.copiedEdges offset).map (Edge.map f) := by
  simp [copiedEdges, transitions_map, Edge.map, Edge.renumber]

theorem wordDiagram_map (alphabet : Alphabet α) (w : List α) :
    wordDiagram (alphabet.map f) (w.map f) = (wordDiagram alphabet w).map f := by
  simp [wordDiagram, Diagram.map, Edge.map, Label.map, List.zipIdx_map, Function.comp_def]

theorem concatDiagram_map :
    (a.map f).concatDiagram (b.map f) i j = (a.concatDiagram b i j).map f := by
  simp [concatDiagram, Diagram.map, copiedEdges_map, Edge.map, Edge.epsilon, Label.map]

theorem unionDiagram_map :
    (a.map f).unionDiagram (b.map f) i j = (a.unionDiagram b i j).map f := by
  simp [unionDiagram, Diagram.map, copiedEdges_map, Edge.map, Edge.epsilon, Label.map,
    Function.comp_def]

theorem starDiagram_map : (a.map f).starDiagram i = (a.starDiagram i).map f := by
  simp [starDiagram, Diagram.map, copiedEdges_map, Edge.map, Edge.epsilon, Label.map,
    List.map_flatMap]

variable [DecidableEq α] [DecidableEq β]

theorem findOperands_map :
    (a.map f).findOperands (b.map f) = mapResult f id (a.findOperands b) := by
  rw [findOperands, findInitial_map, findInitial_map, alphabet_map, alphabet_map,
    Alphabet.sameSymbols_map]
  unfold findOperands
  cases a.alphabet.sameSymbols b.alphabet with
  | false => rfl
  | true => exact mapResult_bind fun _ => mapResult_bind fun _ => rfl

theorem ofWord_map (alphabet : Alphabet α) (w : List α) :
    ofWord (alphabet.map f) (w.map f) = mapResult f (map f) (ofWord alphabet w) := by
  rw [ofWord, wordDiagram_map]
  exact Diagram.build_map f _

theorem concat_map : (a.map f).concat (b.map f) = mapResult f (map f) (a.concat b) := by
  rw [concat, findOperands_map]
  refine mapResult_bind fun ij => ?_
  cases ij with
  | mk i j => simp only [id, concatDiagram_map, Diagram.build_map]

theorem union_map : (a.map f).union (b.map f) = mapResult f (map f) (a.union b) := by
  rw [union, findOperands_map]
  refine mapResult_bind fun ij => ?_
  cases ij with
  | mk i j => simp only [id, unionDiagram_map, Diagram.build_map]

theorem star_map : (a.map f).star = mapResult f (map f) a.star := by
  rw [star, findInitial_map]
  refine mapResult_bind fun i => ?_
  rw [starDiagram_map]
  exact Diagram.build_map f _

end Automaton

def Determinized.map (f : α ↪ β) (d : Determinized α) : Determinized β := ⟨d.dfa.map f, d.subsets⟩

namespace Automaton
variable (limit : Nat) (found : List StateSet) (s : StateSet)

theorem discover_mapResult : discover (α := β) limit found s =
    mapResult f id (discover (α := α) limit found s) := by
  unfold discover
  split_ifs <;> rfl

variable [DecidableEq α] [DecidableEq β] (m : Automaton α)

theorem discoverSteps_map :
    (m.map f).discoverSteps limit found s = mapResult f id (m.discoverSteps limit found s) := by
  have hsteps : (m.map f).alphabet.symbols.map ((m.map f).step s) =
      m.alphabet.symbols.map (m.step s) := by
    simp
  rw [discoverSteps, hsteps]
  exact mapResult_foldlM (discover_mapResult f limit) found

theorem explore_map (next : Nat) :
    (m.map f).explore limit found next = mapResult f id (m.explore limit found next) := by
  -- the induction is on the original exploration; that of the renamed automaton ends for a reason
  -- of its own and is unfolded one expansion at a time
  fun_induction explore m limit found next with
  | case1 found next hnext found' hfound' ih =>
    rw [explore_of_lt hnext, discoverSteps_map, hfound']
    exact ih
  | case2 found next hnext fault hfault =>
    rw [explore_of_lt hnext, discoverSteps_map, hfault]
    rfl
  | case3 found next hnext =>
    rw [explore, dif_neg hnext]
    rfl

theorem reachedSubsets_map :
    (m.map f).reachedSubsets limit = mapResult f id (m.reachedSubsets limit) := by
  rw [reachedSubsets, findInitial_map]
  refine mapResult_bind fun q => ?_
  rw [closureOf_map]
  exact explore_map f limit _ m 0

theorem subsetDiagram_map :
    (m.map f).subsetDiagram found = (m.subsetDiagram found).map f := by
  simp [subsetDiagram, subsetEdges, Diagram.map, Edge.map, Label.map, List.map_flatMap,
    Function.comp_def]

theorem determinize_map :
    (m.map f).determinize limit = mapResult f (Determinized.map f) (m.determinize limit) := by
  rw [determinize, reachedSubsets_map]
  refine mapResult_bind fun found => ?_
  rw [id, subsetDiagram_map, Diagram.build_map]
  exact mapResult_bind fun _ => rfl

theorem toDfa_map : (m.map f).toDfa = mapResult f (map f) m.toDfa := by
  rw [toDfa, determinize_map]
  exact mapResult_bind fun _ => rfl

end Automaton
end FiniteAutomata
