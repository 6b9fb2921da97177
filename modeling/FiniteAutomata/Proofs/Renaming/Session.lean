import FiniteAutomata.Proofs.Renaming.Construction
import FiniteAutomata.Session.Run

namespace FiniteAutomata
variable {α β : Type}

def View.map (f : α → β) (v : View α) : View β :=
  ⟨v.alphabet.map f, v.states, v.initial, v.finals, v.edges.map (Edge.map f)⟩

namespace Session

def Snapshot.map (f : α → β) (s : Snapshot α) : Snapshot β := ⟨s.content.map f, s.deterministic⟩

/-- The answer with its symbols renamed: those it lists, those on its edges, and those that its
faults name. -/
def Answer.map (f : α → β) : Answer α → Answer β
  | done => done
  | truth b => truth b
  | count n => count n
  | state q => state q
  | name s => name s
  | set s => set s
  | names l => names l
  | symbols l => symbols (l.map f)
  | byLabel l => byLabel (l.map fun e => (e.1.map f, e.2))
  | byState l => byState l
  | edges l => edges (l.map (Edge.map f))
  | verdicts l => verdicts (l.map (mapResult f id))
  | profile l => profile l
  | snapshot s => snapshot (s.map f)

def Outcome.map (f : α → β) : Outcome α → Outcome β
  | answer a => answer (a.map f)
  | fault e => fault (e.map f)
  | unbound => unbound

def Reply.map (f : α → β) (r : Reply α) : Reply β := ⟨r.outcome.map f, r.after.map (Snapshot.map f)⟩

theorem Outcome.ofExcept_map {γ δ : Type} {f : α → β} {g : γ → δ} {k : γ → Answer α}
    {k' : δ → Answer β} (hk : ∀ c, k' (g c) = (k c).map f) (x : Except (Fault α) γ) :
    ofExcept k' (mapResult f g x) = (ofExcept k x).map f := by
  cases x with
  | ok c => exact congrArg answer (hk c)
  | error e => rfl

def Query.map (f : α → β) : Query α → Query β
  | initial => initial
  | finals => finals
  | isFinal q => isFinal q
  | contains q => contains q
  | stateCount => stateCount
  | stateName q => stateName q
  | states => states
  | alphabet => alphabet
  | hasSymbol a => hasSymbol (f a)
  | hasTransition p x q => hasTransition p (x.map f) q
  | hasAnyTransition p q => hasAnyTransition p q
  | delta q x => delta q (x.map f)
  | transitionsFrom q => transitionsFrom q
  | transitionsOn x => transitionsOn (x.map f)
  | transitions => transitions
  | isDeterministic => isDeterministic
  | closure s => closure s
  | closureOf q => closureOf q
  | moveOn s a => moveOn s (f a)
  | run w => run (w.map f)
  | accepts w => accepts (w.map f)
  | acceptsMany ws => acceptsMany (ws.map (List.map f))
  | language bound => language bound
  | dump => dump

def Change.map (f : α → β) : Change α → Change β
  | edit op => edit (op.map f)
  | addStates count => addStates count
  | chain first count x => chain first count (x.map f)

variable (f : α ↪ β)

/-- The recipe with its symbols renamed. An automaton that was made elsewhere is renamed too. -/
def Recipe.map : Recipe α → Recipe β
  | empty alphabet => empty (alphabet.map f)
  | word alphabet w => word (alphabet.map f) (w.map f)
  | copy source => copy source
  | concat first second => concat first second
  | union first second => union first second
  | star source => star source
  | toDfa source => toDfa source
  | determinize source limit => determinize source limit
  | given made => given (mapResult f (Automaton.map f) made)

def Product.map (p : Product α) : Product β := ⟨p.automaton.map f, p.answer.map f⟩

def Command.map : Command α → Command β
  | build target r => build target (r.map f)
  | change target c => change target (c.map f)
  | query target q => query target (q.map f)

def Workspace.map (w : Workspace α) : Workspace β := ⟨w.bindings.map fun b => (b.1, b.2.map f)⟩

variable (w : Workspace α) (m : Automaton α)

theorem find?_map (name : String) :
    (w.map f).find? name = (w.find? name).map (Automaton.map f) := by
  simp only [Workspace.find?, Workspace.map]
  induction w.bindings with
  | nil => rfl
  | cons b l ih =>
    rw [List.map_cons, List.lookup_cons, List.lookup_cons, ih]
    cases name == b.1 <;> rfl

theorem bind_map (name : String) : (w.map f).bind name (m.map f) = (w.bind name m).map f := by
  simp [Workspace.bind, Workspace.map, List.filter_map, Function.comp_def]

variable [DecidableEq α] [DecidableEq β]

theorem inOrder_map (t : Transitions α) (s : Alphabet α) :
    (t.map f).inOrder (s.map f) = (t.inOrder s).map fun e => (e.1.map f, e.2) := by
  simp [Transitions.inOrder, Alphabet.labels_map, List.filterMap_map, List.map_filterMap,
    Function.comp_def]

theorem edgesInOrder_map : (m.map f).edgesInOrder = m.edgesInOrder.map (Edge.map f) := by
  simp [Automaton.edgesInOrder, State.map, Edge.map, inOrder_map, List.flatMap_map,
    List.map_flatMap, Function.comp_def]

theorem take_map : Snapshot.take (m.map f) = (Snapshot.take m).map f := by
  simp [Snapshot.take, Snapshot.map, Automaton.view, View.map, edgesInOrder_map]

theorem snapshotIf_map (traced : Bool) :
    snapshotIf traced (m.map f) = (snapshotIf traced m).map (Snapshot.map f) := by
  cases traced with
  | false => rfl
  | true => exact congrArg some (take_map f m)

theorem ask_map (q : Query α) : (q.map f).ask (m.map f) = (q.ask m).map f := by
  cases q with
  -- only the fault of these can name a symbol, the answer holds none
  | delta | transitionsOn | moveOn | run | accepts | language =>
    simp only [Query.map, Query.ask, Automaton.delta_map, Automaton.transitionsOn_map,
      Automaton.moveOn_map, Automaton.run_map, Automaton.accepts_map,
      Automaton.languageProfile_map]
    apply Outcome.ofExcept_map
    intro _
    rfl
  | transitionsFrom q =>
    simp only [Query.map, Query.ask, Automaton.transitionsFrom_map]
    apply Outcome.ofExcept_map
    intro t
    simp [Answer.map, inOrder_map]
  | isFinal q => rfl
  | _ =>
    simp [Query.map, Query.ask, Outcome.map, Answer.map, Automaton.accepts_map, edgesInOrder_map,
      take_map]

omit [DecidableEq α] [DecidableEq β] in
theorem answerTo_map (op : Operation α) :
    answerTo (m.map f) (op.map f) = (answerTo m op).map f := by
  cases op <;> simp [answerTo, Operation.map, Answer.map]

omit [DecidableEq α] [DecidableEq β] in
theorem addStates_map (count : Nat) :
    addStates (m.map f) count = ((addStates m count).1.map f, (addStates m count).2) := by
  induction count with
  | zero => rfl
  | succ n ih =>
    simp only [addStates, List.range_succ, List.foldl_append] at ih ⊢
    rw [ih]
    simp [Automaton.addState_map]

theorem addChain_map (x : Label α) (n : Nat) (p : StateId) :
    addChain (x.map f) n p (m.map f) =
      ((addChain x n p m).1.map f, mapResult f id (addChain x n p m).2) := by
  induction n generalizing p m with
  | zero => rfl
  | succ n ih =>
    rw [addChain, addChain, Automaton.addTransition_map]
    cases m.addTransition p x (p + 1) with
    | error e => rfl
    | ok m' => exact ih m' (p + 1)

theorem apply_map (c : Change α) :
    (c.map f).apply (m.map f) = ((c.apply m).1.map f, (c.apply m).2.map f) := by
  cases c with
  | edit op =>
    simp only [Change.map, Change.apply, Automaton.perform_map]
    cases m.perform op with
    | error e => rfl
    | ok m' => simp [Outcome.map, answerTo_map]
  | addStates count => simp [Change.map, Change.apply, addStates_map, Outcome.map, Answer.map]
  | chain first count x =>
    simp only [Change.map, Change.apply, addChain_map]
    apply congrArg (Prod.mk _)
    apply Outcome.ofExcept_map
    intro _
    rfl

omit [DecidableEq α] [DecidableEq β] in
theorem counted_map : Product.counted (m.map f) = (Product.counted m).map f := by
  simp [Product.counted, Product.map, Answer.map]

omit [DecidableEq α] [DecidableEq β] in
theorem map_counted_map (made : Except (Fault α) (Automaton α)) :
    (mapResult f (Automaton.map f) made).map Product.counted =
      mapResult f (Product.map f) (made.map Product.counted) :=
  mapResult_map (counted_map f)

/-- An operand is missing from the renamed workspace if it is missing from the original one. -/
theorem make_map (r : Recipe α) :
    (r.map f).make (w.map f) = (r.make w).map (mapResult f (Product.map f)) := by
  cases r with
  | empty alphabet =>
    simp [Recipe.map, Recipe.make, Alphabet.ofList_map, Automaton.empty_map, counted_map]
  | word alphabet v =>
    simp [Recipe.map, Recipe.make, Alphabet.ofList_map, Automaton.ofWord_map, map_counted_map]
  | copy source =>
    simp [Recipe.map, Recipe.make, find?_map, counted_map, Function.comp_def]
  | concat first second =>
    simp only [Recipe.map, Recipe.make, find?_map]
    cases w.find? first <;> cases w.find? second <;>
      simp [Automaton.concat_map, map_counted_map]
  | union first second =>
    simp only [Recipe.map, Recipe.make, find?_map]
    cases w.find? first <;> cases w.find? second <;>
      simp [Automaton.union_map, map_counted_map]
  | star source =>
    simp [Recipe.map, Recipe.make, find?_map, Automaton.star_map, map_counted_map,
      Function.comp_def]
  | toDfa source =>
    simp [Recipe.map, Recipe.make, find?_map, Automaton.toDfa_map, map_counted_map,
      Function.comp_def]
  | determinize source limit =>
    simp only [Recipe.map, Recipe.make, find?_map, Option.map_map]
    congr 1
    funext m
    simp only [Function.comp_apply, Automaton.determinize_map]
    exact mapResult_map fun _ => rfl
  | given made => simp [Recipe.map, Recipe.make, map_counted_map]

theorem execute_map (traced : Bool) (c : Command α) : (c.map f).execute traced (w.map f) =
    ((c.execute traced w).1.map f, (c.execute traced w).2.map f) := by
  cases c with
  | build target r =>
    simp only [Command.map, Command.execute, make_map]
    cases r.make w with
    | none => rfl
    | some made =>
      cases made with
      | error e => rfl
      | ok p => simp [Product.map, bind_map, snapshotIf_map, Reply.map, Outcome.map]
  | change target c =>
    simp only [Command.map, Command.execute, find?_map]
    cases w.find? target with
    | none => rfl
    | some m => simp [apply_map, bind_map, snapshotIf_map, Reply.map]
  | query target q =>
    simp only [Command.map, Command.execute, find?_map]
    cases w.find? target with
    | none => rfl
    | some m => simp [ask_map, Reply.map]

theorem run_map (traced : Bool) (cs : List (Command α)) :
    run traced (w.map f) (cs.map (Command.map f)) =
      ((run traced w cs).1.map f, (run traced w cs).2.map (Reply.map f)) := by
  induction cs generalizing w with
  | nil => rfl
  | cons c cs ih => simp only [List.map_cons, run, execute_map, ih]

omit [DecidableEq β] in
/-- However its symbol is called, an edge that reads one is no epsilon edge. -/
theorem closure_after_literal (p q : StateId) (a : α) (s : StateSet) :
    (m.after (.addTransition p (.literal a) q)).closure s = m.closure s := by
  apply Automaton.closure_congr
  intro o
  unfold Automaton.after
  cases h : m.perform (.addTransition p (.literal a) q) with
  | error e => rfl
  | ok m' =>
    ext r
    simp [Automaton.mem_destinations_addTransition h]

/-- No symbol is special: a session with its symbols renamed leads to the renamed automata with the
renamed replies, command by command, and there too no symbol is taken for epsilon. -/
theorem sessions_rename (traced : Bool) (cs : List (Command α)) :
    run traced (w.map f) (cs.map (Command.map f)) =
        ((run traced w cs).1.map f, (run traced w cs).2.map (Reply.map f)) ∧
      ∀ (m : Automaton β) p b q s,
        (m.after (.addTransition p (.literal b) q)).closure s = m.closure s :=
  ⟨run_map f w traced cs, fun m p b q s => closure_after_literal m p q b s⟩

end Session
end FiniteAutomata
