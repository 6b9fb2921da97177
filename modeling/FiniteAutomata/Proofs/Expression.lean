import FiniteAutomata.Expression
import FiniteAutomata.Proofs.Concat
import FiniteAutomata.Proofs.SubsetShape
import FiniteAutomata.Proofs.Star
import FiniteAutomata.Proofs.Union
import FiniteAutomata.Proofs.Word

namespace FiniteAutomata
open Computability
variable {α : Type} [DecidableEq α]

/-- How many subsets the runs of an automaton reach, none if it has no initial state. -/
def Automaton.subsetCount (m : Automaton α) : Nat :=
  match m.reachedSubsets 0 with
  | .ok found => found.length
  | .error _ => 0

namespace Expression

omit [DecidableEq α] in
/-- The words that an expression stands for. -/
def language : Expression α → Language α
  | word _ w => {w}
  | concat e f => e.language * f.language
  | union e f => e.language + f.language
  | star e => e.language∗
  | toDfa e => e.language

omit [DecidableEq α] in
/-- All leaves bring the same set of symbols, and every word is over it. -/
def Over (symbols : List α) : Expression α → Prop
  | word own w => (∀ a, a ∈ own ↔ a ∈ symbols) ∧ ∀ a ∈ w, a ∈ symbols
  | concat e f | union e f => e.Over symbols ∧ f.Over symbols
  | star e | toDfa e => e.Over symbols

/-- The number of states that the automaton of an expression has. -/
def stateCount : Expression α → Nat
  | word _ w => w.length + 1
  | concat e f => e.stateCount + f.stateCount
  | union e f => e.stateCount + f.stateCount + 2
  | star e => e.stateCount + 2
  | toDfa e =>
    match e.build with
    | .ok m => m.subsetCount
    | .error _ => 0

/-- There are numbers for the states of every automaton on the way. -/
def Fits : Expression α → Prop
  | word own w => (word own w).stateCount ≤ UInt32.size
  | concat e f => e.Fits ∧ f.Fits ∧ (concat e f).stateCount ≤ UInt32.size
  | union e f => e.Fits ∧ f.Fits ∧ (union e f).stateCount ≤ UInt32.size
  | star e => e.Fits ∧ (star e).stateCount ≤ UInt32.size
  | toDfa e => e.Fits ∧ (toDfa e).stateCount ≤ UInt32.size

end Expression

namespace Automaton
variable {a b : Automaton α} {symbols w : List α} {k n : Nat} {l l' : Language α}

/-- An automaton over certain symbols that is fit to be an operand, how many states it has, and
which language it accepts. -/
structure Realizes (m : Automaton α) (symbols : List α) (count : Nat) (l : Language α) :
    Prop where
  wellFormed : m.WellFormed
  initial : ∃ i, m.initial = some i
  alphabet : ∀ a, a ∈ m.alphabet ↔ a ∈ symbols
  stateCount : m.stateCount = count
  language : m.language = l

theorem realizes_ofWord {alphabet : Alphabet α} (halphabet : ∀ a, a ∈ alphabet ↔ a ∈ symbols)
    (hw : ∀ a ∈ w, a ∈ symbols) (fits : w.length + 1 ≤ UInt32.size) :
    ∃ m, ofWord alphabet w = .ok m ∧ m.Realizes symbols (w.length + 1) {w} := by
  have hover : ∀ a ∈ w, a ∈ alphabet := fun a ha => (halphabet a).2 (hw a ha)
  obtain ⟨m, hbuild, hd, hm⟩ := (valid_wordDiagram hover fits).build
  have hcount := hd.stateCount_eq (length_word_nodes.trans_le fits)
  refine ⟨m, hbuild, hm, ⟨0, hd.initial⟩, ?_, hcount.trans length_word_nodes,
    language_of_wordDiagram hm hd fits⟩
  rw [hd.alphabet]
  exact halphabet

namespace Realizes

theorem same_symbols (ha : a.Realizes symbols k l) (hb : b.Realizes symbols n l') (x : α) :
    x ∈ a.alphabet ↔ x ∈ b.alphabet :=
  (ha.alphabet x).trans (hb.alphabet x).symm

theorem concat (ha : a.Realizes symbols k l) (hb : b.Realizes symbols n l')
    (fits : k + n ≤ UInt32.size) :
    ∃ c, a.concat b = .ok c ∧ c.Realizes symbols (k + n) (l * l') := by
  obtain ⟨i, hi⟩ := ha.initial
  obtain ⟨j, hj⟩ := hb.initial
  have hab := ha.same_symbols hb
  obtain ⟨hwa, -, halphabet, rfl, rfl⟩ := ha
  obtain ⟨hwb, -, -, rfl, rfl⟩ := hb
  obtain ⟨c, hbuild, hd, hc⟩ := (valid_concatDiagram hwa hwb hi hj hab fits).build
  have hcount := hd.stateCount_eq (length_concat_nodes.trans_le fits)
  refine ⟨c, ?_, hc, ⟨_, hd.initial⟩, ?_, hcount.trans length_concat_nodes,
    language_of_concatDiagram hwa hwb hc hi hj fits hd⟩
  · rw [Automaton.concat, findOperands_eq_ok hi hj hab]
    exact hbuild
  · rw [hd.alphabet]
    exact halphabet

theorem union (ha : a.Realizes symbols k l) (hb : b.Realizes symbols n l')
    (fits : k + n + 2 ≤ UInt32.size) :
    ∃ c, a.union b = .ok c ∧ c.Realizes symbols (k + n + 2) (l + l') := by
  obtain ⟨i, hi⟩ := ha.initial
  obtain ⟨j, hj⟩ := hb.initial
  have hab := ha.same_symbols hb
  obtain ⟨hwa, -, halphabet, rfl, rfl⟩ := ha
  obtain ⟨hwb, -, -, rfl, rfl⟩ := hb
  obtain ⟨c, hbuild, hd, hc⟩ := (valid_unionDiagram hwa hwb hi hj hab fits).build
  have hcount := hd.stateCount_eq (length_union_nodes.trans_le fits)
  refine ⟨c, ?_, hc, ⟨_, hd.initial⟩, ?_, hcount.trans length_union_nodes,
    language_of_unionDiagram hwa hwb fits hc hd hi hj⟩
  · rw [Automaton.union, findOperands_eq_ok hi hj hab]
    exact hbuild
  · rw [hd.alphabet]
    exact halphabet

theorem star (ha : a.Realizes symbols k l) (fits : k + 2 ≤ UInt32.size) :
    ∃ s, a.star = .ok s ∧ s.Realizes symbols (k + 2) l∗ := by
  obtain ⟨i, hi⟩ := ha.initial
  obtain ⟨hwa, -, halphabet, rfl, rfl⟩ := ha
  obtain ⟨s, hbuild, hd, hs⟩ := (valid_starDiagram hwa hi fits).build
  have hcount := hd.stateCount_eq (length_star_nodes.trans_le fits)
  refine ⟨s, ?_, hs, ⟨_, hd.initial⟩, ?_, hcount.trans length_star_nodes,
    language_of_starDiagram hwa hs hi fits hd⟩
  · rw [Automaton.star, findInitial_eq_ok hi]
    exact hbuild
  · rw [hd.alphabet]
    exact halphabet

theorem toDfa (ha : a.Realizes symbols k l) (fits : a.subsetCount ≤ UInt32.size) :
    ∃ d, a.toDfa = .ok d ∧ d.Realizes symbols a.subsetCount l := by
  obtain ⟨i, hi⟩ := ha.initial
  obtain ⟨-, -, halphabet, -, rfl⟩ := ha
  have hcount : ∀ {found}, a.reachedSubsets 0 = .ok found → a.subsetCount = found.length := by
    intro found hfound
    rw [subsetCount, hfound]
  obtain ⟨d, hok, h⟩ := exists_determinize hi fun found hfound => hcount hfound ▸ fits
  obtain ⟨hfound, hbuild⟩ := determinize_eq_ok_iff.1 hok
  refine ⟨d.dfa, toDfa_eq_ok hok, Diagram.wellFormed_build hbuild h.size_le,
    ⟨0, h.depicts.initial⟩, ?_, ?_, h.language_dfa hi⟩
  · rw [h.depicts.alphabet]
    exact halphabet
  · rw [h.stateCount_eq, hcount hfound]

end Realizes
end Automaton

namespace Expression
open Automaton
variable {e : Expression α} {symbols : List α}

/-- By structural induction: each operation finds its operands as it needs them. -/
theorem exists_build (hover : e.Over symbols) (fits : e.Fits) :
    ∃ m, e.build = .ok m ∧ m.Realizes symbols e.stateCount e.language := by
  induction e with
  | word own w =>
    exact realizes_ofWord (fun a => Alphabet.mem_ofList.trans (hover.1 a)) hover.2 fits
  | concat e f ihe ihf =>
    obtain ⟨a, hbuilt, ha⟩ := ihe hover.1 fits.1
    obtain ⟨b, hbuilt', hb⟩ := ihf hover.2 fits.2.1
    rw [build, hbuilt, hbuilt']
    exact ha.concat hb fits.2.2
  | union e f ihe ihf =>
    obtain ⟨a, hbuilt, ha⟩ := ihe hover.1 fits.1
    obtain ⟨b, hbuilt', hb⟩ := ihf hover.2 fits.2.1
    rw [build, hbuilt, hbuilt']
    exact ha.union hb fits.2.2
  | star e ih =>
    obtain ⟨a, hbuilt, ha⟩ := ih hover fits.1
    rw [build, hbuilt]
    exact ha.star fits.2
  | toDfa e ih =>
    obtain ⟨a, hbuilt, ha⟩ := ih hover fits.1
    have hcount : (toDfa e).stateCount = a.subsetCount := by rw [stateCount, hbuilt]
    rw [build, hbuilt, hcount]
    exact ha.toDfa (hcount ▸ fits.2)

/-- The powerset bound on the states that making a part deterministic costs. -/
theorem stateCount_toDfa_le (hover : e.Over symbols) (fits : e.Fits) :
    (toDfa e).stateCount ≤ 2 ^ e.stateCount := by
  obtain ⟨m, hbuilt, hm⟩ := exists_build hover fits
  obtain ⟨i, hi⟩ := hm.initial
  obtain ⟨found, hfound⟩ := exists_reachedSubsets hi
  have hcount : (toDfa e).stateCount = found.length := by
    rw [stateCount, hbuilt]
    simp only [subsetCount, hfound]
  rw [hcount, ← hm.stateCount]
  exact length_reachedSubsets_le hm.wellFormed hi hfound

/-- Every expression over one set of symbols can be carried out, and the automaton accepts a word
over them if and only if the word is one that the expression denotes. -/
theorem build_decides_language (hover : e.Over symbols) (fits : e.Fits) :
    ∃ m, e.build = .ok m ∧ (∀ a, a ∈ m.alphabet ↔ a ∈ symbols) ∧
      m.stateCount = e.stateCount ∧ m.Decides e.language := by
  obtain ⟨m, hbuilt, hm⟩ := exists_build hover fits
  obtain ⟨i, hi⟩ := hm.initial
  refine ⟨m, hbuilt, hm.alphabet, hm.stateCount, ?_⟩
  rw [← hm.language]
  exact decides_language hi

/-- The leaves bring their symbols in different orders, and one of them twice. -/
def alternatives : Expression Bool :=
  concat (star (word [false, true] [true]))
    (union (word [true, false, true] []) (word [true, false] [false]))

/-- A deterministic automaton is an operand like any other. -/
theorem build_decides_language_of_alternatives :
    (star (toDfa alternatives)).Over [true, false] ∧ (star (toDfa alternatives)).Fits ∧
    ∃ m, (star (toDfa alternatives)).build = .ok m ∧
      (∀ a, a ∈ m.alphabet ↔ a ∈ [true, false]) ∧
      m.stateCount = (star (toDfa alternatives)).stateCount ∧
      m.Decides (star (toDfa alternatives)).language := by
  have hover : alternatives.Over [true, false] := by simp [alternatives, Over, or_comm]
  have fits : alternatives.Fits := by simp [alternatives, Fits, stateCount, UInt32.size]
  have hbound := stateCount_toDfa_le hover fits
  have hcount : 2 ^ alternatives.stateCount + 2 ≤ UInt32.size := by decide
  have fits' : (star (toDfa alternatives)).Fits := ⟨⟨fits, by omega⟩, by rw [stateCount]; omega⟩
  exact ⟨hover, fits', build_decides_language hover fits'⟩

end Expression
end FiniteAutomata
