import FiniteAutomata.Proofs.Chain
import FiniteAutomata.Proofs.Expression
import FiniteAutomata.Workload.Assembly

namespace FiniteAutomata.Workload
open Automaton Computability
variable {m : Automaton Char} {a x : Char} {u v w : List Char}
  {before after words : List (List Char)} {k : Nat} {l : Language Char}

/-- A lower-case letter or a binary digit. -/
def IsKeywordSymbol (a : Char) : Prop := 'a' ≤ a ∧ a ≤ 'z' ∨ a = '0' ∨ a = '1'

instance (a : Char) : Decidable (IsKeywordSymbol a) :=
  inferInstanceAs (Decidable ('a' ≤ a ∧ a ≤ 'z' ∨ a = '0' ∨ a = '1'))

theorem mem_keywordAlphabet_iff : a ∈ keywordAlphabet ↔ IsKeywordSymbol a := by
  have hsymbols : "abcdefghijklmnopqrstuvwxyz01".toList =
      (List.range' 97 26).map Char.ofNat ++ ['0', '1'] := by decide
  have hrange : ∀ n ∈ List.range' 97 26, 'a' ≤ Char.ofNat n ∧ Char.ofNat n ≤ 'z' := by decide
  have hletter : a ∈ (List.range' 97 26).map Char.ofNat ↔ 'a' ≤ a ∧ a ≤ 'z' := by
    rw [List.mem_map]
    constructor
    · rintro ⟨n, hn, rfl⟩
      exact hrange n hn
    · intro h
      exact ⟨a.toNat, List.mem_range'_1.2 ⟨h.1, Nat.lt_succ_of_le h.2⟩, Char.ofNat_toNat a⟩
  rw [keywordAlphabet, Alphabet.mem_ofList, hsymbols, List.mem_append, hletter]
  simp [IsKeywordSymbol]

/-- The keywords of a list, in no order. -/
def keywordLanguage (words : List (List Char)) : Language Char := {w | w ∈ words}

theorem mem_keywordLanguage_iff : w ∈ keywordLanguage words ↔ w ∈ words := Iff.rfl

theorem keywordLanguage_nil : keywordLanguage [] = 0 := by
  ext w
  rw [mem_keywordLanguage_iff]
  simp

theorem keywordLanguage_cons (w : List Char) (words : List (List Char)) :
    keywordLanguage (w :: words) = {w} + keywordLanguage words := by
  ext v
  rw [Language.mem_add, mem_keywordLanguage_iff, mem_keywordLanguage_iff, List.mem_cons]
  rfl

theorem exists_keyword (hw : ∀ a ∈ w, a ∈ keywordAlphabet) (fits : w.length + 1 ≤ UInt32.size) :
    ∃ m, keyword w = .ok m ∧ assembleWord keywordAlphabet w = .ok m ∧
      m.Realizes keywordAlphabet.symbols (w.length + 1) {w} := by
  obtain ⟨m, hkeyword, hm⟩ := realizes_ofWord (fun _ => Alphabet.mem_symbols.symm) hw fits
  exact ⟨m, hkeyword, (assembleWord_eq fits).trans hkeyword, hm⟩

theorem union_keyword (hm : m.Realizes keywordAlphabet.symbols k l)
    (hw : ∀ a ∈ w, a ∈ keywordAlphabet) (fits : k + w.length + 3 ≤ UInt32.size) :
    ∃ c, (do m.union (← keyword w)) = .ok c ∧
      (do m.assembleUnion (← assembleWord keywordAlphabet w)) = .ok c ∧
      c.Realizes keywordAlphabet.symbols (k + w.length + 3) (l + {w}) := by
  obtain ⟨b, hkeyword, hword, hb⟩ := exists_keyword hw (by omega)
  obtain ⟨c, hunion, hc⟩ := hm.union hb (by omega)
  have hfits : m.stateCount + b.stateCount + 2 ≤ UInt32.size := by
    rw [hm.stateCount, hb.stateCount]
    omega
  have hcount : k + (w.length + 1) + 2 = k + w.length + 3 := by omega
  rw [hcount] at hc
  refine ⟨c, ?_, ?_, hc⟩
  · rw [hkeyword]
    exact hunion
  · rw [hword, ok_bind, assembleUnion_eq hm.wellFormed hb.wellFormed hfits, hunion]

/-- By induction on the keywords that are left, of which one joins at each step. -/
theorem foldlM_union_keyword (hm : m.Realizes keywordAlphabet.symbols k l)
    (hwords : ∀ w ∈ words, ∀ a ∈ w, a ∈ keywordAlphabet)
    (fits : k + words.flatten.length + 3 * words.length ≤ UInt32.size) :
    ∃ c, words.foldlM (fun m w => do m.union (← keyword w)) m = .ok c ∧
      words.foldlM (fun m w => do m.assembleUnion (← assembleWord keywordAlphabet w)) m = .ok c ∧
      c.Realizes keywordAlphabet.symbols (k + words.flatten.length + 3 * words.length)
        (l + keywordLanguage words) := by
  induction words generalizing m k l with
  | nil =>
    refine ⟨m, rfl, rfl, ?_⟩
    rwa [keywordLanguage_nil, add_zero]
  | cons w words ih =>
    obtain ⟨hw, hwords⟩ := List.forall_mem_cons.1 hwords
    rw [List.flatten_cons, List.length_append, List.length_cons] at fits ⊢
    obtain ⟨b, hunion, hassemble, hb⟩ := union_keyword hm hw (by omega)
    obtain ⟨c, hunions, hassembles, hc⟩ := ih hb hwords (by omega)
    have hcount : k + w.length + 3 + words.flatten.length + 3 * words.length =
        k + (w.length + words.flatten.length) + 3 * (words.length + 1) := by omega
    rw [hcount] at hc
    rw [keywordLanguage_cons, ← add_assoc l]
    refine ⟨c, ?_, ?_, hc⟩
    · rw [List.foldlM_cons, hunion]
      exact hunions
    · rw [List.foldlM_cons, hassemble]
      exact hassembles

/-- The foreign symbol is found when its keyword is made, before that keyword joins. -/
theorem union_keyword_foreign (m : Automaton Char) (hu : ∀ a ∈ u, a ∈ keywordAlphabet)
    (hx : x ∉ keywordAlphabet) (fits : (u ++ x :: v).length < UInt32.size) :
    (do m.union (← keyword (u ++ x :: v))) = .error (.invalidSymbol x) ∧
      (do m.assembleUnion (← assembleWord keywordAlphabet (u ++ x :: v))) =
        .error (.invalidSymbol x) := by
  have hforeign : ofWord keywordAlphabet (u ++ x :: v) = .error (.invalidSymbol x) :=
    ofWord_foreign hu hx fits
  rw [keyword, assembleWord_eq fits, hforeign]
  exact ⟨rfl, rfl⟩

theorem star_keywords (hm : m.Realizes keywordAlphabet.symbols k l) (fits : k + 2 ≤ UInt32.size) :
    ∃ s, m.star = .ok s ∧ m.assembleStar = .ok s ∧
      s.Realizes keywordAlphabet.symbols (k + 2) l∗ := by
  obtain ⟨s, hstar, hs⟩ := hm.star fits
  exact ⟨s, hstar, (assembleStar_eq hm.wellFormed (hm.stateCount ▸ fits)).trans hstar, hs⟩

theorem exists_keywordLoop (hwords : ∀ w ∈ words, ∀ a ∈ w, a ∈ keywordAlphabet)
    (fits : words.flatten.length + 3 * max words.length 1 ≤ UInt32.size) :
    ∃ s, keywordLoop words = .ok s ∧ assembleKeywordLoop words = .ok s ∧
      s.Realizes keywordAlphabet.symbols (words.flatten.length + 3 * max words.length 1)
        (keywordLanguage words)∗ := by
  cases words with
  | nil =>
    obtain ⟨m, hkeyword, hword, hm⟩ := exists_keyword (w := []) (by simp) (by decide)
    obtain ⟨s, hstar, hassemble, hs⟩ := star_keywords hm (by decide)
    have hlanguage : ({[]} : Language Char)∗ = (keywordLanguage [])∗ := by
      rw [keywordLanguage_nil, kstar_zero]
      exact kstar_one
    rw [hlanguage] at hs
    refine ⟨s, ?_, ?_, hs⟩
    · rw [keywordLoop, hkeyword]
      exact hstar
    · rw [assembleKeywordLoop, hword]
      exact hassemble
  | cons first rest =>
    obtain ⟨hfirst, hrest⟩ := List.forall_mem_cons.1 hwords
    rw [List.flatten_cons, List.length_append, List.length_cons,
      Nat.max_eq_left (Nat.le_add_left 1 _)] at fits ⊢
    obtain ⟨m, hkeyword, hword, hm⟩ := exists_keyword hfirst (by omega)
    obtain ⟨c, hunions, hassembles, hc⟩ := foldlM_union_keyword hm hrest (by omega)
    obtain ⟨s, hstar, hassemble, hs⟩ := star_keywords hc (by omega)
    have hcount : first.length + 1 + rest.flatten.length + 3 * rest.length + 2 =
        first.length + rest.flatten.length + 3 * (rest.length + 1) := by omega
    rw [hcount, ← keywordLanguage_cons] at hs
    refine ⟨s, ?_, ?_, hs⟩
    · rw [keywordLoop, oneKeyword, hkeyword, ok_bind, hunions]
      exact hstar
    · rw [assembleKeywordLoop, hword, ok_bind, hassembles]
      exact hassemble

theorem keywordLoop_foreign (hbefore : ∀ w ∈ before, ∀ a ∈ w, a ∈ keywordAlphabet)
    (hu : ∀ a ∈ u, a ∈ keywordAlphabet) (hx : x ∉ keywordAlphabet)
    (fits : (before ++ (u ++ x :: v) :: after).flatten.length +
      3 * max (before ++ (u ++ x :: v) :: after).length 1 ≤ UInt32.size) :
    keywordLoop (before ++ (u ++ x :: v) :: after) = .error (.invalidSymbol x) ∧
      assembleKeywordLoop (before ++ (u ++ x :: v) :: after) = .error (.invalidSymbol x) := by
  simp only [List.flatten_append, List.flatten_cons, List.length_append, List.length_cons] at fits
  have hlength : (u ++ x :: v).length < UInt32.size := by
    rw [List.length_append, List.length_cons]
    omega
  cases before with
  | nil =>
    have hforeign : keyword (u ++ x :: v) = .error (.invalidSymbol x) :=
      ofWord_foreign hu hx hlength
    constructor
    · rw [List.nil_append, keywordLoop, oneKeyword, hforeign]
      rfl
    · rw [List.nil_append, assembleKeywordLoop, assembleWord_foreign hu hx (by omega)]
      rfl
  | cons first before =>
    obtain ⟨hfirst, hbefore⟩ := List.forall_mem_cons.1 hbefore
    rw [List.flatten_cons, List.length_append, List.length_cons] at fits
    obtain ⟨m, hkeyword, hword, hm⟩ := exists_keyword hfirst (by omega)
    obtain ⟨c, hunions, hassembles, -⟩ := foldlM_union_keyword hm hbefore (by omega)
    obtain ⟨hunion, hassemble⟩ := union_keyword_foreign c hu hx hlength
    constructor
    · rw [List.cons_append, keywordLoop, oneKeyword, hkeyword, ok_bind, List.foldlM_append, hunions,
        ok_bind, List.foldlM_cons, hunion]
      rfl
    · rw [List.cons_append, assembleKeywordLoop, hword, ok_bind, List.foldlM_append, hassembles,
        ok_bind, List.foldlM_cons, hassemble]
      rfl

/-- A list of keywords either is over the keyword symbols or has a first foreign one. -/
theorem over_or_foreign_keyword (words : List (List Char)) :
    (∀ w ∈ words, ∀ a ∈ w, a ∈ keywordAlphabet) ∨ ∃ before u x v after,
      words = before ++ (u ++ x :: v) :: after ∧ (∀ w ∈ before, ∀ a ∈ w, a ∈ keywordAlphabet) ∧
        (∀ a ∈ u, a ∈ keywordAlphabet) ∧ x ∉ keywordAlphabet := by
  induction words with
  | nil => exact .inl (by simp)
  | cons w words ih =>
    rcases keywordAlphabet.over_or_foreign w with hw | ⟨u, x, v, rfl, hu, hx⟩
    · rcases ih with hwords | ⟨before, u, x, v, after, rfl, hbefore, hu, hx⟩
      · exact .inl (List.forall_mem_cons.2 ⟨hw, hwords⟩)
      · exact .inr ⟨w :: before, u, x, v, after, rfl, List.forall_mem_cons.2 ⟨hw, hbefore⟩, hu, hx⟩
    · exact .inr ⟨[], u, x, v, words, rfl, by simp, hu, hx⟩

/-- Step by step or by diagrams the same comes out. If all keywords are over the keyword symbols, it
is an automaton that accepts what any keywords make up one after the other. It has one state for
each symbol and three more for each keyword, or three if there is no keyword. Otherwise it is a
fault, with the first foreign symbol of the first keyword that has one. -/
theorem keywordLoop_decides_star (words : List (List Char))
    (fits : words.flatten.length + 3 * max words.length 1 ≤ UInt32.size) :
    assembleKeywordLoop words = keywordLoop words ∧
      ((∀ w ∈ words, ∀ a ∈ w, IsKeywordSymbol a) → ∃ m, keywordLoop words = .ok m ∧
        (∀ a, a ∈ m.alphabet ↔ IsKeywordSymbol a) ∧
        m.stateCount = words.flatten.length + 3 * max words.length 1 ∧
        m.Decides {x | ∃ parts : List (List Char), x = parts.flatten ∧ ∀ w ∈ parts, w ∈ words} ∧
        (words = [] → m.Decides {[]})) ∧
      ∀ before u x v after, words = before ++ (u ++ x :: v) :: after →
        (∀ w ∈ before, ∀ a ∈ w, IsKeywordSymbol a) → (∀ a ∈ u, IsKeywordSymbol a) →
        ¬IsKeywordSymbol x → keywordLoop words = .error (.invalidSymbol x) := by
  simp only [← mem_keywordAlphabet_iff]
  refine ⟨?_, fun hwords => ?_, ?_⟩
  · rcases over_or_foreign_keyword words
      with hwords | ⟨before, u, x, v, after, rfl, hbefore, hu, hx⟩
    · obtain ⟨m, hloop, hassemble, -⟩ := exists_keywordLoop hwords fits
      rw [hassemble, hloop]
    · obtain ⟨hloop, hassemble⟩ := keywordLoop_foreign hbefore hu hx fits
      rw [hassemble, hloop]
  · obtain ⟨m, hloop, -, hm⟩ := exists_keywordLoop hwords fits
    obtain ⟨i, hi⟩ := hm.initial
    have hdecides := decides_language hi
    rw [hm.language] at hdecides
    refine ⟨m, hloop, hm.alphabet, hm.stateCount, hdecides, ?_⟩
    rintro rfl
    rw [keywordLanguage_nil, kstar_zero] at hdecides
    exact hdecides
  · rintro before u x v after rfl hbefore hu hx
    exact (keywordLoop_foreign hbefore hu hx fits).1

/-- One keyword is empty, and one stands twice. -/
def repeatedKeywords : List (List Char) := [['a', 'b'], [], ['1'], ['a', 'b']]

/-- Two keywords have a foreign symbol. -/
def foreignKeywords : List (List Char) := [['a'], ['b', '-', 'c'], ['+']]

theorem keywordLoop_decides_star_of_repeats :
    repeatedKeywords.flatten.length + 3 * max repeatedKeywords.length 1 ≤ UInt32.size ∧
      foreignKeywords.flatten.length + 3 * max foreignKeywords.length 1 ≤ UInt32.size ∧
      keywordLoop foreignKeywords = .error (.invalidSymbol '-') ∧
      ∃ m, keywordLoop repeatedKeywords = .ok m ∧ m.stateCount = 17 ∧
        m.accepts ['a', 'b', '1', 'a', 'b'] = .ok true ∧ m.accepts ['a'] = .ok false := by
  have fits : repeatedKeywords.flatten.length + 3 * max repeatedKeywords.length 1 ≤ UInt32.size :=
    by decide
  have fits' : foreignKeywords.flatten.length + 3 * max foreignKeywords.length 1 ≤ UInt32.size :=
    by decide
  obtain ⟨-, hok, -⟩ := keywordLoop_decides_star repeatedKeywords fits
  obtain ⟨-, -, hforeign⟩ := keywordLoop_decides_star foreignKeywords fits'
  obtain ⟨m, hm, halphabet, hcount, hdecides, -⟩ :=
    hok (by simp [repeatedKeywords, IsKeywordSymbol])
  have hover : ∀ {w : List Char}, (∀ a ∈ w, IsKeywordSymbol a) → ∀ a ∈ w, a ∈ m.alphabet :=
    fun hw a ha => (halphabet a).2 (hw a ha)
  have hyes := (hdecides ['a', 'b', '1', 'a', 'b'] (hover (by simp [IsKeywordSymbol]))).1
  have hno := (hdecides ['a'] (hover (by simp [IsKeywordSymbol]))).2
  refine ⟨fits, fits', hforeign [['a']] ['b'] '-' ['c'] [['+']] rfl (by simp [IsKeywordSymbol])
    (by simp [IsKeywordSymbol]) (by decide), m, hm, hcount, hyes ?_, hno ?_⟩
  · exact ⟨[['a', 'b'], ['1'], ['a', 'b']], rfl, by decide⟩
  · -- a keyword that has the one letter has the other one too
    rintro ⟨parts, hparts, hwords⟩
    have hboth : ∀ w ∈ repeatedKeywords, 'a' ∈ w → 'b' ∈ w := by decide
    obtain ⟨w, hw, ha⟩ := List.mem_flatten.1 (hparts ▸ List.mem_singleton.2 rfl)
    have hb : 'b' ∈ parts.flatten := List.mem_flatten.2 ⟨w, hw, hboth w (hwords w hw) ha⟩
    rw [← hparts] at hb
    exact absurd hb (by decide)

end FiniteAutomata.Workload
