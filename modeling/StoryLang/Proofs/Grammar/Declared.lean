/-
What the lines of a grammar can declare.

An operator is named by its symbol or by the name of its keyword, and its
precedence is a number of one byte, from one on. So every grammar that was read
has operators of that kind only, and so has the built-in one. The precedence of
casts is such a number too, also where no line declares it.

A line of a grammar gives a keyword only a spelling that a name could have
too, and no other line spells keywords. So the scanner reads every spelling of
every keyword as one word.

Since operators are symbols and keywords, layout is no operator. So whatever a
value goes on with, it never goes on over the end of its line or into another
indentation.
-/
import StoryLang.Grammar.BuiltIn
import StoryLang.Proofs.Follows
import StoryLang.Proofs.Text.Number

namespace StoryLang

/-- What a line of a grammar can declare as an operator. -/
structure Operator.Declared (o : Operator) : Prop where
  written : ∃ word, TokenKind.ofOperatorText? word = some o.kind
  positive : 1 ≤ o.precedence
  bounded : o.precedence ≤ Grammar.maxPrecedence

namespace OperatorTable

/-- Every operator of the table is one that a line can declare. -/
def Declared (t : OperatorTable) : Prop := ∀ o ∈ t.between ++ t.before, o.Declared

theorem Declared.addBetween {t t' : OperatorTable} {o : Operator} (h : t.Declared)
    (ho : o.Declared) (ha : t.addBetween? o = some t') : t'.Declared := by
  unfold addBetween? at ha
  split at ha
  · simp at ha
  · obtain rfl := Option.some.inj ha
    simp only [Declared, List.mem_append, List.mem_singleton] at h ⊢
    rintro o' ((hb | rfl) | hb)
    · exact h o' (.inl hb)
    · exact ho
    · exact h o' (.inr hb)

theorem Declared.addBefore {t t' : OperatorTable} {o : Operator} (h : t.Declared)
    (ho : o.Declared) (ha : t.addBefore? o = some t') : t'.Declared := by
  unfold addBefore? at ha
  split at ha
  · simp at ha
  · obtain rfl := Option.some.inj ha
    simp only [Declared, List.mem_append, List.mem_singleton] at h ⊢
    rintro o' (hb | hb | rfl)
    · exact h o' (.inl hb)
    · exact h o' (.inr hb)
    · exact ho

theorem Declared.between {t : OperatorTable} {k : TokenKind} {o : Operator} (h : t.Declared)
    (ho : t.between? k = some o) : o.Declared ∧ o.kind = k :=
  ⟨h o (List.mem_append_left _ (List.mem_of_find?_eq_some ho)),
    of_decide_eq_true (List.find?_some (p := fun o : Operator => decide (o.kind = k)) ho)⟩

theorem Declared.before {t : OperatorTable} {k : TokenKind} {o : Operator} (h : t.Declared)
    (ho : t.before? k = some o) : o.Declared ∧ o.kind = k :=
  ⟨h o (List.mem_append_right _ (List.mem_of_find?_eq_some ho)),
    of_decide_eq_true (List.find?_some (p := fun o : Operator => decide (o.kind = k)) ho)⟩

end OperatorTable

namespace Grammar

theorem operatorKind_ok {word : String} {k : TokenKind} (h : operatorKind word = .ok k) :
    TokenKind.ofOperatorText? word = some k := by
  unfold operatorKind at h
  split at h
  · rename_i hw
    obtain rfl := Except.ok.inj h
    exact hw
  · simp at h

theorem precedence_ok {word : String} {n : Nat} (h : precedence word = .ok n) :
    1 ≤ n ∧ n ≤ maxPrecedence := by
  unfold precedence at h
  split at h
  · rename_i hn
    obtain rfl := Except.ok.inj h
    exact ⟨Nat.succ_pos _, (Text.natural?_eq_some_iff.1 hn).1⟩
  · simp at h

/-- Both grammars differ in their operators only, and these stay declared ones. -/
def Operates (g g' : Grammar) : Prop :=
  ∃ operators, g' = { g with operators } ∧ (g.operators.Declared → operators.Declared)

theorem addBetween_operates {n : Nat} {grouping : Grouping} (hn : 1 ≤ n ∧ n ≤ maxPrecedence)
    {words : List String} : ∀ {g g' : Grammar}, g.addBetween n grouping words = .ok g' → g.Operates g' := by
  induction words with
  | nil =>
    intro g g' h
    obtain rfl := Except.ok.inj h
    exact ⟨_, rfl, id⟩
  | cons word words ih =>
    intro g g' h
    rw [addBetween] at h
    obtain ⟨k, hk, h⟩ := ok_of_bind h
    split at h
    · cases h
    · rename_i t ha
      obtain ⟨operators, rfl, hd⟩ := ih h
      exact ⟨operators, rfl, fun hg => hd (hg.addBetween ⟨⟨word, operatorKind_ok hk⟩, hn.1, hn.2⟩ ha)⟩

theorem addBefore_operates {n : Nat} (hn : 1 ≤ n ∧ n ≤ maxPrecedence)
    {words : List String} : ∀ {g g' : Grammar}, g.addBefore n words = .ok g' → g.Operates g' := by
  induction words with
  | nil =>
    intro g g' h
    obtain rfl := Except.ok.inj h
    exact ⟨_, rfl, id⟩
  | cons word words ih =>
    intro g g' h
    rw [addBefore] at h
    obtain ⟨k, hk, h⟩ := ok_of_bind h
    split at h
    · cases h
    · rename_i t ha
      obtain ⟨operators, rfl, hd⟩ := ih h
      exact ⟨operators, rfl, fun hg => hd (hg.addBefore ⟨⟨word, operatorKind_ok hk⟩, hn.1, hn.2⟩ ha)⟩

theorem declareBetween_operates {g g' : Grammar} {words : List String}
    (h : g.declareBetween words = .ok g') : g.Operates g' := by
  unfold declareBetween at h
  split at h
  · obtain ⟨n, hn, h⟩ := ok_of_bind h
    split at h
    · cases h
    · split at h
      · cases h
      · exact addBetween_operates (precedence_ok hn) h
  · cases h

theorem declareBefore_operates {g g' : Grammar} {words : List String}
    (h : g.declareBefore words = .ok g') : g.Operates g' := by
  unfold declareBefore at h
  split at h
  · obtain ⟨n, hn, h⟩ := ok_of_bind h
    exact addBefore_operates (precedence_ok hn) h
  · cases h

theorem declareCast_only {g g' : Grammar} {words : List String}
    (h : g.declareCast words = .ok g') :
    ∃ castPrecedence, castPrecedence ≤ maxPrecedence ∧ g' = { g with castPrecedence } := by
  unfold declareCast at h
  split at h
  · obtain ⟨n, hn, h⟩ := ok_of_bind h
    exact ⟨n, (precedence_ok hn).2, (Except.ok.inj h).symm⟩
  · cases h

/-- What a line of a grammar does to it. -/
inductive Declares (g : Grammar) : Grammar → Prop where
  | keyword {spelling : String} {k : Keyword} (word : isWord spelling = true) : Declares g
    { g with keywords := (spelling, k) :: g.keywords, spellings := (k, spelling) :: g.spellings }
  | operators {operators : OperatorTable} (declared : g.operators.Declared → operators.Declared) :
    Declares g { g with operators }
  | cast {castPrecedence : Nat} (bounded : castPrecedence ≤ maxPrecedence) :
    Declares g { g with castPrecedence }
  | reserved {words : List String} : Declares g { g with reserved := g.reserved ++ words }
  | types {words : List String} : Declares g { g with typeNames := g.typeNames ++ words }

theorem name_of_ofName? {name : String} {k : Keyword} (h : Keyword.ofName? name = some k) :
    k.name = name :=
  of_decide_eq_true (List.find?_some (p := fun k : Keyword => decide (k.name = name)) h)

/-- What a line that spells a keyword says, and what it needs. -/
theorem declareKeyword_ok {g g' : Grammar} {words : List String}
    (h : g.declareKeyword words = .ok g') : ∃ k spelling, words = [k.name, spelling] ∧
      isWord spelling = true ∧ (∀ k', g.keyword? spelling = some k' → k' = k) ∧
      g' = { g with
        keywords := (spelling, k) :: g.keywords, spellings := (k, spelling) :: g.spellings } := by
  unfold declareKeyword at h
  split at h
  · rename_i name spelling
    split at h
    · simp at h
    · rename_i k hk
      split at h
      · simp at h
      · rename_i hword
        split at h
        · simp at h
        · rename_i hfree
          obtain rfl := Except.ok.inj h
          refine ⟨k, spelling, by rw [name_of_ofName? hk], by simpa using hword, fun k' hk' => ?_, rfl⟩
          simpa [hk'] using hfree
  · simp at h

theorem declares_of_declareKeyword {g g' : Grammar} {words : List String}
    (h : g.declareKeyword words = .ok g') : g.Declares g' := by
  obtain ⟨k, spelling, -, hword, -, rfl⟩ := declareKeyword_ok h
  exact .keyword hword

theorem declares_of_declare {g g' : Grammar} {directive : String} {words : List String}
    (h : g.declare directive words = .ok g') : g.Declares g' := by
  unfold declare at h
  split at h
  · exact declares_of_declareKeyword h
  split at h
  · obtain ⟨_, rfl, declared⟩ := declareBetween_operates h
    exact .operators declared
  split at h
  · obtain ⟨_, rfl, declared⟩ := declareBefore_operates h
    exact .operators declared
  split at h
  · obtain ⟨_, bounded, rfl⟩ := declareCast_only h
    exact .cast bounded
  split at h
  · obtain rfl := Except.ok.inj h
    exact .reserved
  split at h
  · obtain rfl := Except.ok.inj h
    exact .types
  · simp at h

theorem declare_declared {g g' : Grammar} {directive : String} {words : List String}
    (hg : g.operators.Declared) (h : g.declare directive words = .ok g') :
    g'.operators.Declared := by
  cases declares_of_declare h with
  | operators declared => exact declared hg
  | _ => exact hg

/-- What every directive keeps holds of a grammar that was read if it holds of an empty one. -/
theorem readLines_keeps {P : Grammar → Prop}
    (hd : ∀ {g g' : Grammar} {directive : String} {words : List String},
      P g → g.declare directive words = .ok g' → P g') {lines : List (List Char)} :
    ∀ {n : Nat} {g g' : Grammar}, P g → g.readLines n lines = .ok g' → P g' := by
  induction lines with
  | nil =>
    intro n g g' hg h
    obtain rfl := Except.ok.inj h
    exact hg
  | cons line rest ih =>
    intro n g g' hg h
    unfold readLines at h
    split at h
    · exact ih hg h
    · split at h
      · rename_i hk
        exact ih (hd hg hk) h
      · simp at h

theorem declare_castPrecedence_le {g g' : Grammar} {directive : String} {words : List String}
    (hg : g.castPrecedence ≤ maxPrecedence) (h : g.declare directive words = .ok g') :
    g'.castPrecedence ≤ maxPrecedence := by
  cases declares_of_declare h with
  | cast bounded => exact bounded
  | _ => exact hg

/-- A grammar that gets a precedence of casts gets one of one byte, from one on, and nothing else. -/
theorem withCast?_some {g g' : Grammar} (hg : g.castPrecedence ≤ maxPrecedence)
    (h : g.withCast? = some g') : ∃ castPrecedence, 1 ≤ castPrecedence ∧
      castPrecedence ≤ maxPrecedence ∧ g' = { g with castPrecedence } := by
  unfold withCast? at h
  split at h
  · rename_i hc
    exact ⟨g.castPrecedence, Nat.pos_of_ne_zero hc, hg, (Option.some.inj h).symm⟩
  · split at h
    · rename_i hlow
      exact ⟨_, Nat.succ_pos _, hlow, (Option.some.inj h).symm⟩
    · cases h

/-- A grammar that was read comes from its lines, spells every keyword, and casts with a precedence. -/
theorem ofSource_lines {source : String} {g : Grammar} (h : ofSource source = .ok g) :
    ∃ g₀ castPrecedence, (empty source).readLines 1 (Text.lines source.toList) = .ok g₀ ∧
      (∀ k, (g₀.spelling? k).isSome = true) ∧ 1 ≤ castPrecedence ∧
      castPrecedence ≤ maxPrecedence ∧ g = { g₀ with castPrecedence } := by
  obtain ⟨g₀, hr, h⟩ := ok_of_bind h
  split at h
  · cases h
  · rename_i hall
    have hspelled (k : Keyword) : (g₀.spelling? k).isSome = true := by
      simpa [Option.isSome_iff_ne_none] using List.find?_eq_none.1 hall k k.mem_all
    split at h
    · rename_i g₁ hcast
      have hle : g₀.castPrecedence ≤ maxPrecedence :=
        readLines_keeps (P := fun g => g.castPrecedence ≤ maxPrecedence) declare_castPrecedence_le
          (Nat.zero_le _) hr
      obtain ⟨castPrecedence, hc, hmax, rfl⟩ := withCast?_some hle hcast
      exact ⟨g₀, castPrecedence, hr, hspelled, hc, hmax, (Except.ok.inj h).symm⟩
    · cases h

/-- A grammar that was read has declared operators, and casts with a precedence. -/
theorem declared_of_ofSource {source : String} {g : Grammar} (h : ofSource source = .ok g) :
    g.operators.Declared ∧ 1 ≤ g.castPrecedence ∧ g.castPrecedence ≤ maxPrecedence := by
  obtain ⟨g₀, castPrecedence, hr, -, hc, hmax, rfl⟩ := ofSource_lines h
  have hempty : (empty source).operators.Declared := by
    simp [OperatorTable.Declared, empty, OperatorTable.empty]
  have h₀ : g₀.operators.Declared :=
    readLines_keeps (P := fun g => g.operators.Declared) declare_declared hempty hr
  exact ⟨h₀, hc, hmax⟩

theorem declared_builtIn : builtIn.operators.Declared := by
  have hall : ∀ o ∈ builtIn.operators.between ++ builtIn.operators.before,
      TokenKind.ofOperatorText? (builtIn.spelling o.kind) = some o.kind ∧
        1 ≤ o.precedence ∧ o.precedence ≤ maxPrecedence := by
    decide
  exact fun o ho => ⟨⟨_, (hall o ho).1⟩, (hall o ho).2.1, (hall o ho).2.2⟩

/-- The grammars that can be in use. -/
inductive Accepted : Grammar → Prop where
  | builtIn : Accepted .builtIn
  | spelled {source g} (h : ofSource source = .ok g) : Accepted g

theorem Accepted.declared {g : Grammar} (h : g.Accepted) : g.operators.Declared := by
  cases h with
  | builtIn => exact declared_builtIn
  | spelled h => exact (declared_of_ofSource h).1

theorem Accepted.castPrecedence_bounds {g : Grammar} (h : g.Accepted) :
    1 ≤ g.castPrecedence ∧ g.castPrecedence ≤ maxPrecedence := by
  cases h with
  | builtIn => decide
  | spelled h => exact (declared_of_ofSource h).2

end Grammar

end StoryLang

/-! ## Keywords are words -/

namespace StoryLang.Grammar

/-- A word is a letter, or an underscore, and more of these and digits. -/
theorem isWord_cases {s : String} (h : isWord s = true) : ∃ c cs, s.toList = c :: cs ∧
    isWordStart c = true ∧ ∀ d ∈ cs, isWordChar d = true := by
  unfold isWord at h
  split at h
  · cases h
  · rename_i c cs hs
    rw [Bool.and_eq_true, List.all_eq_true] at h
    exact ⟨c, cs, hs, h⟩

/-- Every spelling of a keyword is a word. -/
def SpellsWords (g : Grammar) : Prop := ∀ p ∈ g.keywords, isWord p.1 = true

/-! ## The text of a grammar -/

theorem declare_source {g g' : Grammar} {directive : String} {words : List String}
    (h : g.declare directive words = .ok g') : g'.source = g.source := by
  cases declares_of_declare h <;> rfl

/-- A grammar keeps the text that it is read from. -/
theorem readLines_source {lines : List (List Char)} {n : Nat} {g g' : Grammar}
    (h : g.readLines n lines = .ok g') : g'.source = g.source :=
  readLines_keeps (P := fun g' => g'.source = g.source) (fun hg hd => (declare_source hd).trans hg) rfl h

/-- A text whose lines spell every keyword and give casts a precedence is accepted. -/
theorem ofSource_ok {source : String} {g : Grammar}
    (hr : (empty source).readLines 1 (Text.lines source.toList) = .ok g)
    (hs : ∀ k, (g.spelling? k).isSome = true) (hc : g.castPrecedence ≠ 0) : ofSource source = .ok g := by
  have hall : (Keyword.all.find? fun k => (g.spelling? k).isNone) = none :=
    List.find?_eq_none.2 fun k _ => by simp [Option.isNone_iff_eq_none, ← Option.isSome_iff_ne_none, hs k]
  have hcast : g.withCast? = some g := if_pos hc
  simp only [ofSource, hr, bind, Except.bind, hall, hcast]

/-! ## Spellings -/

theorem SpellsWords.declare {g g' : Grammar} {directive : String} {words : List String}
    (hg : g.SpellsWords) (h : g.declare directive words = .ok g') : g'.SpellsWords := by
  cases declares_of_declare h with
  | keyword word => exact List.forall_mem_cons.2 ⟨word, hg⟩
  | _ => exact hg

theorem spellsWords_of_ofSource {source : String} {g : Grammar} (h : ofSource source = .ok g) :
    g.SpellsWords := by
  obtain ⟨g₀, castPrecedence, hr, -, -, -, rfl⟩ := ofSource_lines h
  have hempty : (empty source).SpellsWords := by simp [SpellsWords, empty]
  have h₀ : g₀.SpellsWords := readLines_keeps (P := SpellsWords) SpellsWords.declare hempty hr
  exact h₀

theorem Accepted.spellsWords {g : Grammar} (h : g.Accepted) : g.SpellsWords := by
  cases h with
  | builtIn =>
    unfold SpellsWords
    decide
  | spelled h => exact spellsWords_of_ofSource h

/-- What is read as a keyword is a word. -/
theorem Accepted.isWord_of_keyword {g : Grammar} (h : g.Accepted) {word : String} {k : Keyword}
    (hk : g.keyword? word = some k) : isWord word = true := by
  obtain ⟨p, hp, -⟩ := Option.map_eq_some_iff.1 hk
  have hword : p.1 = word := by simpa using List.find?_some hp
  exact hword ▸ h.spellsWords p (List.mem_of_find?_eq_some hp)

end StoryLang.Grammar

/-! # Layout is no operator -/

namespace StoryLang

/-- The kinds of tokens that belong to the layout of a text. -/
def TokenKind.isLayout : TokenKind → Bool
  | .newline | .indent | .dedent | .eof => true
  | _ => false

namespace TokenKind

@[simp] theorem isLayout_symbol (s : Symbol) : (symbol s).isLayout = false := rfl

@[simp] theorem isLayout_keyword (k : Keyword) : (keyword k).isLayout = false := rfl

@[simp] theorem isLayout_name : name.isLayout = false := rfl

@[simp] theorem isLayout_int : int.isLayout = false := rfl

@[simp] theorem isLayout_float : float.isLayout = false := rfl

@[simp] theorem isLayout_string : string.isLayout = false := rfl

@[simp] theorem isLayout_newline : newline.isLayout = true := rfl

@[simp] theorem isLayout_indent : indent.isLayout = true := rfl

@[simp] theorem isLayout_dedent : dedent.isLayout = true := rfl

@[simp] theorem isLayout_eof : eof.isLayout = true := rfl

end TokenKind

theorem TokenKind.isLayout_ofOperatorText {word : String} {k : TokenKind}
    (h : ofOperatorText? word = some k) : k.isLayout = false := by
  simp only [ofOperatorText?, Option.or_eq_some_iff, Option.map_eq_some_iff] at h
  rcases h with ⟨s, -, rfl⟩ | ⟨-, w, -, rfl⟩ <;> rfl

namespace Grammar

/-- No operator of the grammar is written with layout. -/
def KeepsLayout (g : Grammar) : Prop :=
  ∀ k : TokenKind, k.isLayout = true →
    g.operators.between? k = none ∧ g.operators.before? k = none

theorem KeepsLayout.of_operators {g : Grammar} (h : g.operators.Declared) : g.KeepsLayout := by
  intro k hk
  have hne : ∀ o : Operator, o.Declared → ¬ o.kind = k := by
    rintro o ⟨⟨word, hw⟩, -⟩ rfl
    simp [TokenKind.isLayout_ofOperatorText hw] at hk
  simp only [OperatorTable.between?, OperatorTable.before?, List.find?_eq_none, decide_eq_true_eq]
  exact ⟨fun o ho => hne o (h o (List.mem_append_left _ ho)),
    fun o ho => hne o (h o (List.mem_append_right _ ho))⟩

theorem KeepsLayout.between {g : Grammar} {k : TokenKind} (hg : g.KeepsLayout)
    (h : (g.operators.between? k).isSome) : k.isLayout = false := by
  cases hk : k.isLayout with
  | false => rfl
  | true => simp [(hg k hk).1] at h

theorem KeepsLayout.before {g : Grammar} {k : TokenKind} (hg : g.KeepsLayout)
    (h : (g.operators.before? k).isSome) : k.isLayout = false := by
  cases hk : k.isLayout with
  | false => rfl
  | true => simp [(hg k hk).2] at h

theorem keepsLayout_builtIn : builtIn.KeepsLayout := .of_operators declared_builtIn

theorem Accepted.keepsLayout {g : Grammar} (h : g.Accepted) : g.KeepsLayout :=
  .of_operators h.declared

end Grammar

end StoryLang
