/-
Reading always gets on.

That reading goes forward is so by its single steps (`Walks.goes`). That it
ends, and that no statement, no value and no round of a loop is read without
taking a token, is not: taking the last token leaves a cursor where it is. What
readers ensure says that they take others, and that more steps than there are
tokens left suffice. `Progress` puts both together (`progress`), for any tokens,
and for any grammar that is accepted, whatever keywords it makes operators of.
-/
import StoryLang.Proofs.Tree.Stops
import StoryLang.Proofs.Tree.Walks

namespace StoryLang

open Cursor (completed)

theorem Cursor.among_start (tokens : List Token) : (start tokens).Among (completed tokens) := by
  refine ⟨?_, ?_⟩
  · rw [completed, ← upcoming_start]
    unfold start
    split <;> rfl
  · unfold start
    split <;> exact List.suffix_rfl

namespace Read

variable {α : Type} {g : Grammar} {all tokens : List Token} {c : Cursor}

/-! ## What is asked of reading -/

/-- A round that finds a part takes at least one token. -/
def found : Option Tree → Nat
  | none => 0
  | some _ => 1

/-- The loops inside values and calls are made of their rounds. -/
structure InRounds (g : Grammar) (value : Nat → Read Tree) : Prop where
  arguments : Repeats (fun _ => argument? g value) (argumentList g value)
  /-- A first output is followed by the others. -/
  outputs : ∀ n, (commaSeparated (expectName g) (n + 1) : Read (List Tree)) = do
    let first ← expectName g
    return first :: (← others (expectName g) n)
  others : Repeats (S := Cursor) (fun _ => another? (expectName g)) (others (expectName g))
  links : Repeats (link? g value) (links g value)
  fragments : Repeats (fun _ => fragment? g value) (fragments g value)
  operators : ∀ min n left, climb g value min (n + 1) left = do
    match ← extended? g value min n left with
    | none => return left
    | some extended => climb g value min n extended

/-- What reading comes to at a place in some tokens, with at most `n` more after it. -/
structure ProgressAt (g : Grammar) (all : List Token) (c : Cursor) (n : Nat) : Prop where
  statement : ∀ e, c.Goes g all (fun _ => 1) (statement g (n + 2) e c)
  expression : ∀ min, c.Goes g all (fun _ => 1) (expression g (n + 1) min c)
  /-- A name, such as the first output of a call. -/
  name : c.Goes g all (fun _ => 1) (expectName g c)
  /-- One more argument of a call. -/
  argument : c.Goes g all found (argument? g (Read.expression g n) c)
  /-- One more output of a call. -/
  output : c.Goes g all found (another? (expectName g) c)
  /-- One more link of a chain. -/
  link : ∀ m, c.left ≤ m → c.Goes g all found (link? g (Read.expression g n) m c)
  /-- One more field or index of a path. -/
  fragment : c.Goes g all found (fragment? g (Read.expression g n) c)
  /-- One more operator or cast behind a value. -/
  operator : ∀ m, c.left ≤ m → ∀ min left,
    c.Goes g all found (extended? g (Read.expression g n) min m left c)

/-- Reading some tokens as a story or as a value alone always gets on. -/
structure Progress (g : Grammar) (tokens : List Token) : Prop where
  /-- Any number of steps from the bound on comes to the same: a story is read, or a fault is found
  at one of its tokens. -/
  story : ∀ n, bound tokens ≤ n →
    (story g n (Cursor.start tokens)).map (·.1) = Tree.ofTokens g tokens ∧
    (Cursor.start tokens).Goes g (completed tokens) (fun _ => 0) (story g n (Cursor.start tokens))
  fragment : ∀ n, bound tokens ≤ n →
    (fragment g n (Cursor.start tokens)).map (·.1) = Tree.ofFragment g tokens ∧
    (Cursor.start tokens).Goes g (completed tokens) (fun _ => 1) (fragment g n (Cursor.start tokens))
  /-- Both are made of single steps, and with more steps of the same ones. -/
  walks : ∀ n k, Walks g (Read.story g n) (Read.story g (k + n)) ∧
    Walks g (Read.fragment g n) (Read.fragment g (k + n))
  /-- What is made of single steps goes forward from any place, if it has steps left, and with more
  steps it comes to the same. -/
  forward : ∀ {α : Type} {r r' : Read α}, Walks g r r' → ∀ c, c.Among (completed tokens) →
    r c = .error (.internal .tooManySteps) ∨
      r' c = r c ∧ c.Goes g (completed tokens) (fun _ => 0) (r c)
  places : ∀ c, c.Among (completed tokens) → ∀ n, c.left ≤ n → ProgressAt g (completed tokens) c n
  rounds : ∀ value, InRounds g value
  /-- The statement of a fault starts at a token too. -/
  opening : ∀ start i hs hi expected,
    (Stuck.ofIndex g (completed tokens) start i hs hi expected).first = (completed tokens)[start]

/-! ## Getting on -/

/-- What is ensured of where a reader stops is how far it goes, and more steps change nothing. -/
theorem Walks.goes_ensured {r r' : Read α} {least : α → Nat} (h : Walks g r r') (hc : c.Among all)
    (he : Ensures r c fun a c' => c'.left + least a ≤ c.left) :
    r' c = r c ∧ c.Goes g all least (r c) := by
  unfold Ensures at he
  rcases h.goes hc with hspent | ⟨hsame, hgoes⟩
  · rw [hspent] at he
    exact absurd rfl he.code_ne
  refine ⟨hsame, ?_⟩
  cases hr : r c with
  | error f => rwa [hr] at hgoes
  | ok out =>
    rw [hr] at he hgoes
    -- a token that is no longer left is behind
    have hl := hc.length_eq
    have hl' := hgoes.1.length_eq
    exact ⟨hgoes.1, by omega⟩

section Rounds

variable {value : Nat → Read Tree} {m : Nat} (hv : ∀ min, Reads g .value m single (value min))

include hv

theorem argument?_ensures (hc : c.Ended) (hl : c.left ≤ m) :
    Ensures (argument? g value) c fun o c' => c'.left + found o ≤ c.left := by
  unfold argument?
  dsimp only
  refine ensures_ifAt (fun _ => ensures_expectName fun hn => ensures_expect fun hk => ?_)
    fun _ => ensures_pure (Nat.le_refl _)
  have ht := (hc.takes_next hn.name_ne_eof).next (by simp [hk])
  have hlt := ht.left_lt (by simp)
  refine (hv 0).bind ht.ended (by omega) fun v c₁ ts hts _ => ?_
  refine ensures_ifAt (fun hk' => ensures_take (ensures_pure ?_)) fun _ => ensures_pure ?_
  · exact (ht.trans (hts.next (by simp [hk']))).left_lt (by simp)
  · exact (ht.trans hts).left_lt (by simp)

theorem link?_ensures {n : Nat} (hn : m ≤ n) (hc : c.Ended) (hl : c.left ≤ m) :
    Ensures (link? g value n) c fun o c' => c'.left + found o ≤ c.left := by
  unfold link?
  refine ensures_ifAt (fun hk => ensures_leaf (ensures_expectName fun hn' => ?_))
    fun _ => ensures_pure (Nat.le_refl _)
  have ht := (hc.takes_next (by simp [hk])).next hn'.name_ne_eof
  have hlt := ht.left_lt (by simp)
  refine ensures_arguments hn hv ht.ended (by omega) fun given c' ts hts _ => ensures_pure ?_
  exact (ht.trans hts).left_lt (by simp)

theorem fragment?_ensures (hc : c.Ended) (hl : c.left ≤ m) :
    Ensures (fragment? g value) c fun o c' => c'.left + found o ≤ c.left := by
  unfold fragment?
  refine ensures_ifAt (fun hk => ensures_leaf (ensures_expectName fun hn => ensures_pure ?_))
    fun _ => ensures_ifAt (fun hk => ensures_leaf ?_) fun _ => ensures_pure (Nat.le_refl _)
  · exact ((hc.takes_next (by simp [hk])).next hn.name_ne_eof).left_lt (by simp)
  have ht := hc.takes_next (by simp [hk])
  have hlt := ht.left_lt (by simp)
  refine (hv 0).bind ht.ended (by omega) fun v c₁ ts hts _ => ensures_expect fun hk' => ?_
  exact ensures_pure ((ht.trans (hts.next (by simp [hk']))).left_lt (by simp))

/-- No operator and no cast is written with the end of a story. -/
theorem extended?_ensures (hg : g.KeepsLayout) {n : Nat} (hn : m ≤ n) (min : Nat) (left : Tree)
    (hc : c.Ended) (hl : c.left ≤ m) :
    Ensures (extended? g value min n left) c fun o c' => c'.left + found o ≤ c.left := by
  unfold extended?
  dsimp only
  refine ensures_isAtCast fun b hb => ?_
  split
  · rename_i hcast
    have ht := hc.takes_next (by simp [hb (Bool.and_eq_true_iff.1 hcast).1])
    have hlt := ht.left_lt (by simp)
    refine ensures_leaf ((types_reads hn).bind ht.ended (by omega) fun type c' ts hts _ => ?_)
    exact ensures_pure ((ht.trans hts).left_lt (by simp))
  · refine ensures_kind ?_
    cases ho : g.operators.between? c.current.kind with
    | none => exact ensures_pure (Nat.le_refl _)
    | some operator =>
      dsimp only
      split
      · exact ensures_pure (Nat.le_refl _)
      · have ht := hc.takes_next fun hk => by simp [hk, (hg .eof rfl).1] at ho
        have hlt := ht.left_lt (by simp)
        refine ensures_leaf ((hv _).bind ht.ended (by omega) fun right c' ts hts _ => ?_)
        refine ensures_kind ?_
        split
        · exact ensures_unexpected_bind
        · exact ensures_pure ((ht.trans hts).left_lt (by simp))

end Rounds

theorem another?_ensures (hc : c.Ended) :
    Ensures (another? (expectName g)) c fun o c' => c'.left + found o ≤ c.left := by
  unfold another?
  refine ensures_ifAt (fun hk => ensures_take (ensures_expectName fun hn => ensures_pure ?_))
    fun _ => ensures_pure (Nat.le_refl _)
  exact ((hc.takes_next (by simp [hk])).next hn.name_ne_eof).left_lt (by simp)

theorem progressAt (hg : g.KeepsLayout) {n : Nat} (hc : c.Among all) (hended : c.Ended)
    (hl : c.left ≤ n) : ProgressAt g all c n := by
  have hv : ∀ min, Reads g .value c.left single (expression g n min) :=
    fun min => (expression_reads hg n min).mono hl
  have hvw : ∀ min, Steps Cursor g .story (expression g n min) (expression g (0 + n) min) :=
    expression_steps n
  exact {
    statement e := by
      refine ((statement_steps (k := 0) _ e).walks.goes_ensured hc ?_).2
      exact (statement_reads hg _ e c hended (by omega)).mono
        fun _ _ ⟨_, ht, hd⟩ => ht.left_lt hd.statement_ne_nil
    expression min := by
      refine ((expression_steps (e := .story) (k := 0) _ min).walks.goes_ensured hc ?_).2
      exact (expression_reads hg _ min c hended (by omega)).mono
        fun _ _ ⟨_, ht, hd⟩ => ht.left_lt hd.value_ne_nil
    name := by
      refine ((Steps.expectName (e := .story)).walks.goes_ensured hc ?_).2
      rw [← bind_pure (expectName g)]
      exact ensures_expectName fun hn =>
        ensures_pure ((hended.takes_next hn.name_ne_eof).left_lt (by simp))
    argument := ((argument?_steps hvw).walks.goes_ensured hc (argument?_ensures hv hended (by omega))).2
    output := ((another?_steps (e := .story) .expectName).walks.goes_ensured hc (another?_ensures hended)).2
    link m hm := ((link?_steps (k := 0) hvw m).walks.goes_ensured hc
      (link?_ensures hv hm hended (by omega))).2
    fragment := ((fragment?_steps hvw).walks.goes_ensured hc (fragment?_ensures hv hended (by omega))).2
    operator m hm min left := ((extended?_steps (k := 0) hvw min m left).walks.goes_ensured hc
      (extended?_ensures hv hg hm min left hended (by omega))).2 }

theorem inRounds (g : Grammar) (value : Nat → Read Tree) : InRounds g value where
  arguments := repeats_argumentList
  outputs _ := commaSeparated_succ
  others := repeats_others
  links := repeats_links
  fragments := repeats_fragments
  operators _ _ left := climb_succ left

/-- Reading any tokens always gets on, with every grammar that is accepted. -/
theorem progress (hg : g.Accepted) (tokens : List Token) : Progress g tokens := by
  have hlayout := hg.keepsLayout
  have hstart := Cursor.among_start tokens
  have hstory : Ensures (story g (bound tokens)) (Cursor.start tokens) fun _ c' =>
      c'.left + 0 ≤ (Cursor.start tokens).left :=
    (story_ensures hlayout tokens).mono fun _ _ ⟨_, _, ht, _⟩ => ht.left_le
  have hvalue : Ensures (fragment g (bound tokens)) (Cursor.start tokens) fun _ c' =>
      c'.left + 1 ≤ (Cursor.start tokens).left :=
    (fragment_ensures hlayout tokens).mono fun _ _ ⟨_, ht, hd⟩ => ht.left_lt hd.anyValue_ne_nil
  exact {
    story n hn := by
      obtain ⟨k, rfl⟩ := Nat.exists_eq_add_of_le' hn
      obtain ⟨hsame, hgoes⟩ := (story_steps (k := k) _).walks.goes_ensured hstart hstory
      exact ⟨by rw [hsame, Tree.ofTokens], hsame ▸ hgoes⟩
    fragment n hn := by
      obtain ⟨k, rfl⟩ := Nat.exists_eq_add_of_le' hn
      obtain ⟨hsame, hgoes⟩ := (fragment_steps (e := .story) (k := k) _).walks.goes_ensured hstart hvalue
      exact ⟨by rw [hsame, Tree.ofFragment], hsame ▸ hgoes⟩
    walks n _ := ⟨(story_steps n).walks, (fragment_steps (e := .story) n).walks⟩
    forward h _ hc := h.goes hc
    places _ hc _ hl := progressAt hlayout hc (hc.ended (Cursor.getLast?_completed tokens)) hl
    rounds := inRounds g
    opening _ _ _ _ _ := Stuck.first_ofIndex }

/-- The lines of a small grammar that makes operators of keywords. -/
def wordyLines : List (List Char) :=
  (Keyword.all.map fun k => "keyword ".toList ++ k.name.toList ++ ' ' :: k.name.toList) ++
    ["operator 5 left else", "operator 4 none as then", "unary 7 if", "cast 9"].map String.toList

/-- The grammar of these lines. -/
def wordyGrammar : Grammar :=
  { Grammar.builtIn with
    source := String.ofList (['\n'].intercalate wordyLines)
    operators :=
      ⟨[⟨.keyword .elseWord, 5, .left⟩, ⟨.keyword .asWord, 4, .none⟩, ⟨.keyword .thenWord, 4, .none⟩],
        [⟨.keyword .ifWord, 7, .right⟩]⟩
    reserved := []
    typeNames := [] }

theorem accepted_wordyGrammar : wordyGrammar.Accepted := by
  have hlines : Text.lines wordyGrammar.source.toList = wordyLines := by
    rw [show wordyGrammar.source = String.ofList (['\n'].intercalate wordyLines) from rfl,
      String.toList_ofList]
    decide +kernel
  have hread : (Grammar.empty wordyGrammar.source).readLines 1 wordyLines = .ok wordyGrammar := by
    rfl
  exact .spelled (Grammar.ofSource_ok (hlines ▸ hread) (fun k => by cases k <;> decide) (by decide))

/-- The tokens of `a else if b` with an end in the middle, and none at the end. -/
def wordyTokens : List Token :=
  [⟨.name, "a", ⟨1, 1⟩⟩, ⟨.keyword .elseWord, "else", ⟨1, 3⟩⟩, ⟨.keyword .ifWord, "if", ⟨1, 8⟩⟩,
    ⟨.name, "b", ⟨1, 11⟩⟩, ⟨.eof, "", ⟨1, 12⟩⟩, ⟨.dedent, "", ⟨2, 1⟩⟩]

/-- As a value alone they are one, up to the end in the middle, and as a story they are none. -/
theorem progress_wordy : wordyGrammar.Accepted ∧
    (Tree.ofFragment wordyGrammar wordyTokens).toOption.any (·.isA .binaryExpression) = true ∧
    (Tree.ofTokens wordyGrammar wordyTokens).toOption.isNone = true ∧
    Progress wordyGrammar wordyTokens := by
  refine ⟨accepted_wordyGrammar, ?_, ?_, progress accepted_wordyGrammar wordyTokens⟩
  · decide +kernel
  · decide +kernel

end Read

end StoryLang
