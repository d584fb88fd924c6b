/-
What a story's tree keeps of its tokens.

A tree holds the tokens it was read from, in their order. What it leaves out
is layout and punctuation: its own nesting says the same. Nothing else gets
lost, and reading goes on up to the end of the story.
-/
import StoryLang.Proofs.Token.Literal
import StoryLang.Proofs.Tree.Reading.Statement
import StoryLang.Token.Scan

namespace StoryLang

/-- The kinds of tokens that a tree may leave out: layout, and the marks that
separate and enclose. -/
def TokenKind.isSpare : TokenKind → Bool
  | .newline | .indent | .dedent => true
  | .symbol .comma | .symbol .colon => true
  | .symbol .leftParen | .symbol .rightParen => true
  | .symbol .leftBracket | .symbol .rightBracket => true
  | _ => false

/-- The tokens `us` are the tokens `ts` without some that can be spared. -/
inductive Spares : (us ts : List Token) → Prop where
  | nil : Spares [] []
  | keep (t : Token) {us ts : List Token} (rest : Spares us ts) : Spares (t :: us) (t :: ts)
  | drop {t : Token} {us ts : List Token} (spare : t.kind.isSpare = true) (rest : Spares us ts) :
    Spares us (t :: ts)

namespace Spares

variable {us ts us' ts' : List Token}

theorem refl : ∀ ts : List Token, Spares ts ts
  | [] => .nil
  | t :: ts => .keep t (refl ts)

theorem append (h : Spares us ts) (h' : Spares us' ts') : Spares (us ++ us') (ts ++ ts') := by
  induction h with
  | nil => exact h'
  | keep t _ ih => exact .keep t ih
  | drop spare _ ih => exact .drop spare ih

/-- A token between two runs is left out. -/
theorem between {t : Token} (h : Spares us ts) (spare : t.kind.isSpare = true)
    (h' : Spares us' ts') : Spares (us ++ us') (ts ++ t :: ts') :=
  h.append (.drop spare h')

/-- A token behind a run is left out. -/
theorem ended {t : Token} (h : Spares us ts) (spare : t.kind.isSpare = true) :
    Spares us (ts ++ [t]) := by
  simpa using h.between spare .nil

theorem sublist (h : Spares us ts) : us.Sublist ts := by
  induction h with
  | nil => exact .slnil
  | keep _ _ ih => exact ih.cons_cons _
  | drop _ _ ih => exact ih.cons _

/-- Of the tokens that cannot be spared, none is lost. -/
theorem filter_eq (h : Spares us ts) {p : Token → Bool}
    (hp : ∀ t, p t = true → t.kind.isSpare = false) : us.filter p = ts.filter p := by
  induction h with
  | nil => rfl
  | keep t _ ih => simp only [List.filter_cons, ih]
  | @drop t _ _ spare _ ih =>
    have hf : ¬ p t = true := fun h => by simp [hp t h] at spare
    rw [List.filter_cons_of_neg hf, ih]

end Spares

/-- The trees of a phrase spare some of the tokens it is derived from. -/
theorem Derives.spares {g : Grammar} {p : Phrase} {ts : List Token} {trees : List Tree}
    (h : Derives g p ts trees) : Spares (Tree.yieldAll trees) ts := by
  induction h
  all_goals simp only [Tree.yield, Tree.yieldAll, Tree.yieldAll_append, List.append_nil,
    List.nil_append, List.cons_append, List.append_assoc] at *
  -- a mark at the end that is left out
  case typeParts w _ _ _ _ _ opens _ closes ih =>
    exact .keep w (.drop (by rw [opens]; rfl) (ih.ended (by rw [closes]; rfl)))
  case parentheses opens _ closes ih =>
    exact .drop (by rw [opens]; rfl) (ih.ended (by rw [closes]; rfl))
  case body opens _ closes ih =>
    exact .drop (by rw [opens]; rfl) (ih.ended (by rw [closes]; rfl))
  case assignment sign _ _ _ _ _ _ ends ih ih' =>
    exact ih.append (.keep sign (ih'.ended (by rw [ends]; rfl)))
  case call ends ih => exact ih.ended (by rw [ends]; rfl)
  case valueAlone ends ih => exact ih.ended (by rw [ends]; rfl)
  case returnValue word _ _ _ _ _ ends ih => exact .keep word (ih.ended (by rw [ends]; rfl))
  case throwValue word _ _ _ _ _ ends ih => exact .keep word (ih.ended (by rw [ends]; rfl))
  -- everywhere else the tokens are kept, or left out between two runs
  all_goals grind [Spares.nil, Spares.keep, Spares.drop, Spares.append, TokenKind.isSpare]

/-- The end of a story is in no phrase. -/
theorem Derives.noEnd {g : Grammar} (hg : g.KeepsLayout) {p : Phrase} {ts : List Token}
    {trees : List Tree} (h : Derives g p ts trees) : ∀ u ∈ ts, u.kind ≠ .eof := by
  intro u hu hk
  have hs := h.spares.filter_eq (p := fun t => t.kind = .eof) (by simp +contextual [TokenKind.isSpare])
  have hmem : u ∈ (Tree.yieldAll trees).filter (fun t => t.kind = .eof) := by
    simp [hs, hu, hk]
  have hflat := h.yield_flat hg u (List.mem_filter.1 hmem).1
  simp [hk, TokenKind.isLayout] at hflat

namespace Read

variable {g : Grammar}

/-- Statements are read up to the end of the story. -/
theorem storyStatements_end {stmt : Read Tree} : ∀ {n : Nat} {c c' : Cursor} {trees : List Tree},
    storyStatements stmt n c = .ok (trees, c') → c'.current.kind = .eof
  | 0, _, _, _, h => by simp [storyStatements, tooManySteps, fail_apply] at h
  | n + 1, c, c', trees, h => by
    by_cases hk : c.current.kind = .eof
    · simp [storyStatements, bind_apply, isAt_apply, hk, pure_apply] at h
      exact h.2 ▸ hk
    · simp only [storyStatements, bind_apply, isAt_apply, hk, decide_false, Bool.false_eq_true,
        if_false] at h
      split at h
      · split at h
        · rename_i hrest
          obtain ⟨-, rfl⟩ := Prod.mk.inj (Except.ok.inj h)
          exact storyStatements_end hrest
        · cases h
      · cases h

theorem story_end {n : Bound} {c c' : Cursor} {t : Tree} (h : story g n c = .ok (t, c')) :
    c'.current.kind = .eof := by
  simp only [story, bind_apply] at h
  split at h
  · rename_i hs
    obtain ⟨-, rfl⟩ := Prod.mk.inj (Except.ok.inj h)
    exact storyStatements_end hs
  · cases h

/-- A value alone is read up to the end of its line. -/
theorem fragment_end {n : Bound} {c c' : Cursor} {t : Tree} (h : fragment g n c = .ok (t, c')) :
    c'.current.kind = .newline ∨ c'.current.kind = .eof := by
  simp only [fragment, bind_apply, isAt_apply] at h
  split at h
  · split at h
    · rename_i hend
      obtain ⟨-, rfl⟩ := Prod.mk.inj (Except.ok.inj h)
      simpa using hend
    · simp [unexpected_apply] at h
  · cases h

end Read

theorem Cursor.mem_missingEnd {tokens : List Token} {u : Token} (h : u ∈ missingEnd tokens) :
    u.kind = .eof := by
  unfold missingEnd at h
  split at h
  · simp_all
  · split at h <;> simp_all

namespace Tree

variable {g : Grammar} {tokens : List Token}

/-- The statements of a story are spelled by all the tokens in front of its end. -/
theorem ofTokens_derives (hg : g.KeepsLayout) {t : Tree} (h : ofTokens g tokens = .ok t) :
    ∃ trees, t = .of .start trees ∧
      Derives g .statements (tokens.takeWhile (·.kind ≠ .eof)) trees := by
  unfold ofTokens at h
  have hs := Read.story_ensures hg tokens
  unfold Read.Ensures at hs
  cases hr : Read.story g (Read.bound tokens) (Cursor.start tokens) with
  | error f => simp [hr, Except.map] at h
  | ok p =>
    obtain ⟨t', c⟩ := p
    rw [hr] at h hs
    obtain rfl : t' = t := by simpa [Except.map] using h
    obtain ⟨used, trees, ht, rfl, hd⟩ := hs
    refine ⟨trees, rfl, ?_⟩
    have hend := Read.story_end hr
    have hfree := hd.noEnd hg
    have hup := ht.upcoming
    rw [Cursor.upcoming_start, Cursor.upcoming] at hup
    -- the end that is met is the first one of the tokens, or one that they miss
    have hall : (tokens ++ Cursor.missingEnd tokens).takeWhile (·.kind ≠ .eof) = used := by
      rw [hup, List.takeWhile_append_of_pos (by simpa using hfree)]
      simp [hend]
    have hmissing : (Cursor.missingEnd tokens).takeWhile (·.kind ≠ .eof) = [] := by
      cases hm : Cursor.missingEnd tokens with
      | nil => rfl
      | cons u us => simp [@Cursor.mem_missingEnd tokens u (by simp [hm])]
    have htake : tokens.takeWhile (·.kind ≠ .eof) = used := by
      rw [← hall, List.takeWhile_append]
      split
      · rename_i hl
        rw [hmissing, List.append_nil]
        exact (List.takeWhile_prefix _).eq_of_length hl
      · rfl
    rwa [htake]

/-- A value alone is spelled by the tokens in front of the end of its line. -/
theorem ofFragment_derives (hg : g.KeepsLayout) {t : Tree} (h : ofFragment g tokens = .ok t) :
    ∃ used last rest, tokens ++ Cursor.missingEnd tokens = used ++ last :: rest ∧
      (last.kind = .newline ∨ last.kind = .eof) ∧ Derives g .anyValue used [t] := by
  unfold ofFragment at h
  have hs := Read.fragment_ensures hg tokens
  unfold Read.Ensures at hs
  cases hr : Read.fragment g (Read.bound tokens) (Cursor.start tokens) with
  | error f => simp [hr, Except.map] at h
  | ok p =>
    obtain ⟨t', c⟩ := p
    rw [hr] at h hs
    obtain rfl : t' = t := by simpa [Except.map] using h
    obtain ⟨used, ht, hd⟩ := hs
    have hup := ht.upcoming
    rw [Cursor.upcoming_start, Cursor.upcoming] at hup
    exact ⟨used, c.current, _, hup, Read.fragment_end hr, hd⟩

/-- A tree that was read has the tokens of its story in their order. It leaves
out only layout and marks that separate or enclose, and of all other kinds it
has every token in front of the end. -/
theorem ofTokens_yield (hg : g.Accepted) {t : Tree} (h : ofTokens g tokens = .ok t) :
    Spares t.yield (tokens.takeWhile (·.kind ≠ .eof)) ∧
    t.yield.Sublist (tokens.takeWhile (·.kind ≠ .eof)) ∧
    ∀ k : TokenKind, k.isSpare = false →
      t.yield.filter (·.kind = k) = (tokens.takeWhile (·.kind ≠ .eof)).filter (·.kind = k) := by
  obtain ⟨trees, rfl, hd⟩ := ofTokens_derives hg.keepsLayout h
  have hs : Spares (Tree.of .start trees).yield _ := hd.spares
  refine ⟨hs, hs.sublist, fun k hk => hs.filter_eq fun u hu => ?_⟩
  rwa [of_decide_eq_true hu]

/-- Commas, colons, brackets, parentheses and a block are left out here, and
so is what stands behind the end. -/
theorem ofTokens_yield_block :
    Grammar.builtIn.Accepted ∧ ∃ tokens t,
      (scan ⟨.builtIn, false⟩ "function f x:list[int]\n    return (x[0])\nf(x:[1, 2])\n".toList).tokens
        = .ok tokens ∧
      ofTokens .builtIn (tokens ++ tokens) = .ok t ∧
      Spares t.yield ((tokens ++ tokens).takeWhile (·.kind ≠ .eof)) ∧
      t.yield.Sublist ((tokens ++ tokens).takeWhile (·.kind ≠ .eof)) ∧
      ∀ k : TokenKind, k.isSpare = false → t.yield.filter (·.kind = k) =
        ((tokens ++ tokens).takeWhile (·.kind ≠ .eof)).filter (·.kind = k) := by
  have hs : ((scan ⟨.builtIn, false⟩
      "function f x:list[int]\n    return (x[0])\nf(x:[1, 2])\n".toList).tokens.toOption.bind
        fun tokens => (ofTokens .builtIn (tokens ++ tokens)).toOption).isSome = true := by
    decide +kernel
  obtain ⟨t, hs⟩ := Option.isSome_iff_exists.1 hs
  obtain ⟨tokens, hts, ht⟩ := Option.bind_eq_some_iff.1 hs
  rw [toOption_eq_some] at hts ht
  exact ⟨.builtIn, tokens, t, hts, ht, ofTokens_yield .builtIn ht⟩

end Tree

end StoryLang
