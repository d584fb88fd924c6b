/-
The pieces of a string, put next to each other, are the string.

Nothing is lost between two pieces, and a code says where it stands. A run of
text is one piece however often it is cut again, and what a backslash takes
along stays in its piece, so that the characters a string stands for are those
of its pieces one after the other.
-/
import StoryLang.Proofs.Hoist.Code

namespace StoryLang.Pieces

variable {c : Char} {cs raw text source : List Char} {ps before after : List Piece}
  {skip n offset : Nat}

/-! ## Where a code stands -/

/-- A code behind a run of text was there before the text was put in front. -/
theorem addText_cut (h : addText cs ps = before ++ .code source offset :: after) :
    ∃ before', ps = before' ++ .code source offset :: after ∧
      before.flatMap written = cs ++ before'.flatMap written := by
  cases before with
  | nil =>
    unfold addText at h
    split at h <;> simp at h
  | cons p before =>
    match ps with
    | [] => simp [addText] at h
    | .text raw :: ps =>
      obtain ⟨rfl, rfl⟩ := List.cons.inj h
      exact ⟨.text raw :: before, rfl, by simp [written]⟩
    | .code source' offset' :: ps =>
      obtain ⟨rfl, hps⟩ := List.cons.inj h
      exact ⟨before, hps, rfl⟩

/-- In front of a code stand the pieces before it, and its opening brace. -/
theorem splitFrom_cut (h : splitFrom skip n cs = before ++ .code source offset :: after) :
    offset = n + skip + (before.flatMap written).length + 1 := by
  fun_induction splitFrom skip n cs generalizing before
  case case1 => simp at h
  case case2 skip n c cs ih =>
    have := ih h
    omega
  case case3 | case5 =>
    obtain ⟨before', h', -⟩ := addText_cut h
    simp at h'
  case case4 n d ds ih =>
    obtain ⟨before', h', hw⟩ := addText_cut h
    have := ih h'
    rw [hw]
    simp only [List.length_append, List.length_cons, List.length_nil]
    omega
  case case6 n cs code hcode _ ih =>
    cases before with
    | nil =>
      obtain ⟨rfl, rfl⟩ : code = source ∧ n + 1 = offset := by simpa using (List.cons.inj h).1
      simp
    | cons p before =>
      obtain ⟨rfl, hmore⟩ := List.cons.inj h
      have := ih hmore
      simp only [List.flatMap_cons, written, List.length_append, List.length_cons, List.length_nil]
      omega
  case case7 n c cs _ _ ih =>
    obtain ⟨before', h', hw⟩ := addText_cut h
    have := ih h'
    rw [hw]
    simp only [List.length_append, List.length_cons, List.length_nil]
    omega

/-- From a place on the characters of a string are a code, with a brace on either side. -/
structure StandsAt (raw source : List Char) (offset : Nat) : Prop where
  opened : 1 ≤ offset ∧ raw[offset - 1]? = some '{'
  inside : (raw.drop offset).take source.length = source
  closed : raw[offset + source.length]? = some '}'

theorem standsAt_split (h : .code source offset ∈ split raw) : StandsAt raw source offset := by
  obtain ⟨pre, post, rfl, rfl⟩ := mem_split h
  have hinside : (pre ++ '{' :: source ++ '}' :: post).drop (pre.length + 1) =
      source ++ '}' :: post := by
    rw [List.append_assoc, List.drop_append]
    simp
  refine ⟨⟨by omega, by simp⟩, ?_, ?_⟩
  · rw [hinside, List.take_left]
  · rw [← List.getElem?_drop, hinside]
    simp

/-! ## Runs of text -/

theorem text_ne (h : .text raw ∈ splitFrom skip n cs) : raw ≠ [] := by
  -- a run in front of others has the characters that were put in front
  have hadd {front : List Char} {ps : List Piece} (hf : front ≠ [])
      (ih : .text raw ∈ ps → raw ≠ []) (h : .text raw ∈ addText front ps) : raw ≠ [] := by
    obtain rfl | ⟨raw', hm, rfl | rfl⟩ := text_of_addText h
    · exact hf
    · exact List.append_ne_nil_of_left_ne_nil hf _
    · exact ih hm
  fun_induction splitFrom skip n cs
  case case1 => simp at h
  case case2 ih => exact ih h
  case case3 | case5 => exact hadd (List.cons_ne_nil _ _) (by simp) h
  case case4 ih | case7 ih => exact hadd (List.cons_ne_nil _ _) ih h
  case case6 ih => exact ih (by simpa using h)

/-- Without code there is one run of text at most. -/
theorem splitFrom_noCode (h : ∀ p ∈ splitFrom skip n cs, p.isCode = false) :
    splitFrom skip n cs = [] ∨ ∃ raw, splitFrom skip n cs = [.text raw] := by
  have hadd {front : List Char} {ps : List Piece}
      (ih : (∀ p ∈ ps, p.isCode = false) → ps = [] ∨ ∃ raw, ps = [.text raw])
      (h : ∀ p ∈ addText front ps, p.isCode = false) : ∃ raw, addText front ps = [.text raw] := by
    have hps : ∀ p ∈ ps, p.isCode = false := by
      intro p hp
      cases p with
      | text => rfl
      | code source offset => exact h _ (mem_addText.2 hp)
    obtain rfl | ⟨raw, rfl⟩ := ih hps <;> exact ⟨_, rfl⟩
  fun_induction splitFrom skip n cs
  case case1 => exact .inl rfl
  case case2 ih => exact ih h
  case case3 | case5 => exact .inr (hadd (fun _ => .inl rfl) h)
  case case4 ih | case7 ih => exact .inr (hadd ih h)
  case case6 => simp [Piece.isCode] at h

/-- A run of text is not cut again. -/
theorem split_text (h : .text text ∈ split raw) : split text = [.text text] := by
  have hwritten := written_split text
  obtain hs | ⟨raw', hs⟩ := splitFrom_noCode (text_noCode h 0)
  · rw [split, hs] at hwritten
    exact absurd hwritten.symm (text_ne h)
  · rw [split, hs] at hwritten ⊢
    simpa [written] using hwritten

/-! ## Characters that are stood for -/

theorem unescape_cons (hc : c ≠ '\\') (cs : List Char) : unescape (c :: cs) = c :: unescape cs := by
  cases cs with
  | nil => rfl
  | cons d cs => rw [unescape, if_neg hc]

/-- A backslash takes one character along. -/
theorem unescape_pair (d : Char) (cs : List Char) :
    unescape ('\\' :: d :: cs) = unescape ['\\', d] ++ unescape cs := by
  cases h : escape? d <;> simp [unescape, h]

/-- Behind a closing brace no backslash is open. -/
theorem unescape_brace (cs ds : List Char) :
    unescape (cs ++ '}' :: ds) = unescape (cs ++ ['}']) ++ unescape ds := by
  have hplain (ds : List Char) : unescape ('}' :: ds) = '}' :: unescape ds :=
    unescape_cons (by decide) ds
  fun_induction unescape cs
  case case1 => simp [hplain, unescape]
  case case2 c =>
    by_cases hc : c = '\\'
    · subst hc
      exact unescape_pair '}' ds
    · simp [unescape_cons hc, hplain, unescape]
  case case3 d cs _ _ ih | case4 d cs _ ih =>
    simp only [List.cons_append]
    rw [unescape_pair, ih, unescape_pair d (cs ++ ['}']), List.append_assoc]
  case case5 c d cs hc ih =>
    simp only [List.cons_append] at ih ⊢
    rw [unescape_cons hc, ih, unescape_cons hc, List.cons_append]

/-- The characters a piece stands for, a code with its braces. -/
def meant (p : Piece) : List Char := unescape (written p)

theorem meant_addText (h : ∀ raw, unescape (cs ++ raw) = unescape cs ++ unescape raw) :
    (addText cs ps).flatMap meant = unescape cs ++ ps.flatMap meant := by
  unfold addText
  split <;> simp [meant, written, h]

theorem meant_splitFrom (skip n : Nat) (cs : List Char) :
    (splitFrom skip n cs).flatMap meant = unescape (cs.drop skip) := by
  fun_induction splitFrom skip n cs
  case case1 => simp [unescape]
  case case2 ih => exact ih
  case case3 | case5 => simp [addText, meant, written]
  case case4 n d ds ih =>
    rw [meant_addText (unescape_pair d), ih, List.drop_zero, List.drop_zero, ← unescape_pair]
  case case6 n cs code hcode _ ih =>
    obtain ⟨post, rfl⟩ := code?_ok hcode
    have hdrop : (code ++ '}' :: post).drop (code.length + 1) = post := by simp [List.drop_append]
    rw [List.flatMap_cons, ih, hdrop, List.drop_zero, ← List.cons_append, unescape_brace]
    rfl
  case case7 n c cs hc _ ih =>
    have hone (raw : List Char) : unescape ([c] ++ raw) = unescape [c] ++ unescape raw :=
      unescape_cons hc raw
    rw [meant_addText hone, ih, List.drop_zero, List.drop_zero, ← hone]
    rfl

/-- The pieces of a string, code with its braces, are the string; a code stands where it says,
behind what is written of the pieces before it; a run of text has characters and is one piece of
its own; and the string stands for what its pieces stand for. -/
theorem split_lossless (raw : List Char) :
    (split raw).flatMap written = raw ∧
      (∀ before source offset after, split raw = before ++ .code source offset :: after →
        offset = (before.flatMap written).length + 1 ∧ StandsAt raw source offset) ∧
      (∀ text, .text text ∈ split raw → text ≠ [] ∧ split text = [.text text]) ∧
      unescape raw = (split raw).flatMap meant := by
  refine ⟨written_split raw, fun before source offset after h => ⟨?_, ?_⟩,
    fun text h => ⟨text_ne h, split_text h⟩, (meant_splitFrom 0 0 raw).symm⟩
  · have := splitFrom_cut h
    omega
  · exact standsAt_split (by simp [h])

/-- A quoted brace in a code, and behind the code an escaped brace and one that nothing closes. -/
abbrev braced : List Char := ['n', '{', 'a', '[', '"', '}', '"', ']', '}', '\\', '{', 'é', '{']

theorem split_lossless_braced :
    split braced =
        [.text ['n'], .code ['a', '[', '"', '}', '"', ']'] 2, .text ['\\', '{', 'é', '{']] ∧
      StandsAt braced ['a', '[', '"', '}', '"', ']'] 2 ∧
      split ['\\', '{', 'é', '{'] = [.text ['\\', '{', 'é', '{']] := by
  have hs : split braced =
      [.text ['n'], .code ['a', '[', '"', '}', '"', ']'] 2, .text ['\\', '{', 'é', '{']] := by
    decide
  obtain ⟨-, hcode, htext, -⟩ := split_lossless braced
  exact ⟨hs, (hcode [_] _ _ [_] hs).2, (htext _ (by simp [hs])).2⟩

end StoryLang.Pieces
