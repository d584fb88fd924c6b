/-
Where comments and strings are in a text.

The region of a place is what the characters in front of it make of it: code,
a comment or a string. It is found from left to right, one character at a time,
with no tokens, lines or indentation. A scanner that is in front of code is
where the region is code, as long as it has stopped at no fault.
-/
import StoryLang.Proofs.Token.Led
import StoryLang.Proofs.Token.Literal
import StoryLang.Proofs.Token.Reach

namespace StoryLang

/-- What a place of a text belongs to. -/
inductive Region where
  | code
  /-- Code behind a slash, which may open a comment. -/
  | slash
  /-- A comment up to the end of its line. -/
  | line
  /-- A comment up to the mark that closes it. -/
  | block
  /-- The same, behind a star that may belong to the mark. -/
  | star
  /-- A string that such a quote opened, and whether a backslash is in front. -/
  | string (quote : Char) (inside : Quotes.Inside) (escaped : Bool)
  deriving DecidableEq, Repr

/-- Whether a string can start with the character. -/
def ScanMode.opensString (m : ScanMode) (c : Char) : Bool :=
  c = '"' || (c = '\'' && m.singleQuotes)

namespace Region

/-- The region behind a character of code. -/
def ofCode (m : ScanMode) (c : Char) : Region :=
  if c = '/' then .slash
  else if c = '#' then .line
  else if m.opensString c then .string c .text false
  else .code

/-- The region behind a character. A string does not go over the end of its line. -/
def after (m : ScanMode) : Region → Char → Region
  | .code, c => ofCode m c
  | .slash, c => if c = '/' then .line else if c = '*' then .block else ofCode m c
  | .line, c => if c = '\n' then .code else .line
  | .block, c => if c = '*' then .star else .block
  | .star, c => if c = '/' then .code else if c = '*' then .star else .block
  | .string quote inside escaped, c =>
    if c = '\n' then .code
    else if escaped then .string quote inside false
    else
      match inside with
      | .text =>
        if c = quote then .code
        else if c = '\\' then .string quote .text true
        else .string quote (if c = '{' then .code .first 1 false else .text) false
      | .code opened depth quoted =>
        if quoted && c = '\\' then .string quote (.code opened depth true) true
        else .string quote (Quotes.afterCode quote c opened depth quoted) false

/-- The region behind some characters. -/
def behind (m : ScanMode) (r : Region) (cs : List Char) : Region := cs.foldl (after m) r

variable {m : ScanMode} {r : Region} {c : Char} {cs ds : List Char}

@[simp] theorem behind_nil : behind m r [] = r := rfl

theorem behind_cons : behind m r (c :: cs) = behind m (after m r c) cs := rfl

theorem behind_append : behind m r (cs ++ ds) = behind m (behind m r cs) ds := List.foldl_append

/-! ## Code -/

theorem ofCode_eq (hs : c ≠ '/') (hh : c ≠ '#') (hq : m.opensString c = false) :
    ofCode m c = .code := by
  rw [ofCode, if_neg hs, if_neg hh, hq]
  rfl

theorem ofCode_string (h : m.opensString c = true) : ofCode m c = .string c .text false := by
  have hq : c = '"' ∨ c = '\'' := by
    rw [ScanMode.opensString, Bool.or_eq_true, Bool.and_eq_true] at h
    exact h.imp of_decide_eq_true fun h => of_decide_eq_true h.1
  have hs : c ≠ '/' ∧ c ≠ '#' := by
    rcases hq with rfl | rfl <;> decide
  rw [ofCode, if_neg hs.1, if_neg hs.2, if_pos h]

/-- Characters that open no comment and no string keep code. -/
theorem behind_code (h : ∀ c ∈ cs, ofCode m c = .code) : behind m .code cs = .code := by
  induction cs with
  | nil => rfl
  | cons c cs ih =>
    rw [List.forall_mem_cons] at h
    rw [behind_cons, after, h.1, ih h.2]

theorem ofCode_of {p : Char → Bool} (hp : ['/', '#', '"', '\''].any p = false)
    (hc : p c = true) : ofCode m c = .code := by
  have hne : ∀ d ∈ ['/', '#', '"', '\''], c ≠ d := by
    rintro d hd rfl
    exact List.any_eq_false.1 hp c hd hc
  simp only [List.forall_mem_cons] at hne
  exact ofCode_eq hne.1 hne.2.1 (by simp [ScanMode.opensString, hne])

theorem ofCode_gap (h : Spot.isGap c = true) : ofCode m c = .code := ofCode_of (by decide) h

theorem ofCode_wordChar (h : Grammar.isWordChar c = true) : ofCode m c = .code :=
  ofCode_of (by decide) h

theorem ofCode_digit (h : Text.isDigit c = true) : ofCode m c = .code := ofCode_of (by decide) h

/-- A slash that opens no comment is code. -/
theorem behind_slash (hne : cs ≠ []) (hs : cs.head? ≠ some '/') (hb : cs.head? ≠ some '*') :
    behind m .slash cs = behind m .code cs := by
  obtain ⟨c, cs, rfl⟩ := List.exists_cons_of_ne_nil hne
  have hc : after m .slash c = after m .code c := by
    simp only [after, if_neg (show c ≠ '/' by simpa using hs), if_neg (show c ≠ '*' by simpa using hb)]
  rw [behind_cons, behind_cons, hc]

/-! ## Comments -/

theorem behind_inLine (hl : '\n' ∉ cs) : behind m .line cs = .line := by
  induction cs with
  | nil => rfl
  | cons c cs ih =>
    rw [List.mem_cons, not_or] at hl
    rw [behind_cons, after, if_neg (Ne.symm hl.1), ih hl.2]

theorem mem_of_behind_line (h : behind m .line cs = .code) : '\n' ∈ cs :=
  Decidable.byContradiction fun hl => by
    rw [behind_inLine hl] at h
    cases h

open Spot (commentText?)

theorem commentText?_cons (h : ¬ (c = '*' ∧ cs.head? = some '/')) :
    commentText? (c :: cs) = (commentText? cs).map (c :: ·) := by
  rw [Spot.commentText?.eq_def]
  split
  · rename_i he
    cases he
  · rename_i he
    obtain ⟨rfl, rfl⟩ := List.cons.inj he
    exact absurd ⟨rfl, rfl⟩ h
  · rename_i he
    obtain ⟨rfl, rfl⟩ := List.cons.inj he
    rfl

/-- A comment that ends in a text ends there whatever is behind the text. -/
theorem exists_commentText (h : behind m .block cs = .code) :
    ∃ inside ds, cs = inside ++ ds ∧ behind m .code ds = .code ∧
      ∀ more, commentText? (cs ++ more) = some inside := by
  have both : ∀ cs : List Char,
      (behind m .block cs = .code → ∃ inside ds, cs = inside ++ ds ∧ behind m .code ds = .code ∧
        ∀ more, commentText? (cs ++ more) = some inside) ∧
      (behind m .star cs = .code → ∃ inside ds, cs = inside ++ ds ∧ behind m .code ds = .code ∧
        ∀ more, commentText? ('*' :: (cs ++ more)) = some ('*' :: inside)) := by
    intro cs
    induction cs with
    | nil => constructor <;> intro h <;> cases h
    | cons c cs ih =>
      constructor <;> intro h <;> rw [behind_cons, after] at h
      · split at h
        · rename_i hc
          subst hc
          obtain ⟨inside, ds, rfl, hd, hi⟩ := ih.2 h
          exact ⟨'*' :: inside, ds, rfl, hd, hi⟩
        · rename_i hc
          obtain ⟨inside, ds, rfl, hd, hi⟩ := ih.1 h
          refine ⟨c :: inside, ds, rfl, hd, fun more => ?_⟩
          rw [List.cons_append, commentText?_cons (fun h => hc h.1), hi]
          rfl
      · split at h
        · rename_i hc
          subst hc
          exact ⟨['/'], cs, rfl, h, fun more => rfl⟩
        split at h
        · rename_i hc
          subst hc
          obtain ⟨inside, ds, rfl, hd, hi⟩ := ih.2 h
          refine ⟨'*' :: inside, ds, rfl, hd, fun more => ?_⟩
          rw [List.cons_append, commentText?_cons (by simp), hi]
          rfl
        · rename_i hslash hstar
          obtain ⟨inside, ds, rfl, hd, hi⟩ := ih.1 h
          refine ⟨c :: inside, ds, rfl, hd, fun more => ?_⟩
          rw [List.cons_append, commentText?_cons (by simpa using hslash),
            commentText?_cons (fun h => hstar h.1), hi]
          rfl
  exact (both cs).1 h

/-- Behind the mark that closes a comment there is code. -/
theorem behind_commentText {inside : List Char} (h : commentText? cs = some inside) :
    behind m .block inside = .code := by
  have both : ∀ cs inside : List Char,
      (commentText? cs = some inside → behind m .block inside = .code) ∧
      (commentText? ('*' :: cs) = some ('*' :: inside) → behind m .star inside = .code) := by
    intro cs
    induction cs with
    | nil =>
      intro inside
      constructor <;> intro h <;> cases h
    | cons c cs ih =>
      intro inside
      have hblock (h : commentText? (c :: cs) = some inside) : behind m .block inside = .code := by
        by_cases hclose : c = '*' ∧ cs.head? = some '/'
        · obtain ⟨rfl, hs⟩ := hclose
          obtain ⟨more, rfl⟩ := List.head?_eq_some_iff.1 hs
          obtain rfl : ['*', '/'] = inside := Option.some.inj h
          rfl
        · rw [commentText?_cons hclose] at h
          obtain ⟨inside, hi, rfl⟩ := Option.map_eq_some_iff.1 h
          rw [behind_cons, after]
          split
          · rename_i hc
            subst hc
            refine (ih inside).2 ?_
            rw [commentText?_cons hclose, hi]
            rfl
          · exact (ih inside).1 hi
      refine ⟨hblock, fun h => ?_⟩
      by_cases hslash : c = '/'
      · subst hslash
        obtain rfl : ['/'] = inside := (List.cons.inj (Option.some.inj h)).2
        rfl
      · rw [commentText?_cons (by simpa using hslash)] at h
        obtain ⟨inside', hi, he⟩ := Option.map_eq_some_iff.1 h
        obtain rfl := (List.cons.inj he).2
        have hc := hblock hi
        cases inside' with
        | nil => cases hc
        | cons d ds =>
          obtain ⟨more, hm⟩ := Spot.commentText?_prefix hi
          obtain ⟨rfl, -⟩ := List.cons.inj hm
          rw [behind_cons] at hc ⊢
          simpa only [after, if_neg hslash] using hc
  exact (both cs inside).1 h

/-! ## Strings -/

section Strings

variable {quote d : Char} {inside : Quotes.Inside} {opened : Position} {depth : Nat} {quoted : Bool}

theorem after_closing : after m (.string quote .text false) quote = .code := by
  simp [after]

theorem after_escape (hn : c ≠ '\n') (hq : c ≠ quote) (hb : c = '\\') :
    after m (.string quote .text false) c = .string quote .text true := by
  simp only [after, if_neg hn, if_neg hq, if_pos hb]
  rfl

theorem after_text (hn : c ≠ '\n') (hq : c ≠ quote) (hb : c ≠ '\\') :
    after m (.string quote .text false) c =
      .string quote (if c = '{' then .code .first 1 false else .text) false := by
  simp only [after, if_neg hn, if_neg hq, if_neg hb]
  rfl

theorem after_escaped (hn : c ≠ '\n') :
    after m (.string quote inside true) c = .string quote inside false := by
  simp only [after, if_neg hn]
  rfl

theorem after_quotedEscape (hb : quoted = true ∧ c = '\\') :
    after m (.string quote (.code opened depth quoted) false) c =
      .string quote (.code opened depth true) true := by
  simp [after, hb]

theorem after_code (hn : c ≠ '\n') (hb : ¬ (quoted = true ∧ c = '\\')) :
    after m (.string quote (.code opened depth quoted) false) c =
      .string quote (Quotes.afterCode quote c opened depth quoted) false := by
  simp [after, if_neg hn, hb]

end Strings

end Region

namespace Quotes

/-- How deep reading stands between the quotes, wherever its code was opened. -/
def Inside.level : Inside → Inside
  | .text => .text
  | .code _ depth quoted => .code .first depth quoted

variable {m : ScanMode} {quote c : Char} {i : Inside} {p : Position} {cs text rest : List Char}

theorem level_afterCode (opened : Position) (depth : Nat) (quoted : Bool) :
    (afterCode quote c opened depth quoted).level = afterCode quote c .first depth quoted := by
  unfold afterCode
  split
  · rfl
  split
  · rfl
  split
  · rfl
  split
  · split <;> rfl
  · rfl

theorem level_opened (c : Char) (p : Position) :
    (if c = '{' then Inside.code p 1 false else .text).level =
      if c = '{' then Inside.code .first 1 false else .text := by
  split <;> rfl

open Region (behind behind_cons)

/-- Behind the quote that closes a string there is code. -/
theorem behind_body (h : body quote i p cs = .ok (text, rest)) :
    behind m (.string quote i.level false) (text ++ [quote]) = .code := by
  fun_induction body quote i p cs generalizing text
  case case4 =>
    obtain ⟨rfl, -⟩ := Prod.mk.inj (Except.ok.inj h)
    rw [List.nil_append, behind_cons, Inside.level, Region.after_closing]
    rfl
  case case7 d ds hd hn hq ih =>
    obtain ⟨text, ht, rfl⟩ := map_ok ['\\', d] h
    simp only [List.cons_append, List.nil_append]
    rw [behind_cons, behind_cons, Inside.level, Region.after_escape hn hq rfl, Region.after_escaped hd]
    exact ih ht
  case case8 p c cs hn hq hb inside ih =>
    obtain ⟨text, ht, rfl⟩ := map_ok [c] h
    rw [List.cons_append, List.nil_append, List.cons_append, behind_cons, Inside.level,
      Region.after_text hn hq hb, ← level_opened c p]
    exact ih ht
  case case12 opened depth quoted p c hn hb d ds hd ih =>
    obtain ⟨text, ht, rfl⟩ := map_ok [c, d] h
    simp only [List.cons_append, List.nil_append]
    rw [behind_cons, behind_cons, Inside.level, Region.after_quotedEscape hb, Region.after_escaped hd]
    exact ih ht
  case case13 opened depth quoted p c cs hn hb ih =>
    obtain ⟨text, ht, rfl⟩ := map_ok [c] h
    rw [List.cons_append, List.nil_append, List.cons_append, behind_cons, Inside.level,
      Region.after_code hn hb, ← level_afterCode opened]
    exact ih ht
  all_goals cases h

/-- A string that ends in a text ends there whatever is behind the text. -/
theorem body_append (h : behind m (.string quote i.level false) cs = .code) (more : List Char) :
    body quote i p (cs ++ more) = (body quote i p cs).map fun r => (r.1, r.2 ++ more) := by
  fun_induction body quote i p cs
  case case1 => cases h
  case case2 => cases h
  case case5 hn hq => cases (Region.after_escape (m := m) hn hq rfl).symm.trans h
  case case7 d ds hd hn hq ih =>
    rw [behind_cons, behind_cons, Inside.level, Region.after_escape hn hq rfl,
      Region.after_escaped hd] at h
    rw [List.cons_append, List.cons_append, body.eq_def]
    simp only [hn, hq, hd, if_false, if_true, ih h]
    cases body quote .text _ ds <;> rfl
  case case8 c cs hn hq hb inside ih =>
    rw [behind_cons, Inside.level, Region.after_text hn hq hb, ← level_opened c] at h
    rw [List.cons_append, body.eq_def]
    simp only [hn, hq, hb, if_false]
    change (body quote inside _ _).map _ = _
    rw [ih h]
    cases body quote inside _ cs <;> rfl
  case case10 hb => cases (Region.after_quotedEscape (m := m) hb).symm.trans h
  case case12 hn hb d ds hd ih =>
    rw [behind_cons, behind_cons, Inside.level, Region.after_quotedEscape hb,
      Region.after_escaped hd] at h
    obtain ⟨rfl, rfl⟩ := hb
    rw [List.cons_append, List.cons_append, body.eq_def]
    simp only [hn, hd, if_false, if_true, and_self, ih h]
    cases body quote _ _ ds <;> rfl
  case case13 opened _ _ _ c cs hn hb ih =>
    rw [behind_cons, Inside.level, Region.after_code hn hb, ← level_afterCode opened] at h
    rw [List.cons_append, body.eq_def]
    simp only [hn, hb, if_false, ih h]
    cases body quote _ _ cs <;> rfl
  -- the string ends here, or its line does
  all_goals
    simp only [List.cons_append]
    rw [body.eq_def]
    simp [*, Except.map]

end Quotes

end StoryLang
