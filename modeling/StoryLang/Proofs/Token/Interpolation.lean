/-
The two readers of the code in a string.

The scanner passes the code between braces to find the quote that ends the
string. It knows the quotes of that string only. The pieces of the string are
cut later, from what stands between the quotes, and there both kinds of quotes
count. `bodyNoting` is `body` that notes the code it passes. The two find the
same code just if what the scanner passed is balanced to the other reader as
well: its quotes are closed, and its braces stand in pairs outside of them.
-/
import StoryLang.Grammar.BuiltIn
import StoryLang.Hoist.Pieces
import StoryLang.Proofs.Token.Follow

namespace StoryLang

namespace Pieces

theorem filter_addText (cs : List Char) (ps : List Piece) :
    (addText cs ps).filter Piece.isCode = ps.filter Piece.isCode := by
  unfold addText
  split <;> simp [Piece.isCode]

theorem splitFrom_skip (offset : Nat) (front cs : List Char) :
    splitFrom front.length offset (front ++ cs) = splitFrom 0 (offset + front.length) cs := by
  induction front generalizing offset with
  | nil => rfl
  | cons c front ih =>
    rw [List.length_cons, List.cons_append, splitFrom, ih]
    congr 1
    omega

/-- What is behind the braces of a code comes behind its piece. -/
theorem splitFrom_code {source post : List Char}
    (hc : code? 1 none (source ++ '}' :: post) = some source) (n : Nat) :
    splitFrom 0 n ('{' :: (source ++ '}' :: post)) =
      .code source (n + 1) :: splitFrom 0 (n + 1 + (source.length + 1)) post := by
  have hskip := splitFrom_skip (n + 1) (source ++ ['}']) post
  rw [List.length_append, List.length_singleton, List.append_assoc, List.singleton_append] at hskip
  rw [splitFrom.eq_def]
  simp [hc, hskip]

end Pieces

namespace Quotes

/-- `body`, from a place that `offset` characters come before in the string.
The code that is passed is noted; `seen` is what of it came before. -/
def bodyNoting (quote : Char) : Inside → List Char → Nat → Position → List Char →
    Except (Option Position) (List Char × List Char × List Piece)
  | .text, _, _, _, [] => .error none
  | .code opened _ _, _, _, _, [] => .error (some opened)
  | .text, _, offset, p, c :: cs =>
    if c = '\n' then .error none
    else if c = quote then .ok ([], cs, [])
    else if c = '\\' then
      match cs with
      | [] => .error none
      | d :: ds =>
        if d = '\n' then .error none
        else (bodyNoting quote .text [] (offset + 2) ((p.after c).after d) ds).map
          fun (text, rest, noted) => (c :: d :: text, rest, noted)
    else
      let inside := if c = '{' then .code p 1 false else .text
      (bodyNoting quote inside [] (offset + 1) (p.after c) cs).map
        fun (text, rest, noted) => (c :: text, rest, noted)
  | .code opened depth quoted, seen, offset, p, c :: cs =>
    if c = '\n' then .error (some opened)
    else if quoted ∧ c = '\\' then
      match cs with
      | [] => .error (some opened)
      | d :: ds =>
        if d = '\n' then .error (some opened)
        else (bodyNoting quote (.code opened depth true) (seen ++ [c, d]) (offset + 2)
          ((p.after c).after d) ds).map fun (text, rest, noted) => (c :: d :: text, rest, noted)
    else
      match afterCode quote c opened depth quoted with
      | .text => (bodyNoting quote .text [] (offset + 1) (p.after c) cs).map
          fun (text, rest, noted) =>
            (c :: text, rest, .code seen (offset - seen.length) :: noted)
      | inside => (bodyNoting quote inside (seen ++ [c]) (offset + 1) (p.after c) cs).map
          fun (text, rest, noted) => (c :: text, rest, noted)

/-- What was read, without what was noted. -/
def unnoted (r : Except (Option Position) (List Char × List Char × List Piece)) :
    Except (Option Position) (List Char × List Char) :=
  r.map fun (text, rest, _) => (text, rest)

theorem unnoted_map (front : List Char) (note : List Piece → List Piece)
    (r : Except (Option Position) (List Char × List Char × List Piece)) :
    unnoted (r.map fun (text, rest, noted) => (front ++ text, rest, note noted)) =
      (unnoted r).map fun (text, rest) => (front ++ text, rest) := by
  cases r <;> rfl

/-- Noting the code changes nothing about what is read. -/
theorem unnoted_bodyNoting (quote : Char) (inside : Inside) (seen : List Char) (offset : Nat)
    (p : Position) (cs : List Char) :
    unnoted (bodyNoting quote inside seen offset p cs) = body quote inside p cs := by
  fun_induction bodyNoting quote inside seen offset p cs <;> rw [body.eq_def] <;> dsimp only
  case case7 d ds hd hc hq ih =>
    rw [if_neg hc, if_neg hq, if_pos rfl, if_neg hd, ← ih]
    exact unnoted_map ['\\', d] id _
  case case8 c cs hc hq hb inside ih =>
    rw [if_neg hc, if_neg hq, if_neg hb, ← ih]
    exact unnoted_map [c] id _
  case case12 c hc hb d ds hd ih =>
    rw [if_neg hc, if_pos hb, if_neg hd, ← ih]
    exact unnoted_map [c, d] id _
  case case13 c cs hc hb ha ih =>
    rw [if_neg hc, if_neg hb, ha, ← ih]
    exact unnoted_map [c] (.code _ _ :: ·) _
  case case14 c cs hc hb ha ih =>
    rw [if_neg hc, if_neg hb, ← ih]
    exact unnoted_map [c] id _
  -- the text ends, or the line or the string does, and nothing is left to read
  all_goals simp_all [unnoted, Except.map]

theorem ok_of_map (front : List Char) (note : List Piece → List Piece) {text rest : List Char}
    {noted : List Piece} {r : Except (Option Position) (List Char × List Char × List Piece)}
    (h : r.map (fun (text, rest, noted) => (front ++ text, rest, note noted)) =
      .ok (text, rest, noted)) :
    ∃ text' noted', r = .ok (text', rest, noted') ∧ text = front ++ text' ∧ noted = note noted' := by
  cases r with
  | error p => simp [Except.map] at h
  | ok r =>
    obtain ⟨text', rest', noted'⟩ := r
    simp only [Except.map, Except.ok.injEq, Prod.mk.injEq] at h
    obtain ⟨rfl, rfl, rfl⟩ := h
    exact ⟨text', noted', rfl, rfl, rfl⟩

theorem body_of_bodyNoting {quote : Char} {inside : Inside} {seen : List Char} {offset : Nat}
    {p : Position} {cs text rest : List Char} {noted : List Piece}
    (h : bodyNoting quote inside seen offset p cs = .ok (text, rest, noted)) :
    body quote inside p cs = .ok (text, rest) := by
  rw [← unnoted_bodyNoting quote inside seen offset, h]
  rfl

/-! ## Balanced code -/

/-- What may stand between two quotes: a backslash takes the next character along. -/
inductive Quoted (quote : Char) : List Char → Prop where
  | nil : Quoted quote []
  | plain {c : Char} {cs : List Char} (other : c ≠ quote ∧ c ≠ '\\') (more : Quoted quote cs) :
    Quoted quote (c :: cs)
  | escaped {c : Char} {cs : List Char} (more : Quoted quote cs) : Quoted quote ('\\' :: c :: cs)

/-- Code in which both kinds of quotes quote, and the braces outside of quotes stand in pairs. -/
inductive Balanced : List Char → Prop where
  | nil : Balanced []
  | plain {c : Char} {cs : List Char} (other : c ∉ ['"', '\'', '{', '}']) (more : Balanced cs) :
    Balanced (c :: cs)
  | quoted {quote : Char} {inside cs : List Char} (isQuote : quote = '"' ∨ quote = '\'')
    (quoted : Quoted quote inside) (more : Balanced cs) : Balanced (quote :: (inside ++ quote :: cs))
  | braces {inside cs : List Char} (balanced : Balanced inside) (more : Balanced cs) :
    Balanced ('{' :: (inside ++ '}' :: cs))

section Balance

variable {quote : Char} {inside code cs : List Char} {depth n : Nat}

theorem Quoted.code? (hquote : quote ≠ '\\') (h : Quoted quote inside) :
    Pieces.code? depth (some quote) (inside ++ quote :: cs) =
      (Pieces.code? depth none cs).map (inside ++ quote :: ·) := by
  induction h with
  | nil => simp [Pieces.code?.eq_def depth (some quote), hquote]
  | plain other _ ih =>
    rw [List.cons_append, Pieces.code?.eq_def]
    simp [other.1, other.2, ih, Function.comp_def]
  | escaped _ ih =>
    rw [List.cons_append, List.cons_append, Pieces.code?.eq_def]
    simp [ih, Function.comp_def]

/-- Balanced code is passed without a change to what is open. -/
theorem Balanced.code? (h : Balanced code) (depth : Nat) (cs : List Char) :
    Pieces.code? (depth + 1) none (code ++ cs) =
      (Pieces.code? (depth + 1) none cs).map (code ++ ·) := by
  induction h generalizing depth cs with
  | nil => simp
  | plain other _ ih =>
    rw [List.cons_append, Pieces.code?.eq_def]
    simp_all [Function.comp_def]
  | @quoted quote _ _ isQuote hquoted _ ih =>
    have hne : quote ≠ '\\' := by rintro rfl; revert isQuote; decide
    rw [List.cons_append, List.append_assoc, List.cons_append, Pieces.code?.eq_def]
    simp [isQuote, hquoted.code? hne, ih, Function.comp_def]
  | braces _ _ ih ih' =>
    rw [List.cons_append, List.append_assoc, List.cons_append, Pieces.code?.eq_def]
    simp [ih, ih', Pieces.code?.eq_def (depth + 2) none ('}' :: _), Function.comp_def]

/-- Balanced code that closes one brace less than are open. -/
inductive BalancedFrom : Nat → List Char → Prop where
  | last {code : List Char} (balanced : Balanced code) : BalancedFrom 1 code
  | brace {code cs : List Char} {n : Nat} (balanced : Balanced code) (more : BalancedFrom n cs) :
    BalancedFrom (n + 1) (code ++ '}' :: cs)

/-- What goes on balanced can stand in front of code. -/
theorem BalancedFrom.behind (h : BalancedFrom n cs) (front : List Char)
    (hfront : ∀ code, Balanced code → Balanced (front ++ code)) : BalancedFrom n (front ++ cs) := by
  cases h with
  | last balanced => exact .last (hfront _ balanced)
  | brace balanced more =>
    rw [← List.append_assoc]
    exact .brace (hfront _ balanced) more

/-- What is found up to a closing brace. -/
def Found (depth : Nat) : Option Char → List Char → Prop
  | none, code => BalancedFrom depth code
  | some quote, code => ∃ inside more, code = inside ++ quote :: more ∧ Quoted quote inside ∧
    BalancedFrom depth more

theorem found_code? {opened : Option Char} (hdepth : 1 ≤ depth)
    (h : Pieces.code? depth opened cs = some code) : Found depth opened code := by
  fun_induction Pieces.code? depth opened cs generalizing code
  case case1 | case2 => cases h
  case case7 => omega
  case case8 =>
    obtain rfl := Option.some.inj h
    exact .last .nil
  all_goals
    obtain ⟨code, h', rfl⟩ := Option.map_eq_some_iff.1 h
  case case3 ih =>
    obtain ⟨inside, more, rfl, hquoted, hmore⟩ := ih hdepth h'
    exact ⟨_, more, rfl, .escaped hquoted, hmore⟩
  case case4 quote c cs hb ih =>
    have hfound := ih hdepth h'
    by_cases hc : c = quote
    · rw [if_pos hc] at hfound
      exact ⟨[], code, by rw [hc]; rfl, .nil, hfound⟩
    · rw [if_neg hc] at hfound
      obtain ⟨inside, more, rfl, hquoted, hmore⟩ := hfound
      exact ⟨_, more, rfl, .plain ⟨hc, hb⟩ hquoted, hmore⟩
  case case5 hc ih =>
    obtain ⟨inside, more, rfl, hquoted, hmore⟩ := ih hdepth h'
    have hbehind := hmore.behind (_ :: (inside ++ [_])) fun code hcode => by
      simpa using Balanced.quoted hc hquoted hcode
    simpa [Found] using hbehind
  case case6 ih =>
    cases ih (Nat.le_add_left 1 _) h' with
    | last => omega
    | @brace inside more _ balanced hmore =>
      have hbehind := hmore.behind ('{' :: (inside ++ ['}'])) fun code hcode => by
        simpa using Balanced.braces balanced hcode
      simpa [Found] using hbehind
  case case9 ih => exact .brace .nil (ih (Nat.le_add_left 1 _) h')
  case case10 hc ho hcl ih =>
    exact (ih hdepth h').behind [_] fun code hcode => .plain (by simp_all) hcode

/-- Code ends at its closing brace just if it is balanced. -/
theorem code?_eq_some_iff : Pieces.code? 1 none (code ++ '}' :: cs) = some code ↔ Balanced code := by
  constructor
  · intro h
    cases found_code? (Nat.le_refl 1) h with
    | last balanced => exact balanced
    | brace _ more => cases more
  · intro h
    rw [h.code?]
    simp [Pieces.code?]

instance : DecidablePred Balanced := fun code =>
  decidable_of_iff (Pieces.code? 1 none (code ++ '}' :: []) = some code) code?_eq_some_iff

example : Balanced "f(a:'\x7bx\x7d')".toList ∧ Balanced "m['\x7b\x7d']".toList ∧
    ¬ Balanced "f(a:'\x7b')\x7d ".toList := by
  decide +kernel

end Balance

/-! ## The code that the scanner passes -/

theorem afterCode_text {quote c : Char} {p : Position} {depth : Nat} {quoted : Bool}
    (h : afterCode quote c p depth quoted = .text) : c = '}' := by
  unfold afterCode at h
  split_ifs at h with _ _ _ hc
  exact hc

/-- The code that the scanner is in ends at a brace, and is noted. -/
theorem bodyNoting_code {quote : Char} {place p : Position} {depth : Nat} {quoted : Bool}
    {seen cs text rest : List Char} {offset : Nat} {noted : List Piece}
    (h : bodyNoting quote (.code place depth quoted) seen offset p cs = .ok (text, rest, noted)) :
    ∃ code after p' noted', text = code ++ '}' :: after ∧
      noted = .code (seen ++ code) (offset - seen.length) :: noted' ∧
      bodyNoting quote .text [] (offset + code.length + 1) p' (after ++ quote :: rest) =
        .ok (after, rest, noted') := by
  generalize hi : Inside.code place depth quoted = inside at h
  fun_induction bodyNoting quote inside seen offset p cs generalizing place depth quoted text noted
  case case12 place' depth' quoted' seen offset p c hc hb d ds hd ih =>
    obtain ⟨text', noted', h', rfl, rfl⟩ := ok_of_map [c, d] id h
    obtain ⟨code, after, p', noted'', rfl, hn, ha⟩ := ih rfl h'
    refine ⟨c :: d :: code, after, p', noted'', rfl, ?_, ?_⟩
    · rw [hn]
      simp
    · rw [List.length_cons, List.length_cons,
        show offset + (code.length + 1 + 1) + 1 = offset + 2 + code.length + 1 by omega]
      exact ha
  case case13 place' depth' quoted' seen offset p c cs hc hb ha ih =>
    obtain ⟨text', noted', h', rfl, rfl⟩ :=
      ok_of_map [c] (.code seen (offset - seen.length) :: ·) h
    obtain rfl := afterCode_text ha
    refine ⟨[], text', p.after '}', noted', rfl, by simp, ?_⟩
    rw [← (body_ok (body_of_bodyNoting h')).1]
    exact h'
  case case14 place' depth' quoted' seen offset p c cs hc hb ha ih =>
    obtain ⟨text', noted', h', rfl, rfl⟩ := ok_of_map [c] id h
    cases hafter : afterCode quote c place' depth' quoted' with
    | text => exact absurd hafter ha
    | code place'' depth'' quoted'' =>
      obtain ⟨code, after, p', noted'', rfl, hn, hr⟩ := ih hafter.symm h'
      refine ⟨c :: code, after, p', noted'', rfl, ?_, ?_⟩
      · rw [hn]
        simp
      · rw [List.length_cons, show offset + (code.length + 1) + 1 = offset + 1 + code.length + 1 by omega]
        exact hr
  all_goals simp_all

/-! ## The pieces of a string -/

/-- Every code among the pieces of a string is balanced. -/
theorem balanced_splitFrom {skip n offset : Nat} {cs code : List Char}
    (h : .code code offset ∈ (Pieces.splitFrom skip n cs).filter Piece.isCode) : Balanced code := by
  fun_induction Pieces.splitFrom skip n cs
  case case2 ih => exact ih h
  case case4 ih | case7 ih => exact ih (Pieces.filter_addText _ _ ▸ h)
  case case6 code' hcode _ ih =>
    rw [List.filter_cons_of_pos rfl, List.mem_cons] at h
    obtain h | h := h
    · obtain ⟨rfl, -⟩ := Piece.code.inj h
      cases found_code? (Nat.le_refl 1) hcode with
      | last balanced => exact balanced
      | brace _ more => cases more
    · exact ih h
  all_goals simp [Pieces.filter_addText] at h

/-- If the code the scanner passed is balanced, it is the code among the pieces of the string. -/
theorem filter_splitFrom {quote : Char} {seen cs text rest : List Char} {offset : Nat} {p : Position}
    {noted : List Piece} (h : bodyNoting quote .text seen offset p cs = .ok (text, rest, noted))
    (hbalanced : ∀ code n, .code code n ∈ noted → Balanced code) :
    (Pieces.splitFrom 0 offset text).filter Piece.isCode = noted := by
  induction hn : text.length using Nat.strongRecOn generalizing seen cs text offset p noted with
  | ind n ih =>
  subst hn
  cases cs with
  | nil => simp [bodyNoting] at h
  | cons c cs =>
    unfold bodyNoting at h
    split at h
    · simp at h
    rename_i hc
    split at h
    · obtain ⟨rfl, rfl, rfl⟩ : [] = text ∧ cs = rest ∧ [] = noted := by simpa using h
      simp [Pieces.splitFrom]
    split at h
    · split at h
      · simp at h
      rename_i hb _ d ds
      split at h
      · simp at h
      obtain ⟨text', noted', h', rfl, rfl⟩ := ok_of_map [c, d] id h
      have := ih text'.length (by simp only [List.length_append, List.length_cons]; omega) h'
        hbalanced rfl
      rw [List.cons_append, Pieces.splitFrom.eq_def]
      simpa [hb, Pieces.filter_addText] using this
    rename_i hb
    obtain ⟨text', noted', h', rfl, rfl⟩ := ok_of_map [c] id h
    by_cases hopen : c = '{'
    · subst hopen
      rw [if_pos rfl] at h'
      obtain ⟨code, after, p', noted'', rfl, rfl, ha⟩ := bodyNoting_code h'
      have hcode : Pieces.code? 1 none (code ++ '}' :: after) = some code :=
        code?_eq_some_iff.2 (hbalanced _ _ List.mem_cons_self)
      have hrest := ih after.length (by simp; omega) ha
        (fun code n hm => hbalanced code n (List.mem_cons_of_mem _ hm)) rfl
      rw [List.nil_append, List.singleton_append, Pieces.splitFrom_code hcode, List.filter_cons_of_pos rfl,
        ← Nat.add_assoc, hrest]
      rfl
    · rw [if_neg hopen] at h'
      have := ih text'.length (by simp) h' hbalanced rfl
      rw [List.singleton_append, Pieces.splitFrom.eq_def]
      simpa [hb, hopen, Pieces.filter_addText] using this

end Quotes

open Quotes

/-- What the scanner passed as code in a string is what is code among the
pieces of the string, just if all of it is balanced where both kinds of quotes
quote. -/
theorem scan_code {m : ScanMode} {text : List Char} {tokens : List Token} {t : Token}
    (h : (scan m text).tokens = .ok tokens) (ht : t ∈ tokens) (hk : t.kind = .string) :
    ∃ front quote rest after noted, Text.dropMark text = front ++ quote :: rest ∧
      t.position = Position.first.behind front ∧
      bodyNoting quote .text [] 0 (t.position.after quote) rest =
        .ok (t.literal.toList, after, noted) ∧
      ((Pieces.split t.literal.toList).filter Piece.isCode = noted ↔
        ∀ code n, .code code n ∈ noted → Balanced code) := by
  obtain ⟨front, quote, rest, after, htext, hplace, -, hbody⟩ := (scan_ok h).strings t ht hk
  cases hn : bodyNoting quote .text [] 0 (t.position.after quote) rest with
  | error e => simp [← unnoted_bodyNoting quote _ [] 0, hn, unnoted, Except.map] at hbody
  | ok r =>
    obtain ⟨text', after', noted⟩ := r
    obtain ⟨rfl, rfl⟩ : text' = t.literal.toList ∧ after' = after := by
      simpa [body_of_bodyNoting hn] using hbody
    refine ⟨front, quote, rest, after', noted, htext, hplace, hn, fun hsame code n hm => ?_,
      filter_splitFrom hn⟩
    rw [← hsame] at hm
    exact balanced_splitFrom hm

/-- Two codes with braces between quotes of the other kind. -/
theorem scan_code_quoted : ∃ tokens t,
    (scan ⟨.builtIn, true⟩ "a = \"\x7bf(a:'\x7bx\x7d')\x7d \x7bm['\x7b\x7d']\x7d\"".toList).tokens =
        .ok tokens ∧ t ∈ tokens ∧ t.kind = .string ∧
      (Pieces.split t.literal.toList).filter Piece.isCode =
        [.code "f(a:'\x7bx\x7d')".toList 1, .code "m['\x7b\x7d']".toList 14] := by
  have h : ((scan ⟨.builtIn, true⟩
      "a = \"\x7bf(a:'\x7bx\x7d')\x7d \x7bm['\x7b\x7d']\x7d\"".toList).tokens.toOption.bind
        (·.find? (·.kind = .string))).map (·.position) = some ⟨1, 5⟩ := by
    decide +kernel
  obtain ⟨t, h, hp⟩ := Option.map_eq_some_iff.1 h
  obtain ⟨tokens, hs, ht⟩ := Option.bind_eq_some_iff.1 h
  have hs := toOption_eq_some.1 hs
  have hk : t.kind = .string := by simpa using List.find?_some ht
  have hmem := List.mem_of_find?_eq_some ht
  obtain ⟨front, quote, rest, after, noted, htext, hplace, hn, hiff⟩ := scan_code hs hmem hk
  -- the string starts behind four characters, which says where its code was passed
  have hline : '\n' ∉ front := fun hm => by
    have hm := List.mem_append_left (quote :: rest) hm
    rw [← htext] at hm
    exact absurd hm (by decide +kernel)
  have hlength : front.length = 4 := by
    rw [hp, Position.behind_line hline] at hplace
    have hcolumn := congrArg Position.column hplace
    simp only [Position.first] at hcolumn
    omega
  have htext : "a = ".toList ++ '"' :: "\x7bf(a:'\x7bx\x7d')\x7d \x7bm['\x7b\x7d']\x7d\"".toList =
      front ++ quote :: rest := htext
  obtain ⟨rfl, hrest⟩ := List.append_inj htext hlength.symm
  obtain ⟨rfl, rfl⟩ := List.cons.inj hrest
  have hnoted : (bodyNoting '"' .text [] 0 ⟨1, 6⟩
      "\x7bf(a:'\x7bx\x7d')\x7d \x7bm['\x7b\x7d']\x7d\"".toList).toOption.map (·.2.2) =
        some [.code "f(a:'\x7bx\x7d')".toList 1, .code "m['\x7b\x7d']".toList 14] := by
    decide +kernel
  rw [hp, show (⟨1, 5⟩ : Position).after '"' = ⟨1, 6⟩ from rfl] at hn
  rw [hn] at hnoted
  obtain rfl := Option.some.inj hnoted
  refine ⟨tokens, t, hs, hmem, hk, hiff.2 fun code n hm => ?_⟩
  simp only [List.mem_cons, Piece.code.injEq, List.not_mem_nil, or_false] at hm
  obtain ⟨rfl, -⟩ | ⟨rfl, -⟩ := hm
  · decide +kernel
  · decide +kernel

/-- An apostrophe in the code that nothing closes, here in a comment: the
scanner passes code, and the string is cut into no code at all. -/
theorem scan_code_apostrophe : ∃ tokens t,
    (scan ⟨.builtIn, false⟩ "b = \"\x7ba // it's\x7d\"".toList).tokens = .ok tokens ∧
      t ∈ tokens ∧ t.kind = .string ∧
      bodyNoting '"' .text [] 0 ⟨1, 6⟩ "\x7ba // it's\x7d\"".toList =
        .ok (t.literal.toList, [], [.code "a // it's".toList 1]) ∧
      (Pieces.split t.literal.toList).filter Piece.isCode = [] := by
  have h : ((scan ⟨.builtIn, false⟩ "b = \"\x7ba // it's\x7d\"".toList).tokens.toOption.bind
      (·.find? (·.kind = .string))).map (·.literal.toList) =
        some "\x7ba // it's\x7d".toList := by
    decide +kernel
  obtain ⟨t, h, hl⟩ := Option.map_eq_some_iff.1 h
  obtain ⟨tokens, hs, ht⟩ := Option.bind_eq_some_iff.1 h
  have hk : t.kind = .string := by simpa using List.find?_some ht
  refine ⟨tokens, t, toOption_eq_some.1 hs, List.mem_of_find?_eq_some ht, hk, ?_, ?_⟩ <;> rw [hl]
  · rw [← toOption_eq_some]
    decide +kernel
  · decide +kernel

end StoryLang
