/-
Texts with other words for the keywords.

`Respell.text` spells every keyword of a text anew and copies everything else:
names, numbers, symbols, blanks and comments, and strings up to the code in
them, which is spelled anew in turn. It goes on from where one token or comment
ends to the next, as the scanner does. What the scanner cannot read is copied
to the end of the text.
-/
import Mathlib.Data.List.TakeWhile
import StoryLang.Proofs.Token.Reworded

namespace StoryLang

/-- The grammar reads other words as the keywords, and is the same otherwise. -/
structure Grammar.Respells (g : Grammar) (spell : Keyword → String) (g' : Grammar) : Prop where
  keyword : ∀ k, g'.keyword? (spell k) = some k
  operators : g'.operators = g.operators
  castPrecedence : g'.castPrecedence = g.castPrecedence
  reserved : g'.reserved = g.reserved
  typeNames : g'.typeNames = g.typeNames

namespace Respell

section Definitions

variable (m : ScanMode) (spell : Keyword → String)

/-- A word, spelled anew if it is a keyword. -/
def word (w : List Char) : List Char :=
  match m.grammar.keyword? (String.ofList w) with
  | some k => (spell k).toList
  | none => w

/-- Whether a character opens a string. -/
def opens (c : Char) : Bool := c = '"' || (c = '\'' && m.singleQuotes)

/-- A text up to the end of what it starts with; `again` spells the rest, and
the code in a string. -/
def step (again : List Char → List Char) : List Char → List Char
  | [] => []
  | c :: cs =>
    if Grammar.isWordStart c then
      word m spell ((c :: cs).takeWhile Grammar.isWordChar) ++
        again ((c :: cs).dropWhile Grammar.isWordChar)
    else if c = '#' ∨ (c = '/' ∧ cs.head? = some '/') then
      (c :: cs).takeWhile (· ≠ '\n') ++ again ((c :: cs).dropWhile (· ≠ '\n'))
    else if c = '/' ∧ cs.head? = some '*' then
      match Spot.commentText? (cs.drop 1) with
      | some inside => c :: '*' :: inside ++ again (cs.drop (inside.length + 1))
      | none => c :: cs
    else if opens m c then
      match Quotes.body c .text .first cs with
      | .ok (raw, rest) => c :: Pieces.recode again raw ++ c :: again rest
      | .error _ => c :: cs
    else if c = '\\' then c :: cs
    else c :: again cs

/-- A text spelled anew in at most so many steps. -/
def textFrom : Nat → List Char → List Char
  | 0, cs => cs
  | n + 1, cs => step m spell (textFrom n) cs

/-- A text with every keyword spelled anew. -/
def text (cs : List Char) : List Char := textFrom m spell cs.length cs

end Definitions

variable {m : ScanMode} {spell : Keyword → String}

/-! ## One step after the other -/

theorem step_congr {f f' : List Char → List Char} {cs : List Char}
    (h : ∀ ds, ds.length < cs.length → f ds = f' ds) : step m spell f cs = step m spell f' cs := by
  cases cs with
  | nil => rfl
  | cons c cs =>
    have hle (p : Char → Bool) (hc : p c = true) :
        ((c :: cs).dropWhile p).length < (c :: cs).length := by
      rw [List.dropWhile_cons_of_pos hc]
      exact Nat.lt_succ_of_le (List.length_dropWhile_le _ _)
    simp only [step]
    split
    · rename_i hw
      rw [h _ (hle _ (by simp [Grammar.isWordChar, hw]))]
    split
    · rename_i hc
      rw [h _ (hle _ (by rcases hc with rfl | ⟨rfl, -⟩ <;> decide))]
    split
    · split
      · rw [h _ (by simp only [List.length_drop, List.length_cons]; omega)]
      · rfl
    split
    · split
      · rename_i raw rest hb
        have hlen := congrArg List.length (Quotes.body_ok hb).1
        simp only [List.length_append, List.length_cons] at hlen
        rw [h rest (by simp only [List.length_cons]; omega),
          Pieces.recode_congr fun source hs => h source (by simp only [List.length_cons]; omega)]
      · rfl
    split
    · rfl
    · rw [h cs (Nat.lt_succ_self _)]

theorem textFrom_eq {n n' : Nat} {cs : List Char} (h : cs.length ≤ n) (h' : cs.length ≤ n') :
    textFrom m spell n cs = textFrom m spell n' cs := by
  induction n generalizing n' cs with
  | zero =>
    obtain rfl := List.length_eq_zero_iff.1 (Nat.le_zero.1 h)
    cases n' <;> rfl
  | succ n ih =>
    cases n' with
    | zero =>
      obtain rfl := List.length_eq_zero_iff.1 (Nat.le_zero.1 h')
      rfl
    | succ n' => exact step_congr fun ds hds => ih (by omega) (by omega)

/-- A text is spelled anew step by step. -/
theorem text_eq (cs : List Char) : text m spell cs = step m spell (text m spell) cs := by
  cases cs with
  | nil => rfl
  | cons c cs =>
    change step m spell (textFrom m spell cs.length) (c :: cs) = _
    exact step_congr fun ds hds => textFrom_eq (Nat.le_of_lt_succ hds) (Nat.le_refl _)

@[simp] theorem text_nil : text m spell [] = [] := rfl

/-! ## What a text starts with -/

variable {c : Char} {cs : List Char}

theorem text_word (hc : Grammar.isWordStart c = true) :
    text m spell (c :: cs) = word m spell ((c :: cs).takeWhile Grammar.isWordChar) ++
      text m spell ((c :: cs).dropWhile Grammar.isWordChar) := by
  rw [text_eq, step, if_pos hc]

theorem text_comment (hc : c = '#' ∨ c = '/' ∧ cs.head? = some '/') :
    text m spell (c :: cs) = (c :: cs).takeWhile (· ≠ '\n') ++
      text m spell ((c :: cs).dropWhile (· ≠ '\n')) := by
  have hw : Grammar.isWordStart c = false := by rcases hc with rfl | ⟨rfl, -⟩ <;> decide
  rw [text_eq, step, if_neg (by simp [hw]), if_pos hc]

theorem text_block {inside : List Char} (hi : Spot.commentText? cs = some inside) :
    text m spell ('/' :: '*' :: cs) =
      '/' :: '*' :: inside ++ text m spell (cs.drop inside.length) := by
  rw [text_eq, step, if_neg (by decide), if_neg (by simp), if_pos (by simp)]
  simp [hi]

/-- A character that no word, comment or string starts with. -/
theorem text_copy (hw : Grammar.isWordStart c = false) (hh : c ≠ '#')
    (hs : c = '/' → cs.head? ≠ some '/' ∧ cs.head? ≠ some '*') (ho : opens m c = false)
    (hb : c ≠ '\\') : text m spell (c :: cs) = c :: text m spell cs := by
  rw [text_eq, step, if_neg (by simp [hw]), if_neg, if_neg, if_neg (by simp [ho]), if_neg hb]
  · exact fun h => (hs h.1).2 h.2
  · rintro (h | h)
    · exact hh h
    · exact (hs h.1).1 h.2

theorem opens_quote (ho : opens m c = true) : c = '"' ∨ c = '\'' := by
  simp only [opens, Bool.or_eq_true, decide_eq_true_eq, Bool.and_eq_true] at ho
  exact ho.imp id And.left

theorem text_string {p : Position} {raw rest : List Char} (ho : opens m c = true)
    (hb : Quotes.body c .text p cs = .ok (raw, rest)) :
    text m spell (c :: cs) = c :: Pieces.recode (text m spell) raw ++ c :: text m spell rest := by
  have hq := opens_quote ho
  obtain rfl := (Quotes.body_ok hb).1
  have hfirst := Quotes.Closes.reworded hq hb (.refl false raw) .text .first rest
  have hw : Grammar.isWordStart c = false := by rcases hq with rfl | rfl <;> decide
  have hc : ¬(c = '#' ∨ c = '/' ∧ (raw ++ c :: rest).head? = some '/') := by
    rcases hq with rfl | rfl <;> simp
  have hs : ¬(c = '/' ∧ (raw ++ c :: rest).head? = some '*') := by
    rcases hq with rfl | rfl <;> simp
  rw [text_eq, step, if_neg (by simp [hw]), if_neg hc, if_neg hs, if_pos ho]
  rw [Quotes.Closes] at hfirst
  simp only [hfirst]

/-! ## What stays -/

/-- The texts start with the same character, or both with a word, or not at all. -/
inductive SameStart : List Char → List Char → Prop where
  | none : SameStart [] []
  | same (c : Char) (cs cs' : List Char) : SameStart (c :: cs) (c :: cs')
  | words {c c' : Char} (cs cs' : List Char) (old : Grammar.isWordStart c = true)
      (new : Grammar.isWordStart c' = true) : SameStart (c :: cs) (c' :: cs')

/-- A property that no start of a word has holds of both starts or of none. -/
theorem SameStart.head {cs cs' : List Char} (h : SameStart cs cs') {p : Char → Bool}
    (hp : ∀ c, Grammar.isWordStart c = true → p c = false) : cs'.head?.any p = cs.head?.any p := by
  cases h with
  | none | same => rfl
  | words _ _ old new => simp [hp _ old, hp _ new]

/-- Words for keywords that are words. -/
abbrev Words (spell : Keyword → String) : Prop := ∀ k, Grammar.isWord (spell k) = true

theorem word_cases (hs : Words spell) {w : List Char} (hw : Grammar.isWord (String.ofList w) = true) :
    ∃ c c' v v', w = c :: v ∧ word m spell w = c' :: v' ∧ Grammar.isWordStart c = true ∧
      Grammar.isWordStart c' = true ∧ (∀ d ∈ v, Grammar.isWordChar d = true) ∧
      ∀ d ∈ v', Grammar.isWordChar d = true := by
  obtain ⟨c, v, he, hc, hv⟩ := Grammar.isWord_cases hw
  rw [String.toList_ofList] at he
  unfold word
  split
  · rename_i k _
    obtain ⟨c', v', he', hc', hv'⟩ := Grammar.isWord_cases (hs k)
    exact ⟨c, c', v, v', he, he', hc, hc', hv, hv'⟩
  · exact ⟨c, c, v, v, he, he, hc, hc, hv, hv⟩

theorem isWord_takeWhile (cs : List Char) (hc : Grammar.isWordStart c = true) :
    Grammar.isWord (String.ofList ((c :: cs).takeWhile Grammar.isWordChar)) = true := by
  have hw : Grammar.isWordChar c = true := by simp [Grammar.isWordChar, hc]
  simp only [Grammar.isWord, String.toList_ofList, List.takeWhile_cons_of_pos hw, hc, Bool.true_and]
  exact List.all_takeWhile

theorem text_start (hs : Words spell) (cs : List Char) : SameStart cs (text m spell cs) := by
  cases cs with
  | nil => exact .none
  | cons c cs =>
    rw [text_eq, step]
    split
    · rename_i hc
      obtain ⟨d, d', v, v', hv, hv', hd, hd', -⟩ := word_cases (m := m) hs (isWord_takeWhile cs hc)
      rw [hv']
      exact .words _ _ hc hd'
    split
    · rename_i hc
      have hn : c ≠ '\n' := by rcases hc with rfl | ⟨rfl, -⟩ <;> decide
      rw [List.takeWhile_cons_of_pos (by simpa using hn)]
      exact .same _ _ _
    split
    · split <;> exact .same _ _ _
    split
    · split <;> exact .same _ _ _
    split <;> exact .same _ _ _

/-- A text that is spelled anew is the same but for words. -/
theorem text_reworded (hs : Words spell) (cs : List Char) (b : Bool)
    (hb : b = true → cs.head?.any Grammar.isWordStart = false) :
    Text.Reworded b cs (text m spell cs) := by
  induction hn : cs.length using Nat.strongRecOn generalizing cs b with
  | ind n ih =>
  subst hn
  cases cs with
  | nil => exact .nil
  | cons c cs =>
    -- behind what is copied and does not end in a backslash
    have later {ds : List Char} (hl : ds.length < (c :: cs).length) :
        Text.Reworded false ds (text m spell ds) := ih _ hl ds false (by simp) rfl
    have tail (p : Char → Bool) (hp : p c = true) :
        ((c :: cs).dropWhile p).length < (c :: cs).length := by
      rw [List.dropWhile_cons_of_pos hp]
      exact Nat.lt_succ_of_le (List.length_dropWhile_le _ _)
    rw [text_eq, step]
    split
    · rename_i hc
      obtain rfl : b = false := by simpa [hc] using hb
      have hw : Grammar.isWordChar c = true := by simp [Grammar.isWordChar, hc]
      obtain ⟨d, d', v, v', hv, hv', hd, hd', hall, hall'⟩ :=
        word_cases (m := m) hs (isWord_takeWhile cs hc)
      have h := later (tail _ hw)
      nth_rewrite 1 [← List.takeWhile_append_dropWhile (p := Grammar.isWordChar) (l := c :: cs)]
      rw [hv', hv]
      have word {d : Char} {v : List Char} (hd : Grammar.isWordStart d = true)
          (hall : ∀ c ∈ v, Grammar.isWordChar c = true) : ∀ c ∈ d :: v, Text.isIdle c = true :=
        List.forall_mem_cons.2 ⟨Grammar.isIdle_of_isWordChar (by simp [Grammar.isWordChar, hd]),
          fun c hc => Grammar.isIdle_of_isWordChar (hall c hc)⟩
      exact .word (by simp) (word hd hall) (word hd' hall') h
    split
    · rename_i hc
      have hn : c ≠ '\n' := by rcases hc with rfl | ⟨rfl, -⟩ <;> decide
      nth_rewrite 1 [← List.takeWhile_append_dropWhile (p := (· ≠ '\n')) (l := c :: cs)]
      refine (Text.Reworded.refl b _).append fun b => ih _ (tail _ (by simpa using hn)) _ b (fun _ => ?_) rfl
      have hhead := List.head?_dropWhile_not (· ≠ '\n') (c :: cs)
      cases he : ((c :: cs).dropWhile (· ≠ '\n')).head? with
      | none => rfl
      | some d =>
        rw [he] at hhead
        obtain rfl : d = '\n' := by simpa using hhead
        decide
    split
    · rename_i hc
      obtain ⟨rfl, hc⟩ := hc
      obtain ⟨cs, rfl⟩ : ∃ ds, cs = '*' :: ds := by
        cases cs <;> simp_all
      split
      · rename_i inside hi
        obtain ⟨rest, rfl⟩ := Spot.commentText?_prefix hi
        obtain ⟨front, rfl⟩ := Spot.commentText?_closed hi
        have hdrop : (front ++ ['*', '/'] ++ rest).drop (front ++ ['*', '/']).length = rest :=
          List.drop_left
        have h := @later rest (by simp only [List.length_cons, List.length_append]; omega)
        rw [List.drop_succ_cons, hdrop]
        refine .same _ (.same _ ?_)
        change Text.Reworded _ _ (front ++ ['*', '/'] ++ text m spell rest)
        rw [List.append_assoc, List.append_assoc]
        exact (Text.Reworded.refl _ front).append fun _ => .same _ (.same _ h)
      · exact .refl _ _
    split
    · rename_i ho
      split
      · rename_i raw rest hbody
        have hq := opens_quote ho
        obtain rfl := (Quotes.body_ok hbody).1
        have hrest := @later rest (by simp only [List.length_cons, List.length_append]; omega)
        have hback : decide (c = '\\') = false := by rcases hq with rfl | rfl <;> decide
        -- the code in the string is shorter than the text
        let code (source : List Char) : List Char :=
          if source.length < raw.length then text m spell source else source
        have hcode (source : List Char) : Text.Reworded false source (code source) := by
          by_cases hl : source.length < raw.length
          · have h := @later source
              (by simp only [List.length_cons, List.length_append]; omega)
            simpa [code, hl] using h
          · simpa [code, hl] using Text.Reworded.refl false source
        have hsame : Pieces.recode (text m spell) raw = Pieces.recode code raw :=
          Pieces.recode_congr fun source hl => by simp [code, hl]
        rw [hsame]
        refine .same c ((Pieces.recode_reworded hcode raw _).append fun _ => .same c ?_)
        rwa [hback]
      · exact .refl _ _
    split
    · exact .refl _ _
    · rename_i hc
      exact .same c (by rw [decide_eq_false hc]; exact later (Nat.lt_succ_self _))

end Respell

end StoryLang
