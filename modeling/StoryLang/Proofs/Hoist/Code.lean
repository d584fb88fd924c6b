/-
The code of a string: where it stands in the string, and what is read from it.

A code is a stretch of its string between two braces. Its tokens stand on the
line of the string, within the columns of the stretch, and are shorter than
the string; the value they spell is formed like any other.
-/
import StoryLang.Hoist.Basic
import StoryLang.Proofs.Token.Follow
import StoryLang.Proofs.Tree.Form
import StoryLang.Proofs.Tree.Reading.Statement

namespace StoryLang

namespace Pieces

theorem code?_ok {depth : Nat} {quote : Option Char} {cs code : List Char}
    (h : code? depth quote cs = some code) : ∃ post, cs = code ++ '}' :: post := by
  fun_induction code? depth quote cs generalizing code
  case case1 | case2 => simp at h
  case case7 | case8 =>
    obtain rfl : [] = code := by simpa using h
    exact ⟨_, rfl⟩
  case case3 ih | case4 ih | case5 ih | case6 ih | case9 ih | case10 ih =>
    obtain ⟨code', h', rfl⟩ := Option.map_eq_some_iff.1 h
    obtain ⟨post, rfl⟩ := ih h'
    exact ⟨post, rfl⟩

theorem mem_addText {cs : List Char} {ps : List Piece} {source : List Char} {offset : Nat} :
    .code source offset ∈ addText cs ps ↔ .code source offset ∈ ps := by
  unfold addText
  split <;> simp

/-- A code stands between two braces, behind as many characters as it says. -/
theorem mem_splitFrom {skip from_ : Nat} {cs source : List Char} {offset : Nat}
    (h : .code source offset ∈ splitFrom skip from_ cs) :
    ∃ pre post, cs = pre ++ '{' :: source ++ '}' :: post ∧ offset = from_ + pre.length + 1 := by
  fun_induction splitFrom skip from_ cs
  case case1 => simp at h
  case case3 | case5 => simp [mem_addText] at h
  case case2 skip from_ c cs ih =>
    obtain ⟨pre, post, rfl, rfl⟩ := ih h
    exact ⟨c :: pre, post, rfl, by simp only [List.length_cons]; omega⟩
  case case4 from_ d ds ih =>
    obtain ⟨pre, post, rfl, rfl⟩ := ih (mem_addText.1 h)
    exact ⟨'\\' :: d :: pre, post, rfl, by simp only [List.length_cons]; omega⟩
  case case7 from_ c cs _ _ ih =>
    obtain ⟨pre, post, rfl, rfl⟩ := ih (mem_addText.1 h)
    exact ⟨c :: pre, post, rfl, by simp only [List.length_cons]; omega⟩
  case case6 from_ cs code hcode _ ih =>
    rcases List.mem_cons.1 h with h | h
    · obtain ⟨rfl, rfl⟩ : source = code ∧ offset = from_ + 1 := by simpa using h
      obtain ⟨post, rfl⟩ := code?_ok hcode
      exact ⟨[], post, rfl, rfl⟩
    · obtain ⟨pre, post, rfl, rfl⟩ := ih h
      exact ⟨'{' :: pre, post, rfl, by simp only [List.length_cons]; omega⟩

theorem mem_split {raw source : List Char} {offset : Nat} (h : .code source offset ∈ split raw) :
    ∃ pre post, raw = pre ++ '{' :: source ++ '}' :: post ∧ offset = pre.length + 1 := by
  obtain ⟨pre, post, hr, ho⟩ := mem_splitFrom h
  exact ⟨pre, post, hr, by omega⟩

/-- A piece as it was written. -/
def written : Piece → List Char
  | .text raw => raw
  | .code source _ => '{' :: source ++ ['}']

theorem written_addText (cs : List Char) (ps : List Piece) :
    (addText cs ps).flatMap written = cs ++ ps.flatMap written := by
  unfold addText
  split <;> simp [written]

theorem written_splitFrom (skip from_ : Nat) (cs : List Char) :
    (splitFrom skip from_ cs).flatMap written = cs.drop skip := by
  fun_induction splitFrom skip from_ cs
  case case1 => simp
  case case2 ih => exact ih
  case case3 | case5 => simp [written_addText]
  case case4 ih | case7 ih => simp [written_addText, ih]
  case case6 hcode _ ih =>
    obtain ⟨post, rfl⟩ := code?_ok hcode
    simp [written, ih, List.drop_append]

/-- The pieces of a string are next to each other, and nothing of it is lost. -/
theorem written_split (raw : List Char) : (split raw).flatMap written = raw :=
  written_splitFrom 0 0 raw

theorem text_of_addText {front raw : List Char} {ps : List Piece}
    (h : .text raw ∈ addText front ps) :
    raw = front ∨ ∃ raw', .text raw' ∈ ps ∧ (raw = front ++ raw' ∨ raw = raw') := by
  unfold addText at h
  split at h
  · rename_i raw' rest
    rcases List.mem_cons.1 h with h | h
    · exact .inr ⟨raw', by simp, .inl (by simpa using h)⟩
    · exact .inr ⟨raw, by simp [h], .inr rfl⟩
  · rcases List.mem_cons.1 h with h | h
    · exact .inl (by simpa using h)
    · exact .inr ⟨raw, h, .inr rfl⟩

theorem isCode_addText {front : List Char} {ps : List Piece} (h : ∀ p ∈ ps, p.isCode = false) :
    ∀ p ∈ addText front ps, p.isCode = false := by
  unfold addText
  split <;> simp_all [Piece.isCode]

/-- There is no code in a run of text. -/
theorem text_noCode {skip from_ : Nat} {cs raw : List Char}
    (h : .text raw ∈ splitFrom skip from_ cs) :
    ∀ n, ∀ p ∈ splitFrom 0 n raw, p.isCode = false := by
  have hescape : ∀ (d : Char) (raw : List Char), (∀ n, ∀ p ∈ splitFrom 0 n raw, p.isCode = false) →
      ∀ n, ∀ p ∈ splitFrom 0 n ('\\' :: d :: raw), p.isCode = false := by
    intro d raw h n
    simpa [splitFrom] using isCode_addText (h (n + 2))
  have hother : ∀ (c : Char) (raw : List Char), c ≠ '\\' → c ≠ '{' →
      (∀ n, ∀ p ∈ splitFrom 0 n raw, p.isCode = false) →
        ∀ n, ∀ p ∈ splitFrom 0 n (c :: raw), p.isCode = false := by
    intro c raw hb ho h n
    rw [splitFrom.eq_def]
    simpa [hb, ho] using isCode_addText (h (n + 1))
  fun_induction splitFrom skip from_ cs generalizing raw
  case case1 => simp at h
  case case2 ih => exact ih h
  case case3 =>
    obtain rfl : raw = ['\\'] := by simpa [addText] using h
    simp [splitFrom, addText, Piece.isCode]
  case case4 from_ d ds ih =>
    rcases text_of_addText h with rfl | ⟨raw', hm, rfl | rfl⟩
    · exact hescape d [] (by simp [splitFrom])
    · exact hescape d raw' (ih hm)
    · exact ih hm
  case case5 from_ cs hcode _ =>
    obtain rfl : raw = '{' :: cs := by simpa [addText] using h
    intro n
    rw [splitFrom.eq_def]
    simp [hcode, addText, Piece.isCode]
  case case6 ih => exact ih (by simpa using h)
  case case7 from_ c cs hb ho ih =>
    rcases text_of_addText h with rfl | ⟨raw', hm, rfl | rfl⟩
    · exact hother c [] hb ho (by simp [splitFrom])
    · exact hother c raw' hb ho (ih hm)
    · exact ih hm

theorem hasCode_text {raw text : List Char} (h : .text text ∈ split raw) : hasCode text = false := by
  simpa [hasCode, split] using text_noCode h 0

end Pieces

namespace Hoist

/-- A value that is spelled by tokens on one line, within some columns of it. -/
structure IsCode (g : Grammar) (start : Position) (columns : Nat) (v : Tree) (used : List Token) :
    Prop where
  derived : Derives g .anyValue used [v]
  sound : ∀ u ∈ used, u.Sound
  flat : ∀ u ∈ used, u.kind.isLayout = false
  line : ∀ u ∈ used, u.line = start.line
  within : ∀ u ∈ used, start.column ≤ u.column ∧ u.column + u.width ≤ start.column + columns
  order : used.Pairwise fun t u => t.column + t.width ≤ u.column

namespace IsCode

variable {g : Grammar} {start : Position} {n : Nat} {v : Tree} {used : List Token}

theorem formed (h : IsCode g start n v used) : Formed Token.Sound g .read v :=
  (h.derived.formed_one h.sound).2

theorem value (h : IsCode g start n v used) : v.fits .read = true :=
  (h.derived.formed_one h.sound).1.1

theorem noBlock (h : IsCode g start n v used) : ∀ p ∈ v.parts, p.isA .block = false :=
  (h.derived.formed_one h.sound).1.2

theorem yield (h : IsCode g start n v used) : ∀ u ∈ v.yield, u ∈ used :=
  fun u hu => h.derived.yield_subset u (by simpa [Tree.yieldAll] using hu)

/-- The literals of a code are no longer than the code. -/
theorem short (h : IsCode g start n v used) : ∀ u ∈ v.yield, u.literal.length ≤ n := by
  intro u hu
  have hw := h.within u (h.yield u hu)
  have : u.literal.length ≤ u.width := by
    unfold Token.width
    split <;> omega
  omega

end IsCode

/-- The same token at another place. -/
def moved (start : Position) (t : Token) : Token := { t with position := shift start t.position }

theorem Sound.moved {start : Position} {t : Token} (h : t.Sound) : (moved start t).Sound :=
  ⟨h.int, h.float, h.name, h.string⟩

theorem moved_place (start : Position) {t : Token} (hl : t.line = 1) (hc : 1 ≤ t.column) :
    (moved start t).line = start.line ∧ (moved start t).column + 1 = start.column + t.column := by
  have hs : shift start t.position = ⟨start.line, start.column + t.position.column - 1⟩ :=
    if_pos hl
  simp only [Token.line, Token.column, moved] at hc ⊢
  rw [hs]
  exact ⟨rfl, by dsimp only; omega⟩

theorem missingEnd_moved {text : List Char} {tokens : List Token} (h : Scans text tokens)
    (start : Position) : Cursor.missingEnd (tokens.map (moved start)) = [] := by
  obtain ⟨front, last, rfl, hk⟩ := h.ended
  simp [Cursor.missingEnd, moved, hk]

/-- What is read from the code of a string is spelled by moved tokens of a scan of it. -/
theorem readCode_derives {m : ScanMode} (hg : m.grammar.KeepsLayout) {source : List Char}
    {start : Position} {v : Tree} (h : readCode m source start = .ok v) :
    ∃ tokens used, Scans (Text.dropMark source) tokens ∧ used.Sublist (tokens.map (moved start)) ∧
      Derives m.grammar .anyValue used [v] := by
  unfold readCode at h
  split at h
  · simp at h
  · rename_i tokens ht
    have hs := scan_ok ht
    change Tree.ofFragment m.grammar (tokens.map (moved start)) = .ok v at h
    obtain ⟨used, hp, hd⟩ := Tree.ofFragment_ok hg h
    rw [missingEnd_moved hs, List.append_nil] at hp
    exact ⟨tokens, used, hs, hp.sublist, hd⟩

theorem sound_moved {text : List Char} {tokens used : List Token} {start : Position}
    (hs : Scans text tokens) (hp : used.Sublist (tokens.map (moved start))) :
    ∀ u ∈ used, u.Sound := by
  intro u hu
  obtain ⟨t, ht, rfl⟩ := List.mem_map.1 (hp.subset hu)
  exact Sound.moved (hs.valid t ht).sound

/-- What is read from the code of a string, if the code stays on its line. -/
theorem readCode_ok {m : ScanMode} (hg : m.grammar.KeepsLayout) {source : List Char}
    {start : Position} {v : Tree} (hl : '\n' ∉ source) (h : readCode m source start = .ok v) :
    ∃ used, IsCode m.grammar start source.length v used := by
  obtain ⟨tokens, used, hs, hp, hd⟩ := readCode_derives hg h
  have hflat := hd.flat hg rfl
  have hlen := Text.length_dropMark source
  -- every token is a moved one of the only line
  have hfrom : ∀ u ∈ used, ∃ t ∈ tokens, u = moved start t ∧ t.kind.isLayout = false := by
    intro u hu
    obtain ⟨t, ht, rfl⟩ := List.mem_map.1 (hp.subset hu)
    exact ⟨t, ht, rfl, hflat (moved start t) hu⟩
  have hcol : ∀ t ∈ tokens, t.kind.isLayout = false → t.line = 1 ∧ 1 ≤ t.column ∧
      t.column + t.width ≤ 1 + source.length := by
    intro t ht hk
    have := hs.columns (Text.not_mem_dropMark hl) ht hk
    have := (hs.valid t ht).place
    omega
  refine ⟨used, hd, sound_moved hs hp, hflat, ?_, ?_, ?_⟩
  · intro u hu
    obtain ⟨t, ht, rfl, hk⟩ := hfrom u hu
    obtain ⟨hline, hc, -⟩ := hcol t ht hk
    exact (moved_place start hline hc).1
  · intro u hu
    obtain ⟨t, ht, rfl, hk⟩ := hfrom u hu
    obtain ⟨hline, hc, hw⟩ := hcol t ht hk
    have hp := (moved_place start hline hc).2
    have hwidth : (moved start t).width = t.width := rfl
    omega
  · have ho : (tokens.map (moved start)).Pairwise fun t u => t.kind.isLayout = false →
        u.kind.isLayout = false → t.column + t.width ≤ u.column := by
      refine List.pairwise_map.2 (hs.order.imp_of_mem fun {t u} ht hu htu hk hk' => ?_)
      obtain ⟨hline, hc, -⟩ := hcol t ht hk
      obtain ⟨hline', hc', -⟩ := hcol u hu hk'
      have hb := (htu.before hk').columns hk
      have hp := (moved_place start hline hc).2
      have hp' := (moved_place start hline' hc').2
      have hwidth : (moved start t).width = t.width := rfl
      simp only [Token.line, Token.column] at *
      omega
    exact (ho.sublist hp).imp_of_mem fun ht hu htu => htu (hflat _ ht) (hflat _ hu)

/-- A string in what is read from a code is no longer than the code. -/
theorem readCode_short {m : ScanMode} (hg : m.grammar.KeepsLayout) {source : List Char}
    {start : Position} {v : Tree} (h : readCode m source start = .ok v) {u : Token} (hu : u ∈ v.yield)
    (hk : u.kind = .string) : u.literal.length ≤ source.length := by
  obtain ⟨tokens, used, hs, hp, hd⟩ := readCode_derives hg h
  obtain ⟨t, ht, rfl⟩ := List.mem_map.1
    (hp.subset (hd.yield_subset _ (by simpa [Tree.yieldAll] using hu)))
  obtain ⟨front, quote, rest, after, htext, -, -, hbody⟩ := hs.strings t ht hk
  have hlen := congrArg List.length htext
  rw [(Quotes.body_ok hbody).1] at hlen
  have := Text.length_dropMark source
  simp only [List.length_append, List.length_cons, String.length_toList] at hlen
  show t.literal.length ≤ source.length
  omega

theorem readCode_error {m : ScanMode} (hg : m.grammar.KeepsLayout) {source : List Char}
    {start : Position} {f : Fault} (h : readCode m source start = .error f) :
    f.OfStory := by
  unfold readCode at h
  split at h
  · obtain rfl := Except.error.inj h
    exact LexFault.ofStory _
  · exact Tree.ofFragment_error hg h

end Hoist

end StoryLang
