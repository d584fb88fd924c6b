/-
Texts that differ in runs of idle characters only.

`Text.Reworded` relates texts that are the same but for runs of characters that
mean nothing between quotes and in code, such as words and blanks. Neither
quotes nor braces are among those, so a string that is reworded ends where it
ended and has the same pieces, each of them reworded. A run right behind a
backslash is left alone: the backslash takes its first character along.
-/
import Mathlib.Data.List.Basic
import Mathlib.Data.List.Forall2
import StoryLang.Proofs.Hoist.Code
import StoryLang.Proofs.Token.Interpolation

namespace StoryLang

/-- A character that means nothing between quotes and in code. -/
def Text.isIdle (c : Char) : Bool := c ∉ ['\n', '"', '\'', '\\', '{', '}']

/-- The texts are the same but for idle runs. The flag says whether there is a
backslash in front. -/
inductive Text.Reworded : Bool → List Char → List Char → Prop where
  | nil {b} : Reworded b [] []
  | same {b cs cs'} (c : Char) (rest : Reworded (c = '\\') cs cs') :
    Reworded b (c :: cs) (c :: cs')
  | word {w w' cs cs'} (some : w ++ w' ≠ []) (old : ∀ c ∈ w, Text.isIdle c = true)
      (new : ∀ c ∈ w', Text.isIdle c = true) (rest : Reworded false cs cs') :
    Reworded false (w ++ cs) (w' ++ cs')

namespace Text.Reworded

theorem refl (b : Bool) (cs : List Char) : Reworded b cs cs := by
  induction cs generalizing b with
  | nil => exact .nil
  | cons c cs ih => exact .same c (ih _)

theorem append {b : Bool} {cs cs' ds ds' : List Char} (h : Reworded b cs cs')
    (hd : ∀ b, Reworded b ds ds') : Reworded b (cs ++ ds) (cs' ++ ds') := by
  induction h with
  | nil => exact hd _
  | same c _ ih => exact .same c ih
  | word some old new _ ih =>
    rw [List.append_assoc, List.append_assoc]
    exact .word some old new ih

theorem symm {b : Bool} {cs cs' : List Char} (h : Reworded b cs cs') : Reworded b cs' cs := by
  induction h with
  | nil => exact .nil
  | same c _ ih => exact .same c ih
  | word some old new _ ih => exact .word (by simpa [and_comm] using some) new old ih

/-- One idle run in the place of another. -/
theorem of_idle {w w' : List Char} (old : ∀ c ∈ w, isIdle c = true) (new : ∀ c ∈ w', isIdle c = true) :
    Reworded false w w' := by
  by_cases h : w ++ w' = []
  · obtain ⟨rfl, rfl⟩ := List.append_eq_nil_iff.1 h
    exact .nil
  · have hword : Reworded false (w ++ []) (w' ++ []) := .word h old new .nil
    simpa using hword

end Text.Reworded

theorem Text.isIdle_ne {c : Char} (h : isIdle c = true) :
    c ≠ '\n' ∧ c ≠ '"' ∧ c ≠ '\'' ∧ c ≠ '\\' ∧ c ≠ '{' ∧ c ≠ '}' := by
  simpa [isIdle] using h

/-- A character of a word means nothing between quotes and in code. -/
theorem Grammar.isIdle_of_isWordChar {c : Char} (h : isWordChar c = true) : Text.isIdle c = true := by
  simp only [Text.isIdle, List.mem_cons, List.not_mem_nil, or_false, not_or, decide_eq_true_eq]
  refine ⟨?_, ?_, ?_, ?_, ?_, ?_⟩ <;>
  · rintro rfl
    exact absurd h (by decide)

/-- Blanks mean nothing between quotes. -/
theorem Text.isIdle_gap {c : Char} (h : Spot.isGap c = true) : Text.isIdle c = true := by
  simp only [Text.isIdle, List.mem_cons, List.not_mem_nil, or_false, not_or, decide_eq_true_eq]
  refine ⟨?_, ?_, ?_, ?_, ?_, ?_⟩ <;>
  · rintro rfl
    exact absurd h (by decide)

/-! ## Between quotes -/

namespace Quotes

/-- Both stand in text, or as deep in code that may have been opened elsewhere. -/
inductive Level : Inside → Inside → Prop where
  | text : Level .text .text
  | code {opened opened' depth quoted} :
    Level (.code opened depth quoted) (.code opened' depth quoted)

variable {quote c : Char} {inside inside' : Inside}

theorem Level.afterCode {opened opened' : Position} (c : Char) (depth : Nat) (quoted : Bool) :
    Level (afterCode quote c opened depth quoted) (afterCode quote c opened' depth quoted) := by
  unfold Quotes.afterCode
  repeat' split
  all_goals first | exact .code | exact .text

/-- A text with a character in front of it. -/
theorem map_one {ε : Type} {c : Char} {cs rest : List Char} {x : Except ε (List Char × List Char)} :
    (x.map fun (text, after) => (c :: text, after)) = .ok (c :: cs, rest) ↔ x = .ok (cs, rest) := by
  cases x <;> simp [Except.map, Prod.ext_iff]

/-- A text with two characters in front of it. -/
theorem map_two {ε : Type} {c d : Char} {cs rest : List Char}
    {x : Except ε (List Char × List Char)} :
    (x.map fun (text, after) => (c :: d :: text, after)) = .ok (c :: d :: cs, rest) ↔
      x = .ok (cs, rest) := by
  cases x <;> simp [Except.map, Prod.ext_iff]

/-- An idle run between quotes leads to what comes behind it. -/
theorem body_idle (hq : quote = '"' ∨ quote = '\'') {w : List Char}
    (hw : ∀ c ∈ w, Text.isIdle c = true) (p : Position) (cs : List Char) :
    body quote inside p (w ++ cs) =
      (body quote inside (p.behind w) cs).map fun (text, rest) => (w ++ text, rest) := by
  induction w generalizing p with
  | nil => cases h : body quote inside p cs <;> simp [Position.behind, h, Except.map]
  | cons c w ih =>
    obtain ⟨hn, hd, ha, hb, ho, hcl⟩ := Text.isIdle_ne (hw c (by simp))
    have hcq : c ≠ quote := by rcases hq with rfl | rfl <;> assumption
    have hrest := ih (fun d hd => hw d (by simp [hd])) (p.after c)
    rw [List.cons_append, body.eq_def, show p.behind (c :: w) = (p.after c).behind w from rfl]
    cases inside with
    | text =>
      simp only [hn, hcq, hb, ho, if_false, hrest]
      cases body quote .text ((p.after c).behind w) cs <;> rfl
    | code opened depth quoted =>
      have hafter : Quotes.afterCode quote c opened depth quoted = .code opened depth quoted := by
        cases quoted <;> simp [Quotes.afterCode, hcq, ho, hcl]
      simp only [hn, hb, and_false, if_false, hafter, hrest]
      cases body quote (.code opened depth quoted) ((p.after c).behind w) cs <;> rfl

/-- The string that ends behind `cs` and `rest` is what `cs` is between its quotes. -/
def Closes (quote : Char) (inside : Inside) (p : Position) (cs rest : List Char) : Prop :=
  body quote inside p (cs ++ quote :: rest) = .ok (cs, rest)

/-- A string that is reworded ends where it ended. -/
theorem Closes.reworded (hq : quote = '"' ∨ quote = '\'') {b : Bool} {cs cs' rest : List Char}
    {p : Position} (hc : Closes quote inside p cs rest) (h : Text.Reworded b cs cs')
    (hi : Level inside inside') (p' : Position) (rest' : List Char) :
    Closes quote inside' p' cs' rest' := by
  induction hn : cs.length + cs'.length using Nat.strongRecOn generalizing b cs cs' inside inside' p p' with
  | ind n ih =>
  subst hn
  unfold Closes at hc ⊢
  have hqn : quote ≠ '\n' := by rcases hq with rfl | rfl <;> decide
  cases h with
  | nil =>
    rw [List.nil_append, body.eq_def] at hc ⊢
    cases hi with
    | text => simp [hqn]
    | code =>
      have hqb : quote ≠ '\\' := by rcases hq with rfl | rfl <;> decide
      simp [hqn, hqb, map_eq_ok] at hc
  | @word w w' ds ds' some old new h =>
    rw [List.append_assoc, body_idle hq old] at hc
    obtain ⟨⟨text, after⟩, hc, he⟩ := map_eq_ok.1 hc
    obtain ⟨rfl, rfl⟩ : text = ds ∧ after = rest := by simpa using he
    have hlen : text.length + ds'.length < (w ++ text).length + (w' ++ ds').length := by
      have := List.length_pos_iff.2 some
      simp only [List.length_append] at this ⊢
      omega
    rw [List.append_assoc, body_idle hq new, ih _ hlen hc h hi _ rfl]
    rfl
  | @same _ ds ds' c h =>
    have single {i i' : Inside} (hi : Level i i') {q : Position} (q' : Position)
        (hc : body quote i q (ds ++ quote :: rest) = .ok (ds, rest)) :
        body quote i' q' (ds' ++ quote :: rest') = .ok (ds', rest') :=
      ih _ (by simp only [List.length_cons]; omega) hc h hi _ rfl
    rw [List.cons_append, body.eq_def] at hc ⊢
    cases hi with
    | text =>
      dsimp only at hc ⊢
      split at hc
      · simp at hc
      split at hc
      · simp at hc
      rename_i hn hcq
      rw [if_neg hn, if_neg hcq]
      split at hc
      · rename_i hb
        rw [if_pos hb]
        -- a backslash takes along what comes next, and that is the same character
        rw [decide_eq_true hb] at h
        cases h with
        | nil => simp [hqn, map_eq_ok] at hc
        | @same _ es es' d h =>
          dsimp only [List.cons_append] at hc ⊢
          split at hc
          · simp at hc
          rename_i hd
          rw [if_neg hd]
          exact map_two.2 (ih _ (by simp only [List.length_cons]; omega) (map_two.1 hc) h .text _ rfl)
      · rename_i hb
        rw [if_neg hb]
        refine map_one.2 (single ?_ _ (map_one.1 hc))
        split
        · exact .code
        · exact .text
    | @code opened opened' depth quoted =>
      dsimp only at hc ⊢
      split at hc
      · simp at hc
      rename_i hn
      rw [if_neg hn]
      split at hc
      · rename_i hb
        rw [if_pos hb]
        rw [decide_eq_true hb.2] at h
        cases h with
        | nil => simp [hqn, map_eq_ok] at hc
        | @same _ es es' d h =>
          dsimp only [List.cons_append] at hc ⊢
          split at hc
          · simp at hc
          rename_i hd
          rw [if_neg hd]
          exact map_two.2 (ih _ (by simp only [List.length_cons]; omega) (map_two.1 hc) h .code _ rfl)
      · rename_i hb
        rw [if_neg hb]
        exact map_one.2 (single (.afterCode c depth quoted) _ (map_one.1 hc))

end Quotes

/-! ## Pieces -/

namespace Pieces

theorem code?_idle {depth : Nat} {opened : Option Char} {w : List Char}
    (hw : ∀ c ∈ w, Text.isIdle c = true) (ho : ∀ q ∈ opened, q = '"' ∨ q = '\'')
    (cs : List Char) : code? depth opened (w ++ cs) = (code? depth opened cs).map (w ++ ·) := by
  induction w with
  | nil => simp
  | cons c w ih =>
    obtain ⟨-, hd, ha, hb, hop, hcl⟩ := Text.isIdle_ne (hw c (by simp))
    rw [List.cons_append, code?.eq_def]
    cases opened with
    | none => simp [hd, ha, hop, hcl, ih fun d hd => hw d (by simp [hd]), Function.comp_def]
    | some q =>
      have hcq : c ≠ q := by rcases ho q rfl with rfl | rfl <;> assumption
      simp [hb, hcq, ih fun d hd => hw d (by simp [hd]), Function.comp_def]

/-- Code that is reworded ends where it ended. -/
theorem code?_reworded {b : Bool} {depth : Nat} {opened : Option Char} {cs cs' post : List Char}
    (h : Text.Reworded b cs cs') (ho : ∀ q ∈ opened, q = '"' ∨ q = '\'')
    (hc : code? depth opened (cs ++ '}' :: post) = some cs) (post' : List Char) :
    code? depth opened (cs' ++ '}' :: post') = some cs' := by
  induction hn : cs.length + cs'.length using Nat.strongRecOn generalizing b cs cs' depth opened with
  | ind n ih =>
  subst hn
  cases h with
  | nil =>
    rw [List.nil_append, code?.eq_def] at hc ⊢
    cases opened with
    | some q => simp at hc
    | none =>
      rcases depth with _ | _ | n
      · rfl
      · rfl
      · simp at hc
  | @word w w' ds ds' some old new h =>
    rw [List.append_assoc, code?_idle old ho] at hc
    obtain ⟨code, hc, he⟩ := Option.map_eq_some_iff.1 hc
    obtain rfl := List.append_cancel_left he
    have hlen : code.length + ds'.length < (w ++ code).length + (w' ++ ds').length := by
      have := List.length_pos_iff.2 some
      simp only [List.length_append] at this ⊢
      omega
    rw [List.append_assoc, code?_idle new ho, ih _ hlen h ho hc rfl]
    rfl
  | @same _ ds ds' c h =>
    have single {depth : Nat} {o : Option Char} (ho : ∀ q ∈ o, q = '"' ∨ q = '\'')
        (hc : (code? depth o (ds ++ '}' :: post)).map (c :: ·) = some (c :: ds)) :
        (code? depth o (ds' ++ '}' :: post')).map (c :: ·) = some (c :: ds') := by
      obtain ⟨code, hc, he⟩ := Option.map_eq_some_iff.1 hc
      obtain rfl : code = ds := by simpa using he
      rw [ih _ (by simp only [List.length_cons]; omega) h ho hc rfl]
      rfl
    rw [List.cons_append, code?.eq_def] at hc ⊢
    cases opened with
    | some q =>
      dsimp only at hc ⊢
      split at hc
      · rename_i hb
        rw [decide_eq_true hb] at h
        rw [if_pos hb]
        cases h with
        | nil => simp at hc
        | @same _ es es' d h =>
          obtain ⟨code, hc, he⟩ := Option.map_eq_some_iff.1 hc
          obtain rfl : code = es := by simpa using he
          dsimp only [List.cons_append]
          rw [ih _ (by simp only [List.length_cons]; omega) h ho hc rfl]
          rfl
      · rename_i hb
        rw [if_neg hb]
        refine single ?_ hc
        split
        · simp
        · exact ho
    | none =>
      dsimp only at hc ⊢
      split at hc
      · rename_i hq
        rw [if_pos hq]
        exact single (by simpa using hq) hc
      rename_i hq
      rw [if_neg hq]
      split at hc
      · rename_i hopen
        rw [if_pos hopen]
        exact single ho hc
      rename_i hopen
      rw [if_neg hopen]
      split at hc
      · rename_i hclose
        rw [if_pos hclose]
        rcases depth with _ | _ | n
        · simp at hc
        · simp at hc
        · exact single ho hc
      · rename_i hclose
        rw [if_neg hclose]
        exact single ho hc

/-- A piece with other code in its place. -/
def recodePiece (code : List Char → List Char) : Piece → List Char
  | .text raw => raw
  | .code source _ => '{' :: code source ++ ['}']

/-- A string with other code in the place of each of its codes. -/
def recode (code : List Char → List Char) (raw : List Char) : List Char :=
  (split raw).flatMap (recodePiece code)

/-- A piece of a string, and the one in its place: the same text, or related code. -/
inductive Alike (C : List Char → List Char → Prop) : Piece → Piece → Prop where
  | text (raw : List Char) : Alike C (.text raw) (.text raw)
  | code {source source' : List Char} (related : C source source') (offset offset' : Nat) :
    Alike C (.code source offset) (.code source' offset')

theorem alike_refl (p : Piece) : Alike Eq p p := by
  cases p with
  | text raw => exact .text raw
  | code source offset => exact .code rfl offset offset

variable {code : List Char → List Char} {C : List Char → List Char → Prop}

/-- Other code is made of the code in a string only, and that is shorter. -/
theorem recode_congr {code' : List Char → List Char} {raw : List Char}
    (h : ∀ source, source.length < raw.length → code source = code' source) :
    recode code raw = recode code' raw := by
  refine List.flatMap_congr fun p hp => ?_
  cases p with
  | text => rfl
  | code source offset =>
    obtain ⟨pre, post, hr, -⟩ := mem_split hp
    simp only [recodePiece]
    rw [h source (by simp only [hr, List.length_append, List.length_cons]; omega)]

theorem recode_reworded (hcode : ∀ source, Text.Reworded false source (code source))
    (raw : List Char) (b : Bool) : Text.Reworded b raw (recode code raw) := by
  have hall (ps : List Piece) : ∀ b,
      Text.Reworded b (ps.flatMap written) (ps.flatMap (recodePiece code)) := by
    induction ps with
    | nil => exact fun _ => .nil
    | cons p ps ih =>
      intro b
      cases p with
      | text raw => exact (Text.Reworded.refl b raw).append ih
      | code source offset =>
        simp only [List.flatMap_cons, written, recodePiece, List.append_assoc, List.cons_append]
        exact .same '{' ((hcode source).append fun b => .same '}' (ih _))
  have h := hall (split raw) b
  rwa [written_split] at h

theorem recodePiece_addText (cs : List Char) (ps : List Piece) :
    (addText cs ps).flatMap (recodePiece code) = cs ++ ps.flatMap (recodePiece code) := by
  unfold addText
  split <;> simp [recodePiece]

theorem Alike.addText (cs : List Char) {ps ps' : List Piece} (h : List.Forall₂ (Alike C) ps ps') :
    List.Forall₂ (Alike C) (addText cs ps) (addText cs ps') := by
  cases h with
  | nil => exact .cons (.text cs) .nil
  | cons hp h =>
    cases hp with
    | text raw => exact .cons (.text (cs ++ raw)) h
    | code related offset offset' => exact .cons (.text cs) (.cons (.code related offset offset') h)

theorem hasCode_alike {raw raw' : List Char} (h : List.Forall₂ (Alike C) (split raw) (split raw')) :
    hasCode raw' = hasCode raw := by
  unfold hasCode
  generalize split raw = ps, split raw' = ps' at h
  induction h with
  | nil => rfl
  | cons hp _ ih => cases hp <;> simp_all [Piece.isCode]

theorem splitFrom_plain {c : Char} (hb : c ≠ '\\') (ho : c ≠ '{') (n : Nat) (cs : List Char) :
    splitFrom 0 n (c :: cs) = addText [c] (splitFrom 0 (n + 1) cs) := by
  rw [splitFrom.eq_def]
  simp [hb, ho]

/-- Pieces of reworded code, counted from wherever. -/
theorem splitFrom_recode (hcode : ∀ source, Text.Reworded false source (code source))
    (raw : List Char) (n n' : Nat) :
    List.Forall₂ (Alike fun source source' => source' = code source) (splitFrom 0 n raw)
      (splitFrom 0 n' ((splitFrom 0 n raw).flatMap (recodePiece code))) := by
  induction hlen : raw.length using Nat.strongRecOn generalizing raw n n' with
  | ind len ih =>
  subst hlen
  cases raw with
  | nil => exact .nil
  | cons c cs =>
    by_cases hb : c = '\\'
    · subst hb
      cases cs with
      | nil => exact .cons (.text _) .nil
      | cons d ds =>
        simp only [splitFrom, if_true, recodePiece_addText, List.cons_append, List.nil_append]
        exact Alike.addText _ (ih ds.length (by simp only [List.length_cons]; omega) ds _ _ rfl)
    by_cases ho : c = '{'
    · subst ho
      cases hc : code? 1 none cs with
      | none =>
        have hs (n : Nat) : splitFrom 0 n ('{' :: cs) = [.text ('{' :: cs)] := by
          rw [splitFrom.eq_def]
          simp [hc, Pieces.addText]
        rw [hs]
        simp only [List.flatMap_cons, List.flatMap_nil, recodePiece, List.append_nil, hs]
        exact .cons (.text _) .nil
      | some source =>
        obtain ⟨post, rfl⟩ := code?_ok hc
        rw [splitFrom_code hc]
        simp only [List.flatMap_cons, recodePiece, List.append_assoc, List.cons_append,
          List.nil_append]
        rw [splitFrom_code (code?_reworded (hcode source) (by simp) hc _)]
        refine .cons (.code (by rfl) _ _) (ih post.length ?_ post _ _ rfl)
        simp only [List.length_cons, List.length_append]
        omega
    · rw [splitFrom_plain hb ho, recodePiece_addText, List.singleton_append, splitFrom_plain hb ho]
      exact Alike.addText _ (ih cs.length (Nat.lt_succ_self _) cs _ _ rfl)

/-- A string with reworded code has the same pieces but for that. -/
theorem split_recode (hcode : ∀ source, Text.Reworded false source (code source)) (raw : List Char) :
    List.Forall₂ (Alike fun source source' => source' = code source) (split raw)
      (split (recode code raw)) :=
  splitFrom_recode hcode raw 0 0

/-- From where characters are counted matters only to the offsets of codes. -/
theorem splitFrom_counted (raw : List Char) (n n' : Nat) :
    List.Forall₂ (Alike Eq) (splitFrom 0 n raw) (splitFrom 0 n' raw) := by
  have h := @splitFrom_recode id (fun source => .refl false source) raw n n'
  have hsame : (splitFrom 0 n raw).flatMap (recodePiece id) = raw := by
    have hpiece : recodePiece id = written := by
      funext p
      cases p <;> rfl
    rw [hpiece, written_splitFrom, List.drop_zero]
  rw [hsame] at h
  refine h.imp fun p p' hp => ?_
  cases hp with
  | text raw => exact .text raw
  | code related offset offset' => exact .code related.symm offset offset'

theorem addText_code (cs : List Char) (ps : List Piece) (source : List Char) (offset : Nat)
    (rest : List Piece) :
    addText cs (ps ++ .code source offset :: rest) = addText cs ps ++ .code source offset :: rest := by
  match ps with
  | [] => rfl
  | .text raw :: ps => rfl
  | .code source' offset' :: ps => rfl

/-- The pieces of the start of a string, behind which any code can stand. -/
def Fronts (n : Nat) (front : List Char) (ps : List Piece) : Prop :=
  ∀ code tail : List Char, code? 1 none (code ++ '}' :: tail) = some code →
    splitFrom 0 n (front ++ '{' :: (code ++ '}' :: tail)) =
      ps ++ .code code (n + front.length + 1) ::
        splitFrom 0 (n + front.length + 1 + (code.length + 1)) tail

/-- If a string has a code at a place, any other code can stand there. -/
theorem splitFrom_at {front source rest : List Char} {n : Nat}
    (h : .code source (n + front.length + 1) ∈ splitFrom 0 n (front ++ '{' :: (source ++ '}' :: rest))) :
    code? 1 none (source ++ '}' :: rest) = some source ∧ ∃ ps, Fronts n front ps := by
  induction hlen : front.length using Nat.strongRecOn generalizing front n with
  | ind len ih =>
  subst hlen
  -- what is in front of a shorter front is a run of text
  have text {cs shorter : List Char} (hf : front = cs ++ shorter) (hne : cs ≠ [])
      (hs : ∀ tail, splitFrom 0 n (front ++ '{' :: tail) =
        addText cs (splitFrom 0 (n + cs.length) (shorter ++ '{' :: tail))) :
      code? 1 none (source ++ '}' :: rest) = some source ∧ ∃ ps, Fronts n front ps := by
    have hpos := List.length_pos_iff.2 hne
    have hplace : n + front.length = n + cs.length + shorter.length := by
      rw [hf, List.length_append]
      omega
    rw [hs, mem_addText, hplace] at h
    obtain ⟨hsource, ps, hps⟩ := ih shorter.length (by rw [hf, List.length_append]; omega) h rfl
    refine ⟨hsource, addText cs ps, fun code tail hcode => ?_⟩
    rw [hs, hps code tail hcode, addText_code, hplace]
  cases front with
  | nil =>
    rw [List.nil_append] at h
    cases hc : code? 1 none (source ++ '}' :: rest) with
    | none =>
      rw [splitFrom.eq_def] at h
      simp [hc, mem_addText] at h
    | some code =>
      obtain ⟨post, hpost⟩ := code?_ok hc
      rw [hpost] at h hc
      rw [splitFrom_code hc] at h
      rcases List.mem_cons.1 h with h | h
      · obtain rfl : source = code := by simpa using h
        refine ⟨rfl, [], fun code tail hcode => ?_⟩
        simpa using splitFrom_code hcode n
      · obtain ⟨pre, _, -, hoffset⟩ := mem_splitFrom h
        simp only [List.length_nil] at hoffset
        omega
  | cons c front =>
    by_cases hb : c = '\\'
    · subst hb
      cases front with
      | nil =>
        rw [List.singleton_append, splitFrom.eq_def] at h
        simp only [if_true, mem_addText] at h
        obtain ⟨pre, _, -, hoffset⟩ := mem_splitFrom h
        simp only [List.length_singleton] at hoffset
        omega
      | cons d front =>
        refine @text ['\\', d] front rfl (by simp) fun tail => ?_
        simp [splitFrom]
    by_cases ho : c = '{'
    · subst ho
      rw [List.cons_append] at h
      cases hc : code? 1 none (front ++ '{' :: (source ++ '}' :: rest)) with
      | none =>
        rw [splitFrom.eq_def] at h
        simp [hc, mem_addText] at h
      | some code =>
        obtain ⟨post, hpost⟩ := code?_ok hc
        rw [hpost] at h hc
        rw [splitFrom_code hc, List.mem_cons] at h
        have h := h.resolve_left fun he => by simp at he
        -- the code in front ends in front of the other one
        obtain ⟨pre, _, -, hoffset⟩ := mem_splitFrom h
        obtain ⟨shorter, rfl, hmore⟩ : ∃ shorter, front = code ++ '}' :: shorter ∧
            post = shorter ++ '{' :: (source ++ '}' :: rest) := by
          simp only [List.length_cons] at hoffset
          rcases List.append_eq_append_iff.1 hpost with ⟨as, rfl, -⟩ | ⟨as, rfl, has⟩
          · simp only [List.length_append] at hoffset
            omega
          · cases as with
            | nil =>
              simp only [List.append_nil] at hoffset
              omega
            | cons a shorter =>
              obtain ⟨rfl, hmore⟩ := List.cons.inj has
              exact ⟨shorter, rfl, hmore⟩
        have hplace : n + ('{' :: (code ++ '}' :: shorter)).length =
            n + 1 + (code.length + 1) + shorter.length := by
          simp only [List.length_cons, List.length_append]
          omega
        rw [hmore, hplace] at h
        obtain ⟨hsource, ps, hps⟩ :=
          ih shorter.length (by simp only [List.length_cons, List.length_append]; omega) h rfl
        refine ⟨hsource, .code code (n + 1) :: ps, fun code' tail hcode => ?_⟩
        have hfront := code?_reworded (.refl false code) (by simp) hc
        rw [List.cons_append, List.append_assoc, List.cons_append, splitFrom_code (hfront _), hps _ _ hcode,
          hplace]
        rfl
    · exact @text [c] front rfl (by simp) fun tail => splitFrom_plain hb ho n _

/-- A string with another code in the place of one of its own has the same pieces but for that. -/
theorem split_at {front source source' rest : List Char} (hw : Text.Reworded false source source')
    (h : .code source (front.length + 1) ∈ split (front ++ '{' :: (source ++ '}' :: rest))) :
    ∃ ps qs qs', split (front ++ '{' :: (source ++ '}' :: rest)) =
        ps ++ .code source (front.length + 1) :: qs ∧
      split (front ++ '{' :: (source' ++ '}' :: rest)) = ps ++ .code source' (front.length + 1) :: qs' ∧
      List.Forall₂ (Alike Eq) qs qs' := by
  rw [← Nat.zero_add front.length] at h ⊢
  obtain ⟨hc, ps, hps⟩ := splitFrom_at h
  have hc' := code?_reworded hw (by simp) hc rest
  exact ⟨ps, _, _, hps source rest hc, hps source' rest hc', splitFrom_counted rest _ _⟩

/-- A string without code stays as it is. -/
theorem recode_text {raw : List Char} (h : hasCode raw = false) : recode code raw = raw := by
  have hp : ∀ p ∈ split raw, recodePiece code p = written p := by
    intro p hp
    cases p with
    | text => rfl
    | code => simpa [Piece.isCode] using List.any_eq_false.1 h _ hp
  rw [recode, List.flatMap_congr hp]
  exact written_split raw

end Pieces

end StoryLang
