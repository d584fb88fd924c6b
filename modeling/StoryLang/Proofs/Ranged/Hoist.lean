/-
Cutting strings by numbers stays in range.

A brace is looked for where the code is at least one brace deep, so that the
count never goes below zero, and a piece stands between bytes that characters
start at. Tokens and faults have places counted from one, which leaves
something to take one from.
-/
import StoryLang.Proofs.Hoist.Code
import StoryLang.Proofs.Ranged.Scan
import StoryLang.Proofs.Ranged.Tree
import StoryLang.Proofs.Token.Interpolation
import StoryLang.Proofs.Token.Relocated
import StoryLang.Ranged.Hoist

namespace StoryLang.Ranged

variable {raw cs ds text code : List Char} {c : Char} {depth fuel : Nat}

/-! ## Pieces -/

theorem getElem?_raw (h : raw = cs ++ c :: ds) : (charIndices 0 raw)[cs.length]? = some (size cs, c) := by
  rw [h, getElem?_charIndices, Nat.zero_add]

theorem matchingBrace_end {quote : Option Char} {i : Nat} (h : raw.length ≤ i) :
    matchingBrace (charIndices 0 raw) (fuel + 1) depth quote i = some none := by
  rw [matchingBrace, if_neg (by rw [length_charIndices]; omega)]

/-- With enough steps, the brace is found behind the code. -/
def Finds (depth : Nat) (quote : Option Char) (cs : List Char) : Prop :=
  ∀ raw front fuel, raw = front ++ cs → cs.length < fuel →
    matchingBrace (charIndices 0 raw) fuel depth quote front.length =
      some ((Pieces.code? depth quote cs).map fun code => front.length + code.length)

/-- The characters that were passed are part of the code. -/
theorem Finds.behind {quote : Option Char} {front : List Char} (h : Finds depth quote cs)
    (passed : List Char) (hraw : raw = front ++ (passed ++ cs)) (hf : cs.length < fuel) :
    matchingBrace (charIndices 0 raw) fuel depth quote (front.length + passed.length) =
      some (((Pieces.code? depth quote cs).map (passed ++ ·)).map fun code =>
        front.length + code.length) := by
  have hnext := h raw (front ++ passed) fuel (by rw [hraw, List.append_assoc]) hf
  rw [List.length_append] at hnext
  rw [hnext]
  cases Pieces.code? depth quote cs with
  | none => rfl
  | some code => simp [Nat.add_assoc]

theorem finds_code? {quote : Option Char} (hdepth : 1 ≤ depth) : Finds depth quote cs := by
  fun_induction Pieces.code? depth quote cs <;> intro raw front fuel hraw hf
  all_goals
    obtain ⟨fuel, rfl⟩ := Nat.exists_eq_add_one_of_ne_zero (Nat.ne_zero_of_lt hf)
  case case1 => exact matchingBrace_end (by simp [hraw])
  all_goals
    rw [matchingBrace, if_pos (by rw [length_charIndices, hraw]; simp), getElem?_raw hraw,
      Option.bind_eq_bind, Option.bind_some, Pieces.code?.eq_def]
    simp only [List.length_cons, Nat.add_lt_add_iff_right] at hf
  case case2 =>
    obtain ⟨fuel, rfl⟩ := Nat.exists_eq_add_one_of_ne_zero (Nat.ne_zero_of_lt hf)
    simpa using matchingBrace_end (i := front.length + 2) (by simp [hraw])
  case case3 q d ds ih =>
    simpa using (ih hdepth).behind ['\\', d] hraw (by omega)
  case case4 hc ih => simpa [hc] using (ih hdepth).behind [_] hraw hf
  case case5 hc ih => simpa [hc] using (ih hdepth).behind [_] hraw hf
  case case6 hc ih => simpa [hc] using (ih (Nat.le_add_left 1 _)).behind [_] hraw hf
  case case7 => omega
  case case8 => simp [minus?]
  case case9 ih =>
    simpa [minus?] using (ih (Nat.le_add_left 1 _)).behind ['}'] hraw hf
  case case10 hc ho hcl ih => simpa [hc, ho, hcl] using (ih hdepth).behind [_] hraw hf

/-- From its opening brace on, the brace that ends the code is found. -/
theorem matchingBrace_open {front : List Char} (hraw : raw = front ++ '{' :: cs) :
    matchingBrace (charIndices 0 raw) ((charIndices 0 raw).length + 1) 0 none front.length =
      some ((Pieces.code? 1 none cs).map fun code => front.length + 1 + code.length) := by
  have hfinds : Finds 1 none cs := finds_code? (Nat.le_refl 1)
  have hnext := hfinds raw (front ++ ['{']) raw.length (by simp [hraw]) (by simp [hraw]; omega)
  rw [List.length_append, List.length_singleton] at hnext
  rw [length_charIndices, matchingBrace, if_pos (by rw [length_charIndices, hraw]; simp),
    getElem?_raw hraw, Option.bind_eq_bind, Option.bind_some]
  exact hnext

/-- The pieces with a run of text in front that may be empty. -/
def inFront (text : List Char) (ps : List Piece) : List Piece :=
  if text = [] then ps else Pieces.addText text ps

theorem inFront_addText (text : List Char) (ps : List Piece) (hcs : cs ≠ []) :
    inFront text (Pieces.addText cs ps) = inFront (text ++ cs) ps := by
  unfold inFront
  by_cases ht : text = []
  · simp [ht, hcs]
  · rw [if_neg ht, if_neg (by simp [ht])]
    match ps with
    | [] => rfl
    | .text raw :: ps => simp [Pieces.addText]
    | .code source offset :: ps => rfl

theorem inFront_code (text source : List Char) (offset : Nat) (ps : List Piece) :
    inFront text (.code source offset :: ps) = inFront text [] ++ .code source offset :: ps := by
  unfold inFront
  split <;> rfl

theorem textPiece_eq {front back : List Char} (hraw : raw = front ++ (text ++ back)) :
    textPiece raw (size front) (size (front ++ text)) = some (inFront text []) := by
  unfold textPiece inFront
  rw [size_append, hraw, bytes?_between]
  cases text with
  | nil => simp [size]
  | cons c cs =>
    have := c.utf8Size_pos
    rw [if_pos (by rw [size_cons]; omega), if_neg (List.cons_ne_nil _ _)]
    rfl

theorem textPiece_last {front : List Char} (hraw : raw = front ++ text) :
    textPiece raw (size front) (size raw) = some (inFront text []) := by
  have h := textPiece_eq (hraw.trans (congrArg (front ++ ·) (List.append_nil text).symm))
  rwa [← hraw] at h

theorem splitFrom_end {front : List Char} {i : Nat} (hraw : raw = front ++ text)
    (hi : raw.length ≤ i) :
    splitFrom raw (charIndices 0 raw) (fuel + 1) (size front) i = some (inFront text []) := by
  rw [splitFrom, if_neg (by rw [length_charIndices]; omega), textPiece_last hraw]

/-- A code is cut off with the text in front of it, and cutting goes on behind its closing brace. -/
theorem splitFrom_code {front after : List Char}
    (hraw : raw = front ++ text ++ ['{'] ++ code ++ '}' :: after)
    (hcode : Pieces.code? 1 none (code ++ '}' :: after) = some code) :
    splitFrom raw (charIndices 0 raw) (fuel + 1) (size front) (front ++ text).length =
      (splitFrom raw (charIndices 0 raw) fuel (size (front ++ text ++ ['{'] ++ code ++ ['}']))
        (front ++ text ++ ['{'] ++ code ++ ['}']).length).map fun ps =>
          inFront text [] ++ .code code ((front ++ text).length + 1) :: ps := by
  have hopen : raw = (front ++ text) ++ '{' :: (code ++ '}' :: after) := by simp [hraw]
  have hlength : (front ++ text).length + 1 + code.length =
      (front ++ text ++ ['{'] ++ code).length := by
    simp [Nat.add_assoc, Nat.add_comm, Nat.add_left_comm]
  have hsource : bytes? raw (size (front ++ text) + 1) (size (front ++ text ++ ['{'] ++ code)) =
      some code := by
    have hopened : size (front ++ text ++ ['{']) = size (front ++ text) + 1 := size_concat rfl _
    rw [← hopened, size_append _ code, hraw, List.append_assoc _ code, bytes?_between]
  rw [splitFrom, if_pos (by rw [length_charIndices, hopen]; simp), getElem?_raw hopen]
  simp only [Option.bind_eq_bind, Option.bind_some, matchingBrace_open hopen, hcode, Option.map_some,
    hlength, getElem?_raw hraw, textPiece_eq (hopen.trans (List.append_assoc _ _ _)), hsource]
  have hlast : (front ++ text ++ ['{'] ++ code ++ ['}']).length =
      (front ++ text ++ ['{'] ++ code).length + 1 := List.length_append
  rw [if_neg (by decide), if_pos trivial, size_concat rfl, hlast]
  cases splitFrom raw (charIndices 0 raw) fuel _ _ <;> rfl

/-- What is not cut yet is text that stands in front of the other pieces. -/
theorem splitFrom_eq {front : List Char} (hraw : raw = front ++ (text ++ cs))
    (hf : cs.length < fuel) :
    splitFrom raw (charIndices 0 raw) fuel (size front) (front ++ text).length =
      some (inFront text (Pieces.splitFrom 0 (front ++ text).length cs)) := by
  induction fuel generalizing front text cs with
  | zero => omega
  | succ fuel ih =>
  cases cs with
  | nil =>
    rw [List.append_nil] at hraw
    exact splitFrom_end hraw (by rw [hraw])
  | cons c cs =>
    simp only [List.length_cons, Nat.add_lt_add_iff_right] at hf
    by_cases hcode : c = '{' ∧ (Pieces.code? 1 none cs).isSome
    · obtain ⟨rfl, hcode⟩ := hcode
      obtain ⟨code, hcode⟩ := Option.isSome_iff_exists.1 hcode
      obtain ⟨after, rfl⟩ := Pieces.code?_ok hcode
      have hbraces : raw = front ++ text ++ ['{'] ++ code ++ '}' :: after := by simp [hraw]
      have hnext := @ih after [] (front ++ text ++ ['{'] ++ code ++ ['}'])
        (by simp [hraw]) (by simp at hf; omega)
      rw [List.append_nil] at hnext
      rw [splitFrom_code hbraces hcode, hnext, Option.map_some, Pieces.splitFrom_code hcode, inFront_code]
      simp [inFront, Nat.add_assoc, Nat.add_comm, Nat.add_left_comm]
    rw [splitFrom, if_pos (by rw [length_charIndices, hraw]; simp), Pieces.splitFrom.eq_def,
      getElem?_raw (hraw.trans (List.append_assoc _ _ _).symm), Option.bind_eq_bind, Option.bind_some]
    by_cases hb : c = '\\'
    · subst hb
      dsimp only
      rw [if_pos rfl, if_pos rfl]
      cases cs with
      | nil =>
        obtain ⟨fuel, rfl⟩ := Nat.exists_eq_add_one_of_ne_zero (Nat.ne_zero_of_lt hf)
        rw [inFront_addText _ _ (List.cons_ne_nil _ _)]
        exact splitFrom_end hraw (by simp [hraw]; omega)
      | cons d ds =>
        have hnext := @ih ds (text ++ ['\\', d]) front (by simpa using hraw) (by simp at hf; omega)
        rw [inFront_addText _ _ (List.cons_ne_nil _ _)]
        simpa [← Nat.add_assoc] using hnext
    by_cases ho : c = '{'
    · subst ho
      have hnone : Pieces.code? 1 none cs = none := by simpa using hcode
      have hfound := matchingBrace_open (hraw.trans (List.append_assoc _ _ _).symm)
      simp only [hb, if_false, if_true, hfound, hnone, Option.map_none, Option.bind_eq_bind,
        Option.bind_some]
      rw [inFront_addText _ _ (List.cons_ne_nil _ _)]
      exact textPiece_last hraw
    · simp only [hb, ho, if_false]
      have hnext := @ih cs (text ++ [c]) front (by simpa using hraw) hf
      rw [inFront_addText _ _ (List.cons_ne_nil _ _)]
      simpa [← Nat.add_assoc] using hnext

theorem split_eq (raw : List Char) : split raw = some (Pieces.split raw) :=
  @splitFrom_eq raw raw [] _ [] rfl (Nat.lt_succ_self _)

/-! ## Places -/

/-- A place counted from one. -/
def Counted (p : Position) : Prop := 1 ≤ p.line ∧ 1 ≤ p.column

theorem counted_after {p : Position} (h : Counted p) (c : Char) : Counted (p.after c) := by
  unfold Position.after
  split
  · exact ⟨Nat.le_add_left 1 _, Nat.le_refl 1⟩
  · exact ⟨h.1, Nat.le_add_left 1 _⟩

/-- The same place, counted from one. -/
def SameCounted (p p' : Position) : Prop := p' = p ∧ Counted p

theorem carried_sameCounted : Position.Carried SameCounted := fun _ _ c h =>
  ⟨by rw [h.1], counted_after h.2 c⟩

/-- Scanning stops at a place counted from one, as it starts at one: a scan makes the same moves as
itself, from place to place. -/
theorem counted_fault {m : ScanMode} {f : LexFault} (h : (StoryLang.scan m text).tokens = .error f) :
    Counted f.position := by
  have hcolumns : ∀ p p', SameCounted p p' → p'.column = p.column := fun p p' hp => by rw [hp.1]
  have hs : Scan.State.Relocated SameCounted SameCounted id (.start text) (.start text)
      (.start text) (.start text) :=
    ⟨⟨rfl, ⟨rfl, Nat.le_refl 1, Nat.le_refl 1⟩, rfl⟩, (List.map_id _).symm, rfl, rfl, .old, .old⟩
  have hscan := Scan.comes_scan m text
  have hmoves := hs.moves (m := m) carried_sameCounted hcolumns .fresh
  have hsame := (Scan.State.Relocated.comes carried_sameCounted hcolumns hmoves rfl hscan hscan).tokens
  rw [h] at hsame
  cases hsame with
  | error hfault => exact hfault.2.2

theorem shift_eq {start p : Position} (h : Counted p) : shift start p = some (Hoist.shift start p) := by
  unfold shift Hoist.shift
  split
  · rw [minus?_of_le (by have := h.2; omega)]
    rfl
  · rw [minus?_of_le (by have := h.1; omega)]
    rfl

theorem readCode_eq {m : ScanMode} (hg : m.grammar.KeepsLayout) (source : List Char) (start : Position) :
    readCode m source start = some (Hoist.readCode m source start) := by
  rw [readCode, scan_eq, Hoist.readCode, Option.bind_eq_bind, Option.bind_some]
  cases hscan : (StoryLang.scan m source).tokens with
  | error f =>
    dsimp only
    rw [shift_eq (counted_fault hscan)]
    rfl
  | ok tokens =>
    have hplaced : (tokens.mapM fun t => do
        return { t with position := ← shift start t.position } : Option (List Token)) =
          some (tokens.map fun t => { t with position := Hoist.shift start t.position }) :=
      mapM_some fun t ht => by
        rw [shift_eq ((scan_ok hscan).valid t ht).place]
        rfl
    dsimp only
    rw [hplaced, Option.bind_eq_bind, Option.bind_some, ofFragment_eq hg]

end StoryLang.Ranged
