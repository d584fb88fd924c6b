/-
What the scanner's literals are good for: a number has a value, a name cannot
be one that is issued, and what stands between quotes stays on its line.
-/
import StoryLang.Decimal.Binary64
import StoryLang.Hoist.Issued
import StoryLang.Proofs.Follows
import StoryLang.Token.Scan

namespace StoryLang

/-- What is promised of the literal of a token. -/
structure Token.Sound (t : Token) : Prop where
  int : t.kind = .int → (Text.signed64? t.literal.toList).isSome
  float : t.kind = .float → (Binary64.literal? t.literal.toList).isSome
  name : t.kind = .name → isIssuedName t.literal = false
  string : t.kind = .string → '\n' ∉ t.literal.toList

/-! ## Numbers -/

namespace Text

/-- A number without a sign is read the same where a sign could be. -/
theorem signed64?_of_natural {cs : List Char} (hd : ∀ c ∈ cs, isDigit c = true)
    (h : (natural? maxSigned64 cs).isSome) : (signed64? cs).isSome := by
  cases cs with
  | nil => simpa [signed64?] using h
  | cons c cs =>
    have hc : c ≠ '-' := by
      rintro rfl
      exact absurd (hd '-' (by simp)) (by decide)
    unfold signed64?
    split
    · rename_i he
      exact absurd (List.cons.inj he).1 hc
    · simpa using h

end Text

namespace Binary64

theorem number?_isSome {whole fraction : List Char} (hw : ∀ c ∈ whole, Text.isDigit c = true)
    (hf : ∀ c ∈ fraction, Text.isDigit c = true) (hne : whole ≠ []) :
    (number? false (whole ++ '.' :: fraction)).isSome := by
  have hpoint : Text.isDigit '.' = false := by decide
  have ht : (whole ++ '.' :: fraction).takeWhile Text.isDigit = whole := by
    rw [List.takeWhile_append_of_pos hw]
    simp [hpoint]
  have hd : (whole ++ '.' :: fraction).dropWhile Text.isDigit = '.' :: fraction := by
    rw [List.dropWhile_append_of_pos hw]
    simp [hpoint]
  have hft : fraction.takeWhile Text.isDigit = fraction := by
    rw [← List.append_nil fraction, List.takeWhile_append_of_pos hf, List.takeWhile_nil]
  have hfd : fraction.dropWhile Text.isDigit = [] := by
    rw [← List.append_nil fraction, List.dropWhile_append_of_pos hf, List.dropWhile_nil]
  have hp : parts? (whole ++ '.' :: fraction) = some (whole, fraction, none) := by
    simp [parts?, ht, hd, hft, hfd, hne]
  simp only [number?, hp, Option.bind_eq_bind, Option.bind_some]
  split <;> rfl

/-- Digits with a point in between are a literal. -/
theorem literal?_isSome {whole fraction : List Char} (hw : ∀ c ∈ whole, Text.isDigit c = true)
    (hf : ∀ c ∈ fraction, Text.isDigit c = true) (hne : whole ≠ []) :
    (literal? (whole ++ '.' :: fraction)).isSome := by
  have hn := number?_isSome hw hf hne
  have hu : (unsigned? false (whole ++ '.' :: fraction)).isSome := by
    unfold unsigned?
    split <;> first | rfl | exact hn
  cases whole with
  | nil => exact absurd rfl hne
  | cons c cs =>
    have hc : Text.isDigit c = true := hw c (by simp)
    unfold literal?
    split
    · rename_i he
      obtain rfl := (List.cons.inj he).1
      exact absurd hc (by decide)
    · rename_i he
      obtain rfl := (List.cons.inj he).1
      exact absurd hc (by decide)
    · exact hu

end Binary64

/-! ## Names -/

/-- No name of a story can be one that is issued: those have a dash. -/
theorem isIssuedName_of_word {cs : List Char} (h : ∀ c ∈ cs, Grammar.isWordChar c = true) :
    isIssuedName (String.ofList cs) = false := by
  unfold isIssuedName
  rw [String.toList_ofList]
  split
  · exact absurd (h '-' (by simp)) (by decide)
  · rfl

/-! ## Strings -/

namespace Quotes

theorem map_ok (front : List Char) {text rest : List Char}
    {r : Except (Option Position) (List Char × List Char)}
    (h : r.map (fun (text, rest) => (front ++ text, rest)) = .ok (text, rest)) :
    ∃ text', r = .ok (text', rest) ∧ text = front ++ text' := by
  cases r with
  | error p => simp [Except.map] at h
  | ok p =>
    obtain ⟨text', rest'⟩ := p
    simp only [Except.map, Except.ok.injEq, Prod.mk.injEq] at h
    exact ⟨text', by rw [h.2], h.1.symm⟩

/-- What is read between quotes stands in front of the closing quote, on one line. -/
theorem body_ok {quote : Char} {inside : Inside} {p : Position} {cs text rest : List Char}
    (h : body quote inside p cs = .ok (text, rest)) :
    cs = text ++ quote :: rest ∧ '\n' ∉ text := by
  fun_induction body quote inside p cs generalizing text rest
  case case4 hq =>
    obtain ⟨rfl, rfl⟩ : [] = text ∧ _ = rest := by simpa using h
    exact ⟨rfl, by simp⟩
  case case7 d ds hd _ _ ih =>
    obtain ⟨text', hb, rfl⟩ := map_ok ['\\', d] h
    obtain ⟨rfl, hn⟩ := ih hb
    exact ⟨rfl, by simpa [hn] using fun e => hd e.symm⟩
  case case8 c cs hc _ _ inside ih =>
    obtain ⟨text', hb, rfl⟩ := map_ok [c] h
    obtain ⟨rfl, hn⟩ := ih hb
    exact ⟨rfl, by simpa [hn] using fun e => hc e.symm⟩
  case case12 c hc _ d ds hd ih =>
    obtain ⟨text', hb, rfl⟩ := map_ok [c, d] h
    obtain ⟨rfl, hn⟩ := ih hb
    exact ⟨rfl, by simpa [hn] using ⟨fun e => hc e.symm, fun e => hd e.symm⟩⟩
  case case13 c cs hc _ ih =>
    obtain ⟨text', hb, rfl⟩ := map_ok [c] h
    obtain ⟨rfl, hn⟩ := ih hb
    exact ⟨rfl, by simpa [hn] using fun e => hc e.symm⟩
  -- the text ends, or the line does, before the closing quote
  all_goals simp at h

end Quotes

end StoryLang
