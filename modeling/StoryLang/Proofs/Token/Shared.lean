/-
Texts that differ in their ends only.

`Text.Shared E` says that two texts are the same up to ends related by `E`. Two
kinds of ends cannot be told apart by a scanner in front of them: blanks, behind
which there is nothing, and a quote, whatever is behind it. A scanner that takes
no more than what both texts share finds the same in both of them, which the
lemmas here say once for each way it looks at a text.
-/
import Mathlib.Data.List.DropRight
import StoryLang.Proofs.Token.Led
import StoryLang.Proofs.Token.Reach

namespace StoryLang

namespace Text

/-- A quote that a string can stand between. -/
def isQuote (c : Char) : Bool := c = '"' || c = '\''

/-- What ends of texts can start with. -/
def enders : List Char := [' ', '\t', '\r', '\x0c', '"', '\'']

theorem mem_enders {c : Char} (h : Spot.isGap c = true ∨ isQuote c = true) : c ∈ enders := by
  simp only [Spot.isGap, isQuote, Bool.or_eq_true, decide_eq_true_eq, or_assoc] at h
  rcases h with rfl | rfl | rfl | h | rfl | rfl
  case inr.inr.inr.inl =>
    rw [← Char.ofNat_toNat c, h]
    decide
  all_goals decide

theorem isDigit_enders : ∀ c ∈ enders, isDigit c = false := by
  simp [enders]
  decide

theorem isWordChar_enders : ∀ c ∈ enders, Grammar.isWordChar c = false := by
  simp [enders]
  decide

/-- The texts are the same up to ends that are related. -/
inductive Shared (E : List Char → List Char → Prop) : List Char → List Char → Prop where
  | ends {z z'} (related : E z z') : Shared E z z'
  | cons {r r'} (c : Char) (rest : Shared E r r') : Shared E (c :: r) (c :: r')

/-- Ends that cannot be told apart from in front of them: blanks of the last line, or the same
quote. Behind the quote there are fewer than `least` characters of the first text. -/
def Ends (E : List Char → List Char → Prop) (least : Nat) : Prop :=
  ∀ z z', E z z' →
    ((∀ c ∈ z, Spot.isGap c = true) ∧ (∀ c ∈ z', Spot.isGap c = true) ∧ E [] []) ∨
    ∃ q y y', z = q :: y ∧ z' = q :: y' ∧ isQuote q = true ∧ y.length < least

variable {E : List Char → List Char → Prop} {least : Nat} {r r' : List Char} {c : Char}
  {p : Char → Bool}

namespace Shared

theorem append {z z' : List Char} (h : E z z') (front : List Char) :
    Shared E (front ++ z) (front ++ z') := by
  induction front with
  | nil => exact .ends h
  | cons c front ih => exact .cons c ih

variable (hE : Ends E least)

include hE

/-- What is shared up to a character that is no blank, if enough of the first text is behind it. -/
theorem front {w more : List Char} (h : Shared E (w ++ c :: more) r') (hc : Spot.isGap c = false)
    (hl : least ≤ more.length) : ∃ more', r' = w ++ c :: more' ∧ Shared E more more' := by
  generalize hr : w ++ c :: more = r at h
  induction h generalizing w with
  | ends related =>
    subst hr
    rcases hE _ _ related with ⟨gaps, -⟩ | ⟨q, y, y', hz, -, -, hy⟩
    · simp [gaps c (by simp)] at hc
    · have := congrArg List.length hz
      simp only [List.length_append, List.length_cons] at this
      omega
  | cons d rest ih =>
    cases w with
    | nil =>
      obtain ⟨rfl, rfl⟩ := List.cons.inj hr
      exact ⟨_, rfl, rest⟩
    | cons e w =>
      obtain ⟨rfl, hs⟩ := List.cons.inj hr
      obtain ⟨more', rfl, hm⟩ := ih hs
      exact ⟨more', rfl, hm⟩

/-- A character that is no blank and no quote is in front of the ends. -/
theorem head (h : Shared E (c :: r) r') (hc : Spot.isGap c = false) (hq : isQuote c = false) :
    ∃ more, r' = c :: more ∧ Shared E r more := by
  cases h with
  | ends related =>
    rcases hE _ _ related with ⟨gaps, -⟩ | ⟨q, y, y', hz, -, quote, -⟩
    · simp [gaps c (by simp)] at hc
    · obtain ⟨rfl, rfl⟩ := List.cons.inj hz
      simp [quote] at hq
  | cons _ rest => exact ⟨_, rfl, rest⟩

theorem head_of (h : Shared E r (c :: r')) (hc : Spot.isGap c = false) (hq : isQuote c = false) :
    ∃ more, r = c :: more ∧ Shared E more r' := by
  cases h with
  | ends related =>
    rcases hE _ _ related with ⟨-, gaps, -⟩ | ⟨q, y, y', -, hz, quote, -⟩
    · simp [gaps c (by simp)] at hc
    · obtain ⟨rfl, rfl⟩ := List.cons.inj hz
      simp [quote] at hq
  | cons _ rest => exact ⟨_, rfl, rest⟩

theorem head?_eq (h : Shared E r r') (hc : Spot.isGap c = false) (hq : isQuote c = false) :
    r'.head? = some c ↔ r.head? = some c := by
  constructor <;> intro hs <;> obtain ⟨more, rfl⟩ := List.head?_eq_some_iff.1 hs
  · obtain ⟨_, rfl, -⟩ := h.head_of hE hc hq
    rfl
  · obtain ⟨_, rfl, -⟩ := h.head hE hc hq
    rfl

/-- What both texts start with, unless it is a blank. -/
theorem first (h : Shared E r r') (hr : ∀ c ∈ r.head?, Spot.isGap c = false)
    (hr' : ∀ c ∈ r'.head?, Spot.isGap c = false) :
    r = [] ∧ r' = [] ∨ ∃ c s s', r = c :: s ∧ r' = c :: s' ∧ Spot.isGap c = false ∧
      (isQuote c = false → Shared E s s') := by
  cases h with
  | ends related =>
    rcases hE _ _ related with ⟨gaps, gaps', -⟩ | ⟨q, y, y', rfl, rfl, quote, -⟩
    · refine .inl ⟨?_, ?_⟩
      · cases r with
        | nil => rfl
        | cons c r => simp [gaps c (by simp)] at hr
      · cases r' with
        | nil => rfl
        | cons c r' => simp [gaps' c (by simp)] at hr'
    · exact .inr ⟨q, y, y', rfl, rfl, hr q rfl, fun hq => by simp [quote] at hq⟩
  | cons c rest => exact .inr ⟨c, _, _, rfl, rfl, hr c rfl, fun _ => rest⟩

/-- A run without blanks and quotes is shared, and so is what is behind it. -/
theorem run (h : Shared E r r') (hp : ∀ c ∈ enders, p c = false) :
    r'.takeWhile p = r.takeWhile p ∧ Shared E (r.dropWhile p) (r'.dropWhile p) := by
  induction h with
  | @ends z z' related =>
    have hstop (cs : List Char) (hcs : ∀ c ∈ cs.head?, Spot.isGap c = true ∨ isQuote c = true) :
        cs.takeWhile p = [] ∧ cs.dropWhile p = cs := by
      cases cs with
      | nil => exact ⟨rfl, rfl⟩
      | cons c cs => simp [hp c (mem_enders (hcs c rfl))]
    have hheads : (∀ c ∈ z.head?, Spot.isGap c = true ∨ isQuote c = true) ∧
        ∀ c ∈ z'.head?, Spot.isGap c = true ∨ isQuote c = true := by
      rcases hE _ _ related with ⟨gaps, gaps', -⟩ | ⟨q, y, y', rfl, rfl, quote, -⟩
      · exact ⟨fun c hc => .inl (gaps c (List.mem_of_mem_head? hc)),
          fun c hc => .inl (gaps' c (List.mem_of_mem_head? hc))⟩
      · simp [quote]
    obtain ⟨ht, hd⟩ := hstop z hheads.1
    obtain ⟨ht', hd'⟩ := hstop z' hheads.2
    exact ⟨by rw [ht, ht'], by rw [hd, hd']; exact .ends related⟩
  | cons c rest ih =>
    by_cases hc : p c = true
    · simpa [hc] using ih
    · simpa [hc] using .cons c rest

/-- A run that goes on over blanks is shared, unless both texts end in it. It goes on over no quote
in front of which enough is left. -/
theorem runOn (h : Shared E r r') (hp : ∀ c, Spot.isGap c = true → p c = true)
    (hq : (∀ c, isQuote c = true → p c = false) ∨ least ≤ (r.dropWhile p).length) :
    Shared E (r.dropWhile p) (r'.dropWhile p) ∧
      (r.dropWhile p ≠ [] → r'.takeWhile p = r.takeWhile p) := by
  induction h with
  | @ends z z' related =>
    rcases hE _ _ related with ⟨gaps, gaps', hnil⟩ | ⟨q, y, y', rfl, rfl, quote, hy⟩
    · have hd (cs : List Char) (hcs : ∀ c ∈ cs, Spot.isGap c = true) : cs.dropWhile p = [] :=
        List.dropWhile_eq_nil_iff.2 fun c hc => hp c (hcs c hc)
      rw [hd z gaps, hd z' gaps']
      exact ⟨.ends hnil, by simp⟩
    · have hn : p q = false := by
        rcases hq with hq | hq
        · exact hq q quote
        · refine Bool.eq_false_iff.2 fun hpq => ?_
          rw [List.dropWhile_cons_of_pos hpq] at hq
          have := (List.dropWhile_sublist p (l := y)).length_le
          omega
      simpa [hn] using .ends related
  | cons c rest ih =>
    by_cases hc : p c = true
    · rw [List.dropWhile_cons_of_pos hc] at hq
      simpa [hc] using ih hq
    · simpa [hc] using .cons c rest

/-- The blanks of a line that both texts start with. -/
theorem gap (h : Shared E r r') : Shared E (r.dropWhile Spot.isGap) (r'.dropWhile Spot.isGap) ∧
    (r.dropWhile Spot.isGap ≠ [] → r'.takeWhile Spot.isGap = r.takeWhile Spot.isGap) := by
  refine h.runOn hE (fun _ => id) (.inl fun c hc => ?_)
  simp only [isQuote, Bool.or_eq_true, decide_eq_true_eq] at hc
  rcases hc with rfl | rfl <;> decide

end Shared

end Text

namespace Scan

variable {E : List Char → List Char → Prop} {least : Nat} {r r' : List Char}

open Text (Shared Ends isQuote)

/-- Both texts start with the same, as far as lines without code go. -/
theorem lead_shared (hE : Ends E least) (h : Shared E r r') (hr : ∀ c ∈ r.head?, Spot.isGap c = false)
    (hr' : ∀ c ∈ r'.head?, Spot.isGap c = false) : lead r' = lead r := by
  rcases h.first hE hr hr' with ⟨rfl, rfl⟩ | ⟨c, s, s', rfl, rfl, -, hs⟩
  · rfl
  by_cases hn : c = '\n'
  · subst hn
    rfl
  by_cases hh : c = '#'
  · subst hh
    rfl
  by_cases hc : c = '/'
  · subst hc
    have hs := hs (by decide)
    have hslash : s'.head? = some '/' ↔ s.head? = some '/' := hs.head?_eq hE (by decide) (by decide)
    have hstar : s'.head? = some '*' ↔ s.head? = some '*' := hs.head?_eq hE (by decide) (by decide)
    by_cases hd : s.head? = some '/'
    · obtain ⟨_, rfl⟩ := List.head?_eq_some_iff.1 hd
      obtain ⟨_, rfl⟩ := List.head?_eq_some_iff.1 (hslash.2 hd)
      rfl
    by_cases he : s.head? = some '*'
    · obtain ⟨_, rfl⟩ := List.head?_eq_some_iff.1 he
      obtain ⟨_, rfl⟩ := List.head?_eq_some_iff.1 (hstar.2 he)
      rfl
    · rw [lead_cons hn hh fun _ => ⟨hd, he⟩,
        lead_cons hn hh fun _ => ⟨fun h => hd (hslash.1 h), fun h => he (hstar.1 h)⟩]
  · rw [lead_cons hn hh (by simp [hc]), lead_cons hn hh (by simp [hc])]

/-- In both texts a point and a digit come next, or in neither. -/
theorem pointed_shared (hE : Ends E least) (h : Shared E r r') : pointed r' = pointed r := by
  have hpoint : r'.head? = some '.' ↔ r.head? = some '.' := h.head?_eq hE (by decide) (by decide)
  have hnot {cs : List Char} (hcs : cs.head? ≠ some '.') : pointed cs = false := by
    unfold pointed
    split
    · simp at hcs
    · rfl
  by_cases hr : r.head? = some '.'
  · obtain ⟨s, rfl⟩ := List.head?_eq_some_iff.1 hr
    obtain ⟨s', rfl, hs⟩ := h.head hE (by decide) (by decide)
    have hdigits (ds : List Char) : pointed ('.' :: ds) = !(ds.takeWhile Text.isDigit).isEmpty := by
      cases ds with
      | nil => rfl
      | cons d ds => cases hd : Text.isDigit d <;> simp [pointed, hd]
    rw [hdigits, hdigits, (@Text.Shared.run E least s s' Text.isDigit hE hs Text.isDigit_enders).1]
  · rw [hnot hr, hnot fun h => hr (hpoint.1 h)]

end Scan

end StoryLang
