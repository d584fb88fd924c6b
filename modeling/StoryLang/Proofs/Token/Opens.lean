/-
Where a string can start.

`Scan.Opens` says that a string can start behind a text: if an empty string is
put there, it is read as one. What comes behind the quote does not matter for
that. Whatever it is, the scanner comes to the quote with the same tokens, and
if a string ends there it reads it next.
-/
import StoryLang.Proofs.Token.Abreast

namespace StoryLang

namespace Scan

open Text (Shared Ends isQuote)

/-- A quote that strings are read between. -/
def IsQuote (m : ScanMode) (c : Char) : Prop := c = '"' ∨ c = '\'' ∧ m.singleQuotes = true

variable {m : ScanMode} {quote : Char}

theorem IsQuote.eq (h : IsQuote m quote) : quote = '"' ∨ quote = '\'' := h.imp id And.left

theorem IsQuote.ne_mark (h : IsQuote m quote) : quote ≠ Text.byteOrderMark := by
  rcases h with rfl | ⟨rfl, -⟩ <;> decide

theorem IsQuote.isGap (h : IsQuote m quote) : Spot.isGap quote = false := by
  rcases h with rfl | ⟨rfl, -⟩ <;> decide

/-- A string between such quotes can start behind the text: an empty one that is put there is one
of the tokens. -/
structure Opens (m : ScanMode) (quote : Char) (front : List Char) : Prop where
  quoted : IsQuote m quote
  read : ∃ tokens, (scan m (front ++ [quote, quote])).tokens = .ok tokens ∧
    ⟨.string, "", Position.first.behind (Text.dropMark front)⟩ ∈ tokens

namespace State

/-! ## Steps to a place -/

/-- The scanner comes from one state to another step by step, with so many steps left. -/
inductive Comes (m : ScanMode) : Nat → State → Nat → State → Prop where
  | here {n s} : Comes m n s n s
  | step {n s t n' u} (read : s.step m (n + 1) = .ok (t, true)) (others : Comes m n t n' u) :
    Comes m (n + 1) s n' u

/-- In front of what comes next on its line, behind the layout. -/
def Faces (s : State) (n : Nat) (v : State) : Prop :=
  ∃ u, (if s.atLineStart then s.startLine n else .ok (s, true)) = .ok (u, true) ∧
    v = u.moveTo u.spot.pastGap

variable {s s' u v w : State} {n n' k : Nat} {c : Char} {rest : List Char} {t : Token}

namespace Comes

theorem run (h : Comes m n s n' u) : s.run m n = u.run m n' := by
  induction h with
  | here => rfl
  | step read _ ih => rw [State.run, read, ← ih]

/-- Something of the text is taken in every step. -/
theorem rest_lt (h : Comes m n s n' u) (hf : s.spot.rest.length < n) :
    u.spot.rest.length < n' ∧ u.spot.rest.length ≤ s.spot.rest.length := by
  induction h with
  | here => exact ⟨hf, Nat.le_refl _⟩
  | @step n s t _ _ read _ ih =>
    have hless : t.spot.rest.length < s.spot.rest.length := (adds_step hf read).2.1 rfl
    obtain ⟨hlt, hle⟩ := ih (by omega)
    exact ⟨hlt, by omega⟩

theorem keeps (h : Comes m n s n' u) {text : List Char} (hk : s.Keeps text) : u.Keeps text := by
  induction h with
  | here => exact hk
  | step read _ ih => exact ih (keeps_step hk read)

theorem ordered (h : Comes m n s n' u) (hs : s.Ordered) : u.Ordered := by
  induction h with
  | here => exact hs
  | step read _ ih => exact ih (ordered_step hs read)

end Comes

/-- What comes next is read in this step. -/
theorem Faces.step (h : s.Faces n v) (hr : v.spot.rest = c :: rest) :
    s.step m n = (v.readNext m c rest).map (·, true) := by
  obtain ⟨u, hu, rfl⟩ := h
  have hr : u.spot.pastGap.rest = c :: rest := hr
  rw [step_eq, hu]
  simp only [Except.bind, onLine, if_true, hr]

theorem Faces.rest_le (h : s.Faces n v) (hf : s.spot.rest.length < n) :
    v.spot.rest.length ≤ s.spot.rest.length := by
  obtain ⟨u, hu, rfl⟩ := h
  refine Nat.le_trans (Spot.rest_pastGap_le u.spot) ?_
  split at hu
  · exact (adds_startLine hf hu).2.1
  · obtain ⟨rfl, -⟩ := Prod.mk.inj (Except.ok.inj hu)
    exact Nat.le_refl _

theorem Faces.keeps (h : s.Faces n v) {text : List Char} (hk : s.Keeps text) : v.Keeps text := by
  obtain ⟨u, hu, rfl⟩ := h
  refine keeps_moveTo ?_ u.spot.reaches_pastGap
  split at hu
  · exact keeps_startLine hk hu
  · obtain ⟨rfl, -⟩ := Prod.mk.inj (Except.ok.inj hu)
    exact hk

theorem readNext_quote (h : IsQuote m c) : s.readNext m c rest = s.readString c := by
  rcases h with rfl | ⟨rfl, hq⟩
  · rfl
  · simp [readNext, hq]

/-- Only a string is read as one. -/
theorem readNext_string (hr : s.readNext m c rest = .ok u) (ht : t ∈ u.tokens) (hno : t ∉ s.tokens)
    (hk : t.kind = .string) : IsQuote m c ∧ s.readString c = .ok u := by
  have hpush {kind : TokenKind} {taken : List Char} (hkind : kind ≠ .string) :
      t ∉ (s.push kind taken).tokens := by
    rintro (_ | ⟨_, hm⟩)
    · exact hkind hk
    · exact hno hm
  unfold readNext at hr
  split at hr
  · split at hr <;> obtain rfl := Except.ok.inj hr
    · exact absurd ht (hpush (by simp))
    · exact absurd ht hno
  split at hr
  · obtain rfl := Except.ok.inj hr
    exact absurd ht hno
  split at hr
  · rw [(same_pastComment hr).tokens] at ht
    exact absurd ht hno
  split at hr
  · obtain rfl := Except.ok.inj hr
    exact absurd ht hno
  split at hr
  · rename_i hc
    subst hc
    exact ⟨.inl rfl, hr⟩
  split at hr
  · rename_i hc
    obtain ⟨rfl, hq⟩ := hc
    exact ⟨.inr ⟨rfl, hq⟩, hr⟩
  split at hr
  · obtain rfl := Except.ok.inj hr
    refine absurd ht (hpush ?_)
    split <;> simp
  split at hr
  · rw [readNumber_eq] at hr
    split at hr
    · obtain rfl := Except.ok.inj hr
      exact absurd ht (hpush (by simp))
    · unfold readNumber.intToken at hr
      split at hr
      · obtain rfl := Except.ok.inj hr
        exact absurd ht (hpush (by simp))
      · simp [stop] at hr
  · unfold readSymbol at hr
    split at hr
    · obtain rfl := Except.ok.inj hr
      exact absurd ht (hpush (by simp))
    · split at hr
      · obtain rfl := Except.ok.inj hr
        exact absurd ht (hpush (by simp))
      · simp [stop] at hr

theorem readString_ok (h : s.readString c = .ok u) : ∃ raw after,
    Quotes.body c .text s.spot.next.place s.spot.next.rest = .ok (raw, after) ∧
      u = { s with
        spot := (s.spot.next.past raw).next
        tokens := ⟨.string, String.ofList raw, s.spot.place⟩ :: s.tokens } := by
  unfold readString at h
  dsimp only at h
  split at h
  · rename_i raw after hb
    exact ⟨raw, after, hb, (Except.ok.inj h).symm⟩
  · simp [stop] at h
  · simp [stop] at h

/-- A string among the tokens that are new behind a step was read in it. -/
theorem step_string {p : State × Bool} (hf : s.spot.rest.length < n) (hs : s.step m n = .ok p)
    (hk : t.kind = .string) (ht : t ∈ p.1.tokens) (hno : t ∉ s.tokens) :
    ∃ v c rest, s.Faces n v ∧ v.spot.rest = c :: rest ∧ IsQuote m c ∧ t.position = v.spot.place := by
  have hcode : t.isCode = true := by simp [Token.isCode, hk, TokenKind.isLayout]
  rw [step_eq] at hs
  obtain ⟨q, hq, hs⟩ := ok_of_bind hs
  -- the layout of the line adds no string
  have hline : t ∉ q.1.tokens := by
    intro hm
    split at hq
    · have hsame := (adds_startLine hf hq).1.tokens
      rw [List.reverse_nil, List.nil_append] at hsame
      have hmem : t ∈ q.1.tokens.filter Token.isCode := List.mem_filter.2 ⟨hm, hcode⟩
      rw [hsame] at hmem
      exact hno (List.mem_filter.1 hmem).1
    · obtain rfl := Except.ok.inj hq
      exact hno hm
  rcases onLine_ok hs with ⟨-, rfl⟩ | ⟨hmore, ⟨-, rfl⟩ | ⟨c, rest, u, hr, hn, rfl⟩⟩
  · exact absurd ht hline
  · exact absurd ht hline
  · obtain ⟨hquote, hread⟩ := readNext_string hn ht hline hk
    obtain ⟨raw, after, -, rfl⟩ := readString_ok hread
    rcases List.mem_cons.1 ht with rfl | ht
    · refine ⟨q.1.moveTo q.1.spot.pastGap, c, rest, ⟨q.1, ?_, rfl⟩, hr, hquote, rfl⟩
      rw [hq, ← hmore]
    · exact absurd ht hline

/-- The scanner comes to the place of every string that it reads. -/
theorem run_string {tokens : List Token} (hf : s.spot.rest.length < n)
    (hr : (s.run m n).tokens = .ok tokens) (hk : t.kind = .string) (ht : t ∈ tokens)
    (hno : t ∉ s.tokens) : ∃ n' u v c rest, Comes m n s n' u ∧ u.Faces n' v ∧
      v.spot.rest = c :: rest ∧ IsQuote m c ∧ t.position = v.spot.place := by
  induction n generalizing s with
  | zero => omega
  | succ n ih =>
    obtain ⟨q, hs, ⟨hmore, hr⟩ | ⟨-, rfl⟩⟩ := run_ok hr
    · have hless : q.1.spot.rest.length < s.spot.rest.length := (adds_step hf hs).2.1 hmore
      by_cases hm : t ∈ q.1.tokens
      · obtain ⟨v, c, rest, hfound⟩ := step_string hf hs hk hm hno
        exact ⟨n + 1, s, v, c, rest, .here, hfound⟩
      · obtain ⟨n', w, v, c, rest, hcomes, hfound⟩ := ih (by omega) hr hm
        exact ⟨n', w, v, c, rest, .step (by rw [hs, ← hmore]) hcomes, hfound⟩
    · have hm : t ∈ q.1.tokens := by
        obtain ⟨marks, hfinish, hmarks⟩ := q.1.finish_eq
        rw [hfinish] at ht
        simp only [List.mem_append, List.mem_reverse, List.mem_singleton] at ht
        rcases ht with ht | ht | rfl
        · exact ht
        · have hlayout := (hmarks t ht).1
          simp [hk, TokenKind.isLayout] at hlayout
        · simp at hk
      obtain ⟨v, c, rest, hfound⟩ := step_string hf hs hk hm hno
      exact ⟨n + 1, s, v, c, rest, .here, hfound⟩

/-- It is at the start of no line any more. -/
theorem Faces.atLineStart (hs : s.Ordered) (h : s.Faces n v) : v.atLineStart = false := by
  obtain ⟨u, hu, rfl⟩ := h
  split at hu
  · rename_i hl
    rcases ordered_startLine hs hl hu with ⟨-, hready⟩ | ⟨hno, -⟩
    · exact hready.atLineStart
    · simp at hno
  · rename_i hl
    obtain ⟨rfl, -⟩ := Prod.mk.inj (Except.ok.inj hu)
    exact Bool.eq_false_iff.2 hl

end State

/-! ## Next to another text -/

variable {E : List Char → List Char → Prop} {least : Nat} {R : Token → Token → Prop}
  {s s' u v : State} {n n' k : Nat}

section Near

variable (hR : Token.Lined R) (hE : Ends E least)

include hR hE

theorem State.Comes.near (h : State.Comes m n s n' u) (hn : Near R E s s') (hf : s.spot.rest.length < n)
    (hf' : s'.spot.rest.length < k) (hl : least ≤ u.spot.rest.length) :
    ∃ k' u', State.Comes m k s' k' u' ∧ Near R E u u' := by
  induction h generalizing s' k with
  | here => exact ⟨k, s', .here, hn⟩
  | @step n s t n' u read others ih =>
    obtain ⟨k, rfl⟩ : ∃ i, k = i + 1 := ⟨k - 1, by omega⟩
    have hless : t.spot.rest.length < s.spot.rest.length := (State.adds_step hf read).2.1 rfl
    have hle := (others.rest_lt (by omega)).2
    obtain ⟨t', read', (hnear : Near R E t t')⟩ :=
      hn.step hR hE hf hf' read (show least ≤ t.spot.rest.length by omega)
    have hless' : t'.spot.rest.length < s'.spot.rest.length := (State.adds_step hf' read').2.1 rfl
    obtain ⟨k', u', hcomes, hu⟩ := ih (k := k) hnear (by omega) (by omega) hl
    exact ⟨k', u', .step read' hcomes, hu⟩

theorem Near.faces (hn : Near R E s s') (h : s.Faces n v) (hf : s.spot.rest.length < n)
    (hf' : s'.spot.rest.length < k) (hl : least ≤ v.spot.rest.length) :
    ∃ v', s'.Faces k v' ∧ Near R E v v' := by
  obtain ⟨u, hu, rfl⟩ := h
  have hle : least ≤ u.spot.rest.length := Nat.le_trans hl (Spot.rest_pastGap_le u.spot)
  split at hu
  · rename_i hline
    obtain ⟨u', hu', hnear, -⟩ := hn.startLine hR hE hline hf hf' hu hle
    refine ⟨u'.moveTo u'.spot.pastGap, ⟨u', ?_, rfl⟩, hnear.moveTo (hnear.spot.pastGap hE)⟩
    rw [if_pos (hn.atLineStart.trans hline)]
    exact hu'
  · rename_i hline
    obtain ⟨rfl, -⟩ := Prod.mk.inj (Except.ok.inj hu)
    refine ⟨s'.moveTo s'.spot.pastGap, ⟨s', ?_, rfl⟩, hn.moveTo (hn.spot.pastGap hE)⟩
    rw [if_neg (by rw [hn.atLineStart]; exact hline)]

end Near

variable {front behind behind' : List Char}

theorem dropMark_front (h : IsQuote m quote) :
    Text.dropMark (front ++ quote :: behind) = Text.dropMark front ++ quote :: behind := by
  cases front with
  | nil => exact if_neg h.ne_mark
  | cons c front =>
    simp only [Text.dropMark, List.cons_append]
    split <;> rfl

/-- What is behind the quote. -/
def Behind (quote : Char) (behind behind' : List Char) (z z' : List Char) : Prop :=
  z = quote :: behind ∧ z' = quote :: behind'

theorem ends_behind (h : IsQuote m quote) :
    Ends (Behind quote behind behind') (behind.length + 1) := by
  rintro z z' ⟨rfl, rfl⟩
  refine .inr ⟨quote, behind, behind', rfl, rfl, ?_, Nat.lt_succ_self _⟩
  simpa [isQuote] using h.eq

/-- Texts with such ends are as long as the ends at least. -/
theorem Shared.length_behind {r r' : List Char} (h : Shared (Behind quote behind behind') r r') :
    behind.length + 1 ≤ r.length := by
  induction h with
  | ends related => simp [related.1]
  | cons _ _ ih => exact Nat.le_succ_of_le ih

/-- In front of the quote of one of them is the quote of the other one. -/
theorem Shared.at_quote {r' : List Char}
    (h : Shared (Behind quote behind behind') (quote :: behind) r') : r' = quote :: behind' := by
  cases h with
  | ends related => exact related.2
  | cons _ rest =>
    have := Shared.length_behind rest
    omega

/-- Where a string can start in a text, it can start with anything else behind the quote. -/
theorem beside_at (hR : Token.Lined R) (hq : IsQuote m quote)
    (hc : State.Comes m ((front ++ quote :: behind).length + 1) (.start (front ++ quote :: behind)) n u)
    (hv : u.Faces n v) (hr : v.spot.rest = quote :: behind) (behind' : List Char) :
    ∃ n' u' v', State.Comes m ((front ++ quote :: behind').length + 1)
        (.start (front ++ quote :: behind')) n' u' ∧ u'.Faces n' v' ∧
      v'.spot.rest = quote :: behind' ∧ Near R (Behind quote behind behind') v v' := by
  have hE : Ends (Behind quote behind behind') (behind.length + 1) := ends_behind hq
  have hstart : Near R (Behind quote behind behind') (.start (front ++ quote :: behind))
      (.start (front ++ quote :: behind')) := by
    refine near_start ?_
    rw [dropMark_front hq, dropMark_front hq]
    exact .append ⟨rfl, rfl⟩ _
  have hlen (text : List Char) : (State.start text).spot.rest.length < text.length + 1 :=
    Nat.lt_succ_of_le (Text.length_dropMark text)
  have hfuel := (hc.rest_lt (hlen _)).1
  have hleft : behind.length + 1 ≤ v.spot.rest.length := by simp [hr]
  obtain ⟨n', u', hc', hnear⟩ := hc.near hR hE hstart (hlen _) (hlen _)
    (Nat.le_trans hleft (hv.rest_le hfuel))
  obtain ⟨v', hv', hnear⟩ := hnear.faces hR hE hv hfuel (hc'.rest_lt (hlen _)).1 hleft
  exact ⟨n', u', v', hc', hv', Shared.at_quote (hr ▸ hnear.spot.rest), hnear⟩

/-- The scanner comes to the quote, whatever is behind it. -/
theorem Opens.faces (h : Opens m quote front) (behind : List Char) :
    ∃ n u v, State.Comes m ((front ++ quote :: behind).length + 1) (.start (front ++ quote :: behind)) n u ∧
      u.Faces n v ∧ v.spot.rest = quote :: behind := by
  obtain ⟨hq, tokens, ht, hmem⟩ := h
  have hlen := Nat.lt_succ_of_le (Text.length_dropMark (front ++ [quote, quote]))
  obtain ⟨n, u, v, c, rest, hcomes, hfaces, hr, -, hp⟩ :=
    State.run_string hlen ht rfl hmem (by simp [State.start])
  obtain ⟨cs, htext, hplace⟩ := (hfaces.keeps (hcomes.keeps (Good.start _))).reach
  have htext : Text.dropMark (front ++ [quote, quote]) = cs ++ v.spot.rest := htext
  rw [dropMark_front hq] at htext
  obtain rfl : Text.dropMark front = cs :=
    Position.behind_inj ⟨_, rfl⟩ ⟨_, htext.symm⟩ (hp.trans hplace)
  have hrest := List.append_cancel_left htext
  obtain ⟨n', u', v', hcomes', hfaces', hr', -⟩ :=
    beside_at (R := fun t t' => t'.kind = t.kind) ⟨fun _ _ h => h, fun _ _ _ _ _ => rfl⟩ hq hcomes hfaces
      hrest.symm behind
  exact ⟨n', u', v', hcomes', hfaces', hr'⟩

/-! ## The string that starts there -/

/-- Blanks of a line at the ends of texts. -/
def Gaps (z z' : List Char) : Prop :=
  (∀ c ∈ z, Spot.isGap c = true) ∧ ∀ c ∈ z', Spot.isGap c = true

theorem ends_gaps : Ends Gaps 0 := fun _ _ h => .inl ⟨h.1, h.2, by simp [Gaps]⟩

/-- What the string is between its quotes. -/
def Encloses (quote : Char) (raw : List Char) : Prop :=
  ∀ p behind, Quotes.Closes quote .text p raw behind

namespace State

variable {raw : List Char}

/-- Behind a string that was read. -/
def pastString (s : State) (quote : Char) (raw : List Char) : State :=
  { s with
    spot := s.spot.past (quote :: raw ++ [quote])
    tokens := ⟨.string, String.ofList raw, s.spot.place⟩ :: s.tokens }

theorem readString_enclosed (he : Encloses quote raw) (hr : s.spot.rest = quote :: (raw ++ quote :: behind)) :
    s.readString quote = .ok (s.pastString quote raw) := by
  have hbody : Quotes.body quote .text s.spot.next.place (raw ++ quote :: behind) = .ok (raw, behind) :=
    he _ _
  unfold readString
  dsimp only
  rw [(Spot.next_spec hr).1, hbody]
  dsimp only
  rw [Spot.past_quoted]
  rfl

theorem run_pastString (hq : IsQuote m quote) (he : Encloses quote raw) (hv : u.Faces (n + 1) v)
    (hr : v.spot.rest = quote :: (raw ++ quote :: behind)) :
    u.run m (n + 1) = (v.pastString quote raw).run m n := by
  rw [State.run, hv.step hr, readNext_quote hq, readString_enclosed he hr]
  rfl

end State

variable {raw raw' : List Char}

theorem Encloses.oneLine (h : Encloses quote raw) : '\n' ∉ raw :=
  (Quotes.body_ok (h .first [])).2

/-- Behind related strings both go abreast up to the ends of the texts. -/
theorem Near.pastString (hq : IsQuote m quote) (he : Encloses quote raw) (he' : Encloses quote raw')
    (hn : Near R E v v') (hv : v.atLineStart = false)
    (hr : v.spot.rest = quote :: (raw ++ quote :: behind))
    (hr' : v'.spot.rest = quote :: (raw' ++ quote :: behind))
    (ht : ∀ p p' : Position, p'.line = p.line →
      R ⟨.string, String.ofList raw, p⟩ ⟨.string, String.ofList raw', p'⟩) :
    Near R Gaps (v.pastString quote raw) (v'.pastString quote raw') := by
  have hline {raw : List Char} (he : Encloses quote raw) : '\n' ∉ quote :: raw ++ [quote] := by
    have hn := he.oneLine
    have hqn : '\n' ≠ quote := by rcases hq.eq with rfl | rfl <;> decide
    simp [hn, hqn]
  have hspot {v : State} {raw : List Char} (he : Encloses quote raw)
      (hr : v.spot.rest = quote :: (raw ++ quote :: behind)) :
      (v.pastString quote raw).spot.rest = behind ∧
        (v.pastString quote raw).spot.place.line = v.spot.place.line := by
    have hr : v.spot.rest = (quote :: raw ++ [quote]) ++ behind := by simp [hr]
    obtain ⟨hrest, hplace⟩ := Spot.past_spec hr
    exact ⟨hrest, by rw [State.pastString, hplace, Position.behind_line (hline he)]⟩
  obtain ⟨hrest, hplace⟩ := hspot he hr
  obtain ⟨hrest', hplace'⟩ := hspot he' hr'
  refine ⟨⟨?_, ?_, ?_⟩, hn.indents, hn.brackets, hn.atLineStart, .cons (ht _ _ hn.spot.line) hn.tokens⟩
  · rw [hrest, hrest']
    simpa using Shared.append (show Gaps [] [] by simp [Gaps]) behind
  · rw [hplace, hplace', hn.spot.line]
  · intro hfresh
    simp [State.pastString, hv] at hfresh

namespace Opens

/-- A string that can start in a text is one of its tokens. -/
theorem mem {tokens : List Token} (h : Opens m quote front) (he : Encloses quote raw)
    (ht : (scan m (front ++ quote :: (raw ++ quote :: behind))).tokens = .ok tokens) :
    ∃ p, ⟨.string, String.ofList raw, p⟩ ∈ tokens := by
  obtain ⟨n, u, v, hc, hv, hr⟩ := h.faces (raw ++ quote :: behind)
  have hfuel := (hc.rest_lt (Nat.lt_succ_of_le (Text.length_dropMark _))).1
  obtain ⟨n, rfl⟩ : ∃ k, n = k + 1 := ⟨n - 1, by omega⟩
  have hbehind : (v.pastString quote raw).spot.rest = behind := by
    have hr : v.spot.rest = (quote :: raw ++ [quote]) ++ behind := by simp [hr]
    exact (Spot.past_spec hr).1
  have hle := hv.rest_le hfuel
  rw [hr] at hle
  simp only [List.length_cons, List.length_append] at hle
  rw [scan, hc.run, State.run_pastString h.quoted he hv hr] at ht
  obtain ⟨ts, -, htokens⟩ := State.transcript_run (by rw [hbehind]; omega) ht
  have hmem : ⟨.string, String.ofList raw, v.spot.place⟩ ∈ tokens.filter Token.isCode := by
    rw [htokens]
    simp [State.pastString, Token.isCode, TokenKind.isLayout]
  exact ⟨v.spot.place, (List.mem_filter.1 hmem).1⟩

/-- The tokens of two texts that differ in a string are related if the string's tokens are. -/
theorem scan_related {ts : List Token} (hR : Token.Lined R) (h : Opens m quote front)
    (he : Encloses quote raw) (he' : Encloses quote raw')
    (ht : ∀ p p' : Position, p'.line = p.line →
      R ⟨.string, String.ofList raw, p⟩ ⟨.string, String.ofList raw', p'⟩)
    (hts : (scan m (front ++ quote :: (raw ++ quote :: behind))).tokens = .ok ts) :
    ∃ ts', (scan m (front ++ quote :: (raw' ++ quote :: behind))).tokens = .ok ts' ∧
      List.Forall₂ R ts ts' := by
  obtain ⟨n, u, v, hc, hv, hr⟩ := h.faces (raw ++ quote :: behind)
  obtain ⟨n', u', v', hc', hv', hr', hnear⟩ :=
    beside_at hR h.quoted hc hv hr (raw' ++ quote :: behind)
  have hnear := hnear.pastString h.quoted he he' (hv.atLineStart (hc.ordered (State.ordered_start _))) hr hr' ht
  -- there are steps enough for what is behind the string
  have hfuel {raw : List Char} {n : Nat} {u v : State}
      (hc : State.Comes m ((front ++ quote :: (raw ++ quote :: behind)).length + 1)
        (.start (front ++ quote :: (raw ++ quote :: behind))) n u)
      (hv : u.Faces n v) (hr : v.spot.rest = quote :: (raw ++ quote :: behind)) :
      ∃ k, n = k + 1 ∧ (v.pastString quote raw).spot.rest.length < k := by
    have hlt := (hc.rest_lt (Nat.lt_succ_of_le (Text.length_dropMark _))).1
    have hle := hv.rest_le hlt
    have hr₂ : v.spot.rest = (quote :: raw ++ [quote]) ++ behind := by simp [hr]
    have hbehind : (v.pastString quote raw).spot.rest = behind := (Spot.past_spec hr₂).1
    rw [hr] at hle
    simp only [List.length_cons, List.length_append] at hle
    exact ⟨n - 1, by omega, by rw [hbehind]; omega⟩
  obtain ⟨k, rfl, hk⟩ := hfuel hc hv hr
  obtain ⟨k', rfl, hk'⟩ := hfuel hc' hv' hr'
  rw [scan, hc.run, State.run_pastString h.quoted he hv hr] at hts
  rw [scan, hc'.run, State.run_pastString h.quoted he' hv' hr']
  exact Near.run hR ends_gaps hnear hk hk' hts

end Opens

/-- The tokens of two texts that differ in blanks at their ends are related. -/
theorem scan_gaps {ts : List Token} {source gaps gaps' : List Char} (hR : Token.Lined R)
    (hg : Gaps gaps gaps') (hts : (scan m (source ++ gaps)).tokens = .ok ts) :
    ∃ ts', (scan m (source ++ gaps')).tokens = .ok ts' ∧ List.Forall₂ R ts ts' := by
  have hmark {gaps : List Char} (hg : ∀ c ∈ gaps, Spot.isGap c = true) :
      Text.dropMark (source ++ gaps) = Text.dropMark source ++ gaps := by
    cases source with
    | nil =>
      cases gaps with
      | nil => rfl
      | cons c gaps =>
        refine if_neg ?_
        rintro rfl
        exact absurd (hg _ List.mem_cons_self) (by decide)
    | cons c source =>
      simp only [Text.dropMark, List.cons_append]
      split <;> rfl
  have hstart : Near R Gaps (.start (source ++ gaps)) (.start (source ++ gaps')) := by
    refine near_start ?_
    rw [hmark hg.1, hmark hg.2]
    exact .append hg _
  exact hstart.run hR ends_gaps (Nat.lt_succ_of_le (Text.length_dropMark _))
    (Nat.lt_succ_of_le (Text.length_dropMark _)) hts

end Scan

end StoryLang
