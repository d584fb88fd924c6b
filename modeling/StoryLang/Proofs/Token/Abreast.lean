/-
Scanning two texts that differ in their ends only.

Two scanners go abreast if the texts in front of them are shared up to their
ends and they have read the same tokens, but for the columns these stand in.
As long as the first one takes nothing of an end that matters, the other one
takes the same step, and they go abreast again. Columns count for nothing but
at the start of a line, and there they are the same.
-/
import StoryLang.Proofs.Token.Layout
import StoryLang.Proofs.Token.Reworded
import StoryLang.Proofs.Token.Shared
import StoryLang.Proofs.Token.Transcript

namespace StoryLang

/-- Related tokens are of the same kind, and tokens that differ in their columns are related. -/
structure Token.Lined (R : Token → Token → Prop) : Prop where
  kind : ∀ t t', R t t' → t'.kind = t.kind
  same : ∀ (kind : TokenKind) (literal : String) (p p' : Position), p'.line = p.line →
    R ⟨kind, literal, p⟩ ⟨kind, literal, p'⟩

namespace Scan

open Text (Shared Ends isQuote)

/-! ## Places -/

/-- Two places whose texts are shared up to their ends. At the start of a line that goes on they
are in the same column. -/
structure Abreast (E : List Char → List Char → Prop) (fresh : Bool) (a a' : Spot) : Prop where
  rest : Shared E a.rest a'.rest
  line : a'.place.line = a.place.line
  place : fresh = true → a.rest ≠ [] → a'.place = a.place

variable {E : List Char → List Char → Prop} {least : Nat} {R : Token → Token → Prop}

namespace Abreast

variable {fresh : Bool} {a a' b : Spot} {taken more more' : List Char} {p : Char → Bool}

theorem later (h : Abreast E fresh a a') : Abreast E false a a' :=
  ⟨h.rest, h.line, by simp⟩

/-- Both pass what the texts share. -/
theorem past (h : Abreast E fresh a a') (hr : a.rest = taken ++ more) (hr' : a'.rest = taken ++ more')
    (hm : Shared E more more') : Abreast E fresh (a.past taken) (a'.past taken) := by
  obtain ⟨hrest, hplace⟩ := Spot.past_spec hr
  obtain ⟨hrest', hplace'⟩ := Spot.past_spec hr'
  refine ⟨by rwa [hrest, hrest'], ?_, fun hf hne => ?_⟩
  · rw [hplace, hplace']
    exact Position.line_behind h.line taken
  · rw [hrest] at hne
    rw [hplace, hplace', h.place hf (by simp [hr, hne])]

variable (hE : Ends E least)

include hE

/-- Both pass a part of the line that goes on over blanks. -/
theorem pastWhile (h : Abreast E fresh a a') (hp : ∀ c, Spot.isGap c = true → p c = true)
    (hn : p '\n' = false)
    (hq : (∀ c, isQuote c = true → p c = false) ∨ least ≤ (a.pastWhile p).rest.length) :
    Abreast E fresh (a.pastWhile p) (a'.pastWhile p) := by
  rw [Spot.rest_pastWhile] at hq
  obtain ⟨hrest, htake⟩ := h.rest.runOn hE hp hq
  have hplace (s : Spot) : (s.pastWhile p).place = s.place.behind (s.rest.takeWhile p) :=
    (Spot.past_spec (List.takeWhile_append_dropWhile (p := p)).symm).2
  have hline (s : Spot) : (s.pastWhile p).place.line = s.place.line := by
    rw [hplace, Position.behind_line (State.not_newline_of (fun _ => State.mem_takeWhile) hn)]
  refine ⟨by rwa [Spot.rest_pastWhile, Spot.rest_pastWhile], ?_, fun hf hne => ?_⟩
  · rw [hline, hline, h.line]
  · rw [Spot.rest_pastWhile] at hne
    have hsome : a.rest ≠ [] := by
      rintro hnil
      simp [hnil] at hne
    rw [hplace, hplace, htake hne, h.place hf hsome]

theorem pastGap (h : Abreast E fresh a a') : Abreast E fresh a.pastGap a'.pastGap := by
  refine h.pastWhile hE (fun _ => id) (by decide) (.inl fun c hc => ?_)
  simp only [isQuote, Bool.or_eq_true, decide_eq_true_eq] at hc
  rcases hc with rfl | rfl <;> decide

theorem lineEnd (h : Abreast E fresh a a') (hl : least ≤ a.lineEnd.rest.length) :
    Abreast E fresh a.lineEnd a'.lineEnd := by
  refine h.pastWhile hE (fun c hc => ?_) (by decide) (.inr hl)
  rw [decide_eq_true_eq]
  rintro rfl
  exact absurd hc (by decide)

/-- Both pass a comment up to the mark that closes it. -/
theorem pastComment {cs : List Char} (h : Abreast E fresh a a') (hr : a.rest = '/' :: '*' :: cs)
    (hb : a.pastComment? = some b) (hl : least ≤ b.rest.length) :
    ∃ b', a'.pastComment? = some b' ∧ Abreast E fresh b b' := by
  unfold Spot.pastComment? at hb ⊢
  dsimp only at hb ⊢
  obtain ⟨inside, hi, rfl⟩ := Option.map_eq_some_iff.1 hb
  have hnext : a.next.next.rest = cs := by
    rw [Spot.rest_next, Spot.rest_next, hr]
    rfl
  rw [hnext] at hi
  obtain ⟨more, rfl⟩ := Spot.commentText?_prefix hi
  obtain ⟨front, rfl⟩ := Spot.commentText?_closed hi
  have hmore : (a.next.next.past (front ++ ['*', '/'])).rest = more := (Spot.past_spec hnext).1
  rw [hmore] at hl
  have hr : a.rest = ('/' :: '*' :: (front ++ ['*'])) ++ '/' :: more := by simp [hr]
  obtain ⟨more', hr', hm⟩ := (hr ▸ h.rest).front hE (by decide) hl
  have hnext' : a'.next.next.rest = front ++ ['*', '/'] ++ more' := by
    rw [Spot.rest_next, Spot.rest_next, hr']
    simp
  refine ⟨a'.next.next.past (front ++ ['*', '/']), ?_, ?_⟩
  · rw [hnext', Spot.commentText?_append hi]
    rfl
  · have hb : a.rest = '/' :: '*' :: (front ++ ['*', '/']) ++ more := by simp [hr]
    exact h.past hb (by simp [hr']) hm

end Abreast

/-! ## States -/

/-- Two scanners that go abreast. -/
structure Near (R : Token → Token → Prop) (E : List Char → List Char → Prop) (s s' : State) :
    Prop where
  spot : Abreast E s.atLineStart s.spot s'.spot
  indents : s'.indents = s.indents
  brackets : s'.brackets = s.brackets
  atLineStart : s'.atLineStart = s.atLineStart
  tokens : List.Forall₂ R s.tokens s'.tokens

namespace Near

variable {s s' u : State} {c : Char} {rest rest' taken more more' : List Char} {m : ScanMode}

theorem moveTo (h : Near R E s s') {a a' : Spot} (ha : Abreast E s.atLineStart a a') :
    Near R E (s.moveTo a) (s'.moveTo a') :=
  ⟨ha, h.indents, h.brackets, h.atLineStart, h.tokens⟩

section Steps

variable (hR : Token.Lined R) (hE : Ends E least)

include hR in
/-- Both read a token that the texts share. -/
theorem push (h : Near R E s s') (hr : s.spot.rest = taken ++ more)
    (hr' : s'.spot.rest = taken ++ more') (hm : Shared E more more') (kind : TokenKind) :
    Near R E (s.push kind taken) (s'.push kind taken) where
  spot := h.spot.past hr hr' hm
  indents := h.indents
  brackets := h.brackets
  atLineStart := h.atLineStart
  tokens := .cons (hR.same _ _ _ _ h.spot.line) h.tokens

include hE in
theorem pastHash (h : Near R E s s') (hl : least ≤ s.pastHash.spot.rest.length) :
    Near R E s.pastHash s'.pastHash :=
  ⟨h.spot.lineEnd hE hl, h.indents, h.brackets, h.atLineStart, h.tokens⟩

include hE in
theorem pastComment (h : Near R E s s') (hr : s.spot.rest = '/' :: '*' :: rest)
    (hu : s.pastComment = .ok u) (hl : least ≤ u.spot.rest.length) :
    ∃ u', s'.pastComment = .ok u' ∧ Near R E u u' ∧ u.atLineStart = s.atLineStart := by
  unfold State.pastComment at hu ⊢
  cases hc : s.spot.pastComment? with
  | none => simp [hc, State.stop] at hu
  | some b =>
    rw [hc] at hu
    obtain rfl := Except.ok.inj hu
    obtain ⟨b', hb', hab⟩ := h.spot.pastComment hE hr hc hl
    exact ⟨s'.moveTo b', by rw [hb'], h.moveTo hab, rfl⟩

/-! ## Tokens of a line -/

include hR hE

theorem readName (h : Near R E s s') (g : Grammar) : Near R E (s.readName g) (s'.readName g) := by
  obtain ⟨htake, hm⟩ := h.spot.rest.run hE (p := Grammar.isWordChar) Text.isWordChar_enders
  have hr (a : Spot) := (List.takeWhile_append_dropWhile (p := Grammar.isWordChar) (l := a.rest)).symm
  have hr' : s'.spot.rest = s.spot.rest.takeWhile Grammar.isWordChar ++ _ := htake ▸ hr s'.spot
  unfold State.readName
  simp only [htake]
  exact h.push hR (hr s.spot) hr' hm _

theorem readNumber (h : Near R E s s') (hu : s.readNumber = .ok u) :
    ∃ u', s'.readNumber = .ok u' ∧ Near R E u u' := by
  obtain ⟨htake, hm⟩ := h.spot.rest.run hE (p := Text.isDigit) Text.isDigit_enders
  have hr (a : Spot) := (List.takeWhile_append_dropWhile (p := Text.isDigit) (l := a.rest)).symm
  have hr' : s'.spot.rest = s.spot.rest.takeWhile Text.isDigit ++ _ := htake ▸ hr s'.spot
  rw [State.readNumber_eq] at hu ⊢
  rw [htake, pointed_shared hE hm]
  split at hu
  · rename_i hp
    obtain rfl := Except.ok.inj hu
    obtain ⟨d, digits, hmore, -⟩ := pointed_iff.1 hp
    generalize d :: digits = more at hmore
    rw [hmore] at hm
    obtain ⟨more', hmore', hm⟩ := hm.head hE (by decide) (by decide)
    obtain ⟨hfraction, hbehind⟩ := hm.run hE (p := Text.isDigit) Text.isDigit_enders
    have hr := hr s.spot
    rw [hmore] at hr
    rw [hmore'] at hr'
    rw [if_pos hp, hmore, hmore']
    simp only [List.drop_succ_cons, List.drop_zero, hfraction]
    refine ⟨_, rfl, h.push hR ?_ ?_ hbehind _⟩
    · rw [List.append_assoc, List.cons_append, List.takeWhile_append_dropWhile]
      exact hr
    · rw [List.append_assoc, List.cons_append, ← hfraction, List.takeWhile_append_dropWhile]
      exact hr'
  · rename_i hp
    rw [if_neg hp]
    unfold State.readNumber.intToken at hu ⊢
    split at hu
    · rename_i hfits
      obtain rfl := Except.ok.inj hu
      rw [if_pos hfits]
      exact ⟨_, rfl, h.push hR (hr s.spot) hr' hm _⟩
    · simp [State.stop] at hu

omit hR hE in
/-- No symbol starts with a quote. -/
theorem readSymbol_quote (hq : isQuote c = true) : s.readSymbol c rest ≠ .ok u := by
  have hc : State.single? c = none ∧ State.pair? c '=' = none := by
    simp only [isQuote, Bool.or_eq_true, decide_eq_true_eq] at hq
    rcases hq with rfl | rfl <;> decide
  unfold State.readSymbol
  split
  · rename_i hpair
    simp only [Option.bind_eq_some_iff, Option.map_eq_some_iff] at hpair
    obtain ⟨d, -, symbol, hp, -⟩ := hpair
    obtain ⟨rfl, -⟩ := State.pair?_second hp
    simp [hc.2] at hp
  · simp [hc.1, State.stop]

theorem readSymbol (h : Near R E s s') (hc : s.spot.rest = c :: rest) (hc' : s'.spot.rest = c :: rest')
    (hm : Shared E rest rest') (hu : s.readSymbol c rest = .ok u) :
    ∃ u', s'.readSymbol c rest' = .ok u' ∧ Near R E u u' := by
  have hsecond : rest'.head? = some '=' ↔ rest.head? = some '=' := hm.head?_eq hE (by decide) (by decide)
  unfold State.readSymbol at hu ⊢
  split at hu
  · rename_i symbol taken hpair
    obtain rfl := Except.ok.inj hu
    simp only [Option.bind_eq_some_iff, Option.map_eq_some_iff, Prod.mk.injEq] at hpair
    obtain ⟨d, hd, symbol, hp, rfl, rfl⟩ := hpair
    obtain ⟨rfl, -⟩ := State.pair?_second hp
    obtain ⟨more, rfl⟩ := List.head?_eq_some_iff.1 hd
    obtain ⟨more', rfl, hbehind⟩ := hm.head hE (by decide) (by decide)
    simp only [List.head?_cons, Option.bind_some, hp, Option.map_some]
    exact ⟨_, rfl, h.push hR (show _ = [c, '='] ++ more from hc) hc' hbehind _⟩
  · rename_i hpair
    split at hu
    · rename_i symbol hsingle
      obtain rfl := Except.ok.inj hu
      have hpair' : (rest'.head?.bind fun d => (State.pair? c d).map fun symbol => (symbol, [c, d])) =
          none := by
        rw [Option.bind_eq_none_iff] at hpair ⊢
        intro d hd
        rw [Option.map_eq_none_iff, Option.eq_none_iff_forall_ne_some]
        intro symbol hp
        obtain ⟨rfl, -⟩ := State.pair?_second hp
        simpa [hp] using hpair _ (hsecond.1 hd)
      have hadv : Near R E (s.push (.symbol symbol) [c]) (s'.push (.symbol symbol) [c]) :=
        h.push hR (show _ = [c] ++ rest from hc) hc' hm _
      simp only [hpair']
      exact ⟨_, rfl, hadv.spot, hadv.indents, by simp only [h.brackets], hadv.atLineStart, hadv.tokens⟩
    · simp [State.stop] at hu

theorem readString (h : Near R E s s') (hc : s.spot.rest = c :: rest) (hq : c = '"' ∨ c = '\'')
    (hu : s.readString c = .ok u) (hl : least ≤ u.spot.rest.length) :
    ∃ u', s'.readString c = .ok u' ∧ Near R E u u' := by
  have hgap : Spot.isGap c = false := by rcases hq with rfl | rfl <;> decide
  unfold State.readString at hu ⊢
  dsimp only at hu ⊢
  split at hu
  · rename_i raw after hb
    obtain rfl := Except.ok.inj hu
    rw [(Spot.next_spec hc).1] at hb
    obtain ⟨rfl, -⟩ := Quotes.body_ok hb
    have hr : s.spot.rest = (c :: raw) ++ c :: after := hc
    have hr₂ : s.spot.rest = (c :: raw ++ [c]) ++ after := by simp [hc]
    rw [s.spot.past_quoted c, (Spot.past_spec hr₂).1] at hl
    obtain ⟨after', hr', hm⟩ := (hr ▸ h.spot.rest).front hE hgap hl
    have hnext : s'.spot.next.rest = raw ++ c :: after' := (Spot.next_spec hr').1
    have hclose : Quotes.body c .text s'.spot.next.place (raw ++ c :: after') = .ok (raw, after') :=
      Quotes.Closes.reworded hq hb (.refl false raw) .text _ after'
    rw [hnext, hclose]
    refine ⟨_, rfl, ?_, h.indents, h.brackets, h.atLineStart, .cons (hR.same _ _ _ _ h.spot.line) h.tokens⟩
    rw [s.spot.past_quoted c, s'.spot.past_quoted c]
    exact h.spot.past hr₂ (by simp [hr']) hm
  · simp [State.stop] at hu
  · simp [State.stop] at hu

omit hE in
/-- Both get behind the end of a line. -/
theorem newline (h : Near R E s s') (hc : s.spot.rest = '\n' :: rest)
    (hc' : s'.spot.rest = '\n' :: rest') (hm : Shared E rest rest') :
    Near R E { s.push .newline ['\n'] with atLineStart := true }
      { s'.push .newline ['\n'] with atLineStart := true } := by
  obtain ⟨hrest, hplace⟩ := Spot.past_spec (show s.spot.rest = ['\n'] ++ rest from hc)
  obtain ⟨hrest', hplace'⟩ := Spot.past_spec (show s'.spot.rest = ['\n'] ++ rest' from hc')
  have he : (s'.spot.past ['\n']).place = (s.spot.past ['\n']).place := by
    rw [hplace, hplace']
    change Position.mk (s'.spot.place.line + 1) 1 = Position.mk (s.spot.place.line + 1) 1
    rw [h.spot.line]
  exact ⟨⟨by simpa only [State.push, hrest, hrest'] using hm, congrArg Position.line he, fun _ _ => he⟩,
    h.indents, h.brackets, rfl, .cons (hR.same _ _ _ _ h.spot.line) h.tokens⟩

omit hR hE in
theorem pastNewline (h : Near R E s s') (hc : s.spot.rest = c :: rest)
    (hc' : s'.spot.rest = c :: rest') (hm : Shared E rest rest') :
    Near R E (s.moveTo s.spot.next) (s'.moveTo s'.spot.next) :=
  h.moveTo (h.spot.past (show _ = [c] ++ rest from hc) hc' hm)

/-- Both read what comes next on their line. -/
theorem readNext (h : Near R E s s') (hc : s.spot.rest = c :: rest) (hc' : s'.spot.rest = c :: rest')
    (hm : isQuote c = false → Shared E rest rest') (hu : s.readNext m c rest = .ok u)
    (hl : least ≤ u.spot.rest.length) : ∃ u', s'.readNext m c rest' = .ok u' ∧ Near R E u u' := by
  have hslash (hq : isQuote c = false) : rest'.head? = some '/' ↔ rest.head? = some '/' :=
    (hm hq).head?_eq hE (by decide) (by decide)
  have hstar (hq : isQuote c = false) : rest'.head? = some '*' ↔ rest.head? = some '*' :=
    (hm hq).head?_eq hE (by decide) (by decide)
  have hslash' : (c = '/' ∧ rest'.head? = some '/') ↔ (c = '/' ∧ rest.head? = some '/') := by
    refine and_congr_right fun hs => hslash ?_
    subst hs
    decide
  have hstar' : (c = '/' ∧ rest'.head? = some '*') ↔ (c = '/' ∧ rest.head? = some '*') := by
    refine and_congr_right fun hs => hstar ?_
    subst hs
    decide
  unfold State.readNext at hu ⊢
  simp only [hslash', hstar']
  split at hu
  · rename_i hn
    subst hn
    have hm := hm (by decide)
    rw [if_pos rfl, h.brackets]
    split at hu
    · rename_i hb
      obtain rfl := Except.ok.inj hu
      rw [if_pos hb]
      exact ⟨_, rfl, h.newline hR hc hc' hm⟩
    · rename_i hb
      obtain rfl := Except.ok.inj hu
      rw [if_neg hb]
      exact ⟨_, rfl, h.pastNewline hc hc' hm⟩
  rename_i hn
  rw [if_neg hn]
  split at hu
  · rename_i hs
    obtain rfl := Except.ok.inj hu
    rw [if_pos hs]
    exact ⟨_, rfl, h.moveTo (h.spot.lineEnd hE hl)⟩
  rename_i hs
  rw [if_neg hs]
  split at hu
  · rename_i hs
    obtain ⟨rfl, hs'⟩ := hs
    obtain ⟨more, rfl⟩ := List.head?_eq_some_iff.1 hs'
    obtain ⟨u', hu', hnear, -⟩ := h.pastComment hE hc hu hl
    rw [if_pos ⟨rfl, rfl⟩]
    exact ⟨u', hu', hnear⟩
  rename_i hs
  rw [if_neg hs]
  split at hu
  · rename_i hh
    obtain rfl := Except.ok.inj hu
    rw [if_pos hh]
    exact ⟨_, rfl, h.pastHash hE hl⟩
  rename_i hh
  rw [if_neg hh]
  split at hu
  · rename_i hq
    subst hq
    rw [if_pos rfl]
    exact h.readString hR hE hc (.inl rfl) hu hl
  rename_i hq
  rw [if_neg hq]
  split at hu
  · rename_i ha
    rw [if_pos ha]
    obtain ⟨rfl, ha⟩ := ha
    exact h.readString hR hE hc (.inr rfl) hu hl
  rename_i ha
  rw [if_neg ha]
  split at hu
  · rename_i hw
    obtain rfl := Except.ok.inj hu
    rw [if_pos hw]
    exact ⟨_, rfl, h.readName hR hE _⟩
  rename_i hw
  rw [if_neg hw]
  split at hu
  · rename_i hd
    rw [if_pos hd]
    exact h.readNumber hR hE hu
  · rename_i hd
    rw [if_neg hd]
    have hquote : isQuote c = false := Bool.eq_false_iff.2 fun hq => readSymbol_quote hq hu
    exact h.readSymbol hR hE hc hc' (hm hquote) hu

/-! ## The start of a line -/

omit hE in
theorem closeWider {w : Nat} {p p' : Position} (hl : p'.line = p.line) (indents : List Nat)
    {tokens tokens' : List Token} (h : List.Forall₂ R tokens tokens') :
    (State.closeWider w p' indents tokens').1 = (State.closeWider w p indents tokens).1 ∧
      List.Forall₂ R (State.closeWider w p indents tokens).2
        (State.closeWider w p' indents tokens').2 := by
  induction indents generalizing tokens tokens' with
  | nil => exact ⟨rfl, h⟩
  | cons top indents ih =>
    unfold State.closeWider
    split
    · exact ih (.cons (hR.same _ _ _ _ hl) h)
    · exact ⟨rfl, h⟩

omit hE in
/-- Both set the same indentation; the line has no start any more. -/
theorem indentTo (h : Near R E s s') {w : Nat} {p : State × Bool}
    (hu : (s.indentTo w).map (·, true) = .ok p) :
    ∃ u', (s'.indentTo w).map (·, true) = .ok (u', p.2) ∧ Near R E p.1 u' ∧
      (p.2 = true → p.1.atLineStart = false) := by
  obtain ⟨u, hi, rfl⟩ := map_eq_ok.1 hu
  obtain ⟨hindents, htokens⟩ := closeWider (w := w) hR h.spot.line s.indents h.tokens
  unfold State.indentTo at hi ⊢
  simp only [h.indents] at hi ⊢
  split at hi
  · rename_i hw
    obtain rfl := Except.ok.inj hi
    rw [if_pos hw]
    exact ⟨_, rfl, ⟨h.spot.later, rfl, h.brackets, rfl, .cons (hR.same _ _ _ _ h.spot.line) h.tokens⟩,
      fun _ => rfl⟩
  · rename_i hw
    rw [if_neg hw]
    split at hi
    · rename_i hback
      obtain rfl := Except.ok.inj hi
      rw [if_pos (by rw [hindents]; exact hback)]
      exact ⟨_, rfl, ⟨h.spot.later, hindents, h.brackets, rfl, htokens⟩, fun _ => rfl⟩
    · simp [State.stop] at hi

omit hR in
theorem lead_pastGap {fresh : Bool} {a a' : Spot} (h : Abreast E fresh a a') :
    lead a'.pastGap.rest = lead a.pastGap.rest :=
  lead_shared hE (h.pastGap hE).rest a.head_pastGap a'.head_pastGap

/-- Both pass the same lines without code. -/
theorem startLine {fuel fuel' : Nat} {p : State × Bool} (h : Near R E s s') (hs : s.atLineStart = true)
    (hf : s.spot.rest.length < fuel) (hf' : s'.spot.rest.length < fuel')
    (hu : s.startLine fuel = .ok p) (hl : least ≤ p.1.spot.rest.length) :
    ∃ u', s'.startLine fuel' = .ok (u', p.2) ∧ Near R E p.1 u' ∧ (p.2 = true → p.1.atLineStart = false) := by
  induction fuel generalizing s s' fuel' with
  | zero => omega
  | succ fuel ih =>
  obtain ⟨fuel', rfl⟩ : ∃ n, fuel' = n + 1 := ⟨fuel' - 1, by omega⟩
  have hgap := h.spot.pastGap hE
  have hat : Near R E (s.moveTo s.spot.pastGap) (s'.moveTo s'.spot.pastGap) := h.moveTo hgap
  have hle := Spot.rest_pastGap_le s.spot
  have hle' := Spot.rest_pastGap_le s'.spot
  -- behind a line without code
  have again {a a' : State} (ha : Near R E a a') (hline : a.atLineStart = true)
      (hlt : a.spot.rest.length < s.spot.rest.length)
      (hlt' : a'.spot.rest.length < s'.spot.rest.length) (hu : a.startLine fuel = .ok p) :
      ∃ u', a'.startLine fuel' = .ok (u', p.2) ∧ Near R E p.1 u' ∧
        (p.2 = true → p.1.atLineStart = false) := by
    have hlt' : a'.spot.rest.length < fuel' := by omega
    exact ih ha hline (by omega) hlt' hu
  -- and enough of the text is left there
  have left {a : State} (hlt : a.spot.rest.length < s.spot.rest.length)
      (hu : a.startLine fuel = .ok p) : least ≤ a.spot.rest.length := by
    have := (State.adds_startLine (s := a) (by omega) hu).2.1
    omega
  rw [State.startLine_eq] at hu ⊢
  rw [lead_pastGap hE h.spot]
  rcases lead_cases s.spot.pastGap.rest with ⟨he, hr⟩ | ⟨ds, he, hr⟩ | ⟨ds, he, hr⟩ | ⟨ds, he, hr⟩ |
    ⟨ds, he, hr⟩ | he
  all_goals rw [he] at hu ⊢
  · obtain rfl := Except.ok.inj hu
    exact ⟨_, rfl, hat, by simp⟩
  · obtain ⟨ds', hr', hm⟩ := (hr ▸ hgap.rest).head hE (by decide) (by decide)
    have hlt : s.spot.pastGap.next.rest.length < s.spot.rest.length := by
      rw [(Spot.next_spec hr).1]
      simp only [hr, List.length_cons] at hle
      omega
    have hlt' : s'.spot.pastGap.next.rest.length < s'.spot.rest.length := by
      rw [(Spot.next_spec hr').1]
      simp only [hr', List.length_cons] at hle'
      omega
    exact again (hat.pastNewline hr hr' hm) hs hlt hlt' hu
  · obtain ⟨ds', hr', hm⟩ := (hr ▸ hgap.rest).head hE (by decide) (by decide)
    have hlt := Nat.lt_of_lt_of_le (Spot.rest_lineEnd_lt hr (by decide)) hle
    have hlt' := Nat.lt_of_lt_of_le (Spot.rest_lineEnd_lt hr' (by decide)) hle'
    exact again (hat.pastHash hE (left hlt hu)) hs hlt hlt' hu
  · obtain ⟨ds', hr', hm⟩ := (hr ▸ hgap.rest).head hE (by decide) (by decide)
    have hlt := Nat.lt_of_lt_of_le (Spot.rest_lineEnd_lt hr (by decide)) hle
    have hlt' := Nat.lt_of_lt_of_le (Spot.rest_lineEnd_lt hr' (by decide)) hle'
    exact again (hat.moveTo (hgap.lineEnd hE (left hlt hu))) hs hlt hlt' hu
  · dsimp only at hu ⊢
    cases hc : (s.moveTo s.spot.pastGap).pastComment with
    | error stop => simp [hc] at hu
    | ok a =>
      rw [hc] at hu
      dsimp only at hu
      have hlt := Nat.lt_of_le_of_lt (Spot.rest_pastGap_le a.spot)
        (Nat.lt_of_lt_of_le (State.rest_pastComment_lt hr hc) hle)
      have hleft : least ≤ a.spot.rest.length := by
        refine Nat.le_trans ?_ (Spot.rest_pastGap_le a.spot)
        split at hu
        · obtain ⟨-, hspot, -⟩ := State.adds_indentTo_map hu
          rwa [hspot] at hl
        · exact left hlt hu
      obtain ⟨a', hc', hnear, hline⟩ := hat.pastComment hE hr hc hleft
      obtain ⟨es, hr', hm⟩ := (hr ▸ hgap.rest).head hE (by decide) (by decide)
      obtain ⟨ds', rfl, -⟩ := hm.head hE (by decide) (by decide)
      have hlt' := Nat.lt_of_le_of_lt (Spot.rest_pastGap_le a'.spot)
        (Nat.lt_of_lt_of_le (State.rest_pastComment_lt hr' hc') hle')
      have hgap := hnear.spot.pastGap hE
      have hstart : a.atLineStart = true := hline.trans hs
      rw [hc']
      dsimp only
      rw [lead_pastGap hE hnear.spot]
      split at hu
      · rename_i hcode
        have hsome : a.spot.pastGap.rest ≠ [] := by
          rintro hnil
          simp [hnil, lead] at hcode
        rw [if_pos hcode, hgap.place hstart hsome]
        exact (hnear.moveTo hgap).indentTo hR hu
      · rename_i hblank
        rw [if_neg hblank]
        exact again (hnear.moveTo hgap) hstart hlt hlt' hu
  · have hsome : s.spot.pastGap.rest ≠ [] := by
      rintro hnil
      simp [hnil, lead] at he
    have hw : s'.width = s.width := by
      rw [Spot.pastGap, Spot.rest_pastWhile] at hsome
      rw [State.width, State.width, (h.spot.rest.gap hE).2 hsome]
    rw [hw]
    exact hat.indentTo hR hu

/-! ## Steps and runs -/

/-- Both read what comes next on a line that was started. -/
theorem onLine {p q : State × Bool} {v : State} (h : Near R E q.1 v)
    (hu : State.onLine m q = .ok p) (hl : least ≤ p.1.spot.rest.length) :
    ∃ u', State.onLine m (v, q.2) = .ok (u', p.2) ∧ Near R E p.1 u' := by
  have hgap := h.spot.pastGap hE
  have hfirst := hgap.rest.first hE q.1.spot.head_pastGap v.spot.head_pastGap
  unfold State.onLine
  rcases State.onLine_ok hu with ⟨hno, rfl⟩ | ⟨hmore, hu⟩
  · rw [if_neg (by simp [hno])]
    exact ⟨v, by simp, h⟩
  rw [if_pos hmore]
  rcases hfirst with ⟨hr, hr'⟩ | ⟨c, rest, rest', hr, hr', -, hm⟩
  · rcases hu with ⟨-, rfl⟩ | ⟨_, _, _, hr₂, -⟩
    · dsimp only
      rw [hr']
      exact ⟨_, rfl, h.moveTo hgap⟩
    · simp [hr] at hr₂
  · rcases hu with ⟨hr₂, -⟩ | ⟨c₂, rest₂, u, hr₂, hn, rfl⟩
    · simp [hr] at hr₂
    · obtain ⟨rfl, rfl⟩ := List.cons.inj (hr.symm.trans hr₂)
      obtain ⟨u', hu', hnear⟩ := (h.moveTo hgap).readNext hR hE hr hr' hm hn hl
      dsimp only
      rw [hr']
      exact ⟨u', by simp only [hu']; rfl, hnear⟩

theorem step {fuel fuel' : Nat} {p : State × Bool} (h : Near R E s s')
    (hf : s.spot.rest.length < fuel) (hf' : s'.spot.rest.length < fuel') (hu : s.step m fuel = .ok p)
    (hl : least ≤ p.1.spot.rest.length) :
    ∃ u', s'.step m fuel' = .ok (u', p.2) ∧ Near R E p.1 u' := by
  rw [State.step_eq] at hu ⊢
  rw [h.atLineStart]
  split at hu
  · rename_i hs
    rw [if_pos hs]
    obtain ⟨q, hq, hu⟩ := ok_of_bind hu
    have hleft : least ≤ q.1.spot.rest.length := by
      have hle := Spot.rest_pastGap_le q.1.spot
      rcases State.onLine_ok hu with ⟨-, rfl⟩ | ⟨-, ⟨-, rfl⟩ | ⟨c, rest, u, hr, hn, rfl⟩⟩
      · exact hl
      · exact Nat.le_trans hl hle
      · exact Nat.le_trans hl (Nat.le_trans (Nat.le_of_lt (State.gets_readNext hr hn).less) hle)
    obtain ⟨v, hv, hnear, -⟩ := h.startLine hR hE hs hf hf' hq hleft
    rw [hv]
    exact hnear.onLine hR hE hu hl
  · rename_i hs
    rw [if_neg hs]
    exact Near.onLine hR hE (q := (s, true)) h hu hl

omit hE in
theorem finish (h : Near R E s s') : List.Forall₂ R s.finish s'.finish := by
  have layout (kind : TokenKind) (literal : String) :
      R ⟨kind, literal, s.spot.place⟩ ⟨kind, literal, s'.spot.place⟩ := hR.same _ _ _ _ h.spot.line
  have htokens := h.tokens
  unfold State.finish
  dsimp only
  rw [h.indents]
  refine List.rel_append (List.rel_append (List.rel_append (List.rel_reverse htokens) ?_) ?_)
    (.cons (layout _ _) .nil)
  · revert htokens
    generalize s.tokens = tokens, s'.tokens = tokens'
    rintro (_ | ⟨ht, _⟩)
    · exact .nil
    · dsimp only
      rw [hR.kind _ _ ht]
      split
      · exact .nil
      · exact .cons (layout _ _) .nil
  · exact List.forall₂_map_left_iff.2 (List.forall₂_map_right_iff.2
      (List.forall₂_same.2 fun _ _ => layout _ _))

omit hE in
/-- Where blanks are all they differ in at their ends, both texts are read to their end. -/
theorem run {n n' : Nat} {ts : List Token} (hE : Ends E 0) (h : Near R E s s')
    (hf : s.spot.rest.length < n) (hf' : s'.spot.rest.length < n')
    (hr : (s.run m n).tokens = .ok ts) :
    ∃ ts', (s'.run m n').tokens = .ok ts' ∧ List.Forall₂ R ts ts' := by
  induction n generalizing s s' n' with
  | zero => omega
  | succ n ih =>
    obtain ⟨n', rfl⟩ : ∃ k, n' = k + 1 := ⟨n' - 1, by omega⟩
    unfold State.run at hr ⊢
    split at hr
    · simp at hr
    · rename_i u hu
      obtain ⟨u', hu', (hnear : Near R E u u')⟩ := h.step hR hE hf hf' hu (Nat.zero_le _)
      have hless : u.spot.rest.length < s.spot.rest.length := (State.adds_step hf hu).2.1 rfl
      have hless' : u'.spot.rest.length < s'.spot.rest.length := (State.adds_step hf' hu').2.1 rfl
      rw [hu']
      exact ih hnear (by omega) (by omega) hr
    · rename_i u hu
      obtain ⟨u', hu', hnear⟩ := h.step hR hE hf hf' hu (Nat.zero_le _)
      obtain rfl := Except.ok.inj hr
      rw [hu']
      exact ⟨_, rfl, hnear.finish hR⟩

end Steps

end Near

theorem near_start {text text' : List Char} (h : Shared E (Text.dropMark text) (Text.dropMark text')) :
    Near R E (.start text) (.start text') :=
  ⟨⟨h, rfl, fun _ _ => rfl⟩, rfl, rfl, rfl, .nil⟩

end Scan

end StoryLang
