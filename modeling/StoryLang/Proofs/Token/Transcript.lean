/-
A text can be read back from its tokens.

Reading takes a text apart into tokens and what stands between them: blanks,
ends of lines and comments. Nothing is left out and nothing is read twice.
`Transcript` follows a text from a place on, piece by piece; a step of the
scanner passes some pieces, and all steps together pass the whole text.
-/
import StoryLang.Proofs.Token.Follow
import StoryLang.Proofs.Token.Layout

namespace StoryLang

namespace Position

/-- Earlier in the text. -/
instance : LT Position := ⟨fun p q => p.line < q.line ∨ (p.line = q.line ∧ p.column < q.column)⟩

end Position

/-- The text that a token stands for. A string has its quotes around it. -/
def Token.WrittenAs (t : Token) (written : List Char) : Prop :=
  if t.kind = .string then
    ∃ quote, (quote = '"' ∨ quote = '\'') ∧ written = quote :: t.literal.toList ++ [quote]
  else written = t.literal.toList

/-- A text from a place on, and the tokens it stands for in order. -/
inductive Transcript : Position → List Char → List Token → Prop where
  | done {p : Position} : Transcript p [] []
  | blank {p : Position} {c : Char} {rest : List Char} {ts : List Token}
    (kind : c ∈ [' ', '\t', '\r', '\x0c', '\n']) (others : Transcript (p.after c) rest ts) :
    Transcript p (c :: rest) ts
  /-- A comment up to the end of its line. -/
  | lineComment {p : Position} {mark body rest : List Char} {ts : List Token}
    (opens : mark = ['/', '/'] ∨ mark = ['#']) (line : '\n' ∉ body)
    (ends : ∀ c ∈ rest.head?, c = '\n') (others : Transcript (p.behind (mark ++ body)) rest ts) :
    Transcript p (mark ++ body ++ rest) ts
  /-- A comment up to the first mark that closes it. -/
  | blockComment {p : Position} {body rest : List Char} {ts : List Token}
    (first : ¬ ['*', '/'] <:+: body ++ ['*'])
    (others : Transcript (p.behind (['/', '*'] ++ body ++ ['*', '/'])) rest ts) :
    Transcript p (['/', '*'] ++ body ++ ['*', '/'] ++ rest) ts
  | token {p : Position} {t : Token} {written rest : List Char} {ts : List Token}
    (place : t.position = p) (text : t.WrittenAs written)
    (others : Transcript (p.behind written) rest ts) : Transcript p (written ++ rest) (t :: ts)

/-- A token stands in a text where its position says, if the text starts at `p`. -/
def Token.StandsIn (t : Token) (p : Position) (text : List Char) : Prop :=
  ∃ front written rest, text = front ++ written ++ rest ∧ t.position = p.behind front ∧
    t.WrittenAs written

theorem Token.StandsIn.behind {t : Token} {p : Position} {front text : List Char}
    (h : t.StandsIn (p.behind front) text) : t.StandsIn p (front ++ text) := by
  obtain ⟨cs, written, rest, rfl, hp, hw⟩ := h
  exact ⟨front ++ cs, written, rest, by simp, by rw [hp, Position.behind_append], hw⟩

theorem Transcript.each {p : Position} {text : List Char} {ts : List Token}
    (h : Transcript p text ts) : ∀ t ∈ ts, t.StandsIn p text := by
  induction h with
  | done => simp
  | blank _ _ ih => exact fun t ht => (show t.StandsIn (_ : Position) ([_] ++ _) from (ih t ht).behind)
  | lineComment _ _ _ _ ih | blockComment _ _ ih => exact fun t ht => (ih t ht).behind
  | token place text _ ih =>
    exact List.forall_mem_cons.2 ⟨⟨[], _, _, rfl, place, text⟩, fun t ht => (ih t ht).behind⟩

/-- The tokens of a text stand for all of it but its blanks and comments. -/
structure Transcribes (text : List Char) (ts : List Token) : Prop where
  /-- Between the tokens are blanks, ends of lines and comments. -/
  whole : Transcript .first text ts
  /-- Each token stands in the text at its position. -/
  each : ∀ t ∈ ts, t.StandsIn .first text
  increasing : ts.Pairwise fun t u => t.position < u.position
  /-- A token ends before the next one starts. -/
  apart : ts.Pairwise fun t u => t.Before u.position

namespace Spot

/-- Reading from one spot to another passes text that stands for some tokens. -/
def Passes (s s' : Spot) (ts : List Token) : Prop :=
  ∀ us, Transcript s'.place s'.rest us → Transcript s.place s.rest (ts ++ us)

variable {s s' s'' : Spot} {ts us : List Token} {rest : List Char} {c : Char}

theorem Passes.refl (s : Spot) : s.Passes s [] := fun _ h => h

theorem Passes.trans (h : s.Passes s' ts) (h' : s'.Passes s'' us) : s.Passes s'' (ts ++ us) :=
  fun vs hv => by
    rw [List.append_assoc]
    exact h _ (h' _ hv)

theorem passes_blank (hr : s.rest = c :: rest) (hc : c ∈ [' ', '\t', '\r', '\x0c', '\n']) :
    s.Passes s.next [] := by
  intro us h
  obtain ⟨hrest, hplace⟩ := next_spec hr
  rw [hrest, hplace] at h
  rw [hr]
  exact .blank hc h

theorem isGap_blank (h : isGap c = true) : c ∈ [' ', '\t', '\r', '\x0c', '\n'] := by
  simp only [isGap, Bool.or_eq_true, decide_eq_true_eq] at h
  rcases h with ((rfl | rfl) | rfl) | h
  · simp
  · simp
  · simp
  · obtain rfl : c = '\x0c' := Char.toNat_inj.1 h
    simp

theorem passes_blanks {taken : List Char} (hr : s.rest = taken ++ rest)
    (ht : ∀ c ∈ taken, c ∈ [' ', '\t', '\r', '\x0c', '\n']) : s.Passes (s.past taken) [] := by
  induction taken generalizing s with
  | nil => exact .refl s
  | cons c taken ih =>
    obtain ⟨hc, ht⟩ := List.forall_mem_cons.1 ht
    exact (passes_blank hr hc).trans (ih (next_spec hr).1 ht)

theorem passes_pastGap (s : Spot) : s.Passes s.pastGap [] :=
  passes_blanks (List.takeWhile_append_dropWhile (p := isGap)).symm fun _ hc =>
    isGap_blank (List.all_eq_true.1 List.all_takeWhile _ hc)

theorem passes_lineEnd {mark : List Char} (hr : s.rest = mark ++ rest)
    (hm : mark = ['/', '/'] ∨ mark = ['#']) : s.Passes s.lineEnd [] := by
  have hn : ∀ c ∈ mark, decide (c ≠ '\n') = true := by rcases hm with rfl | rfl <;> simp
  intro us h
  have htaken : s.rest.takeWhile (· ≠ '\n') = mark ++ rest.takeWhile (· ≠ '\n') := by
    rw [hr, List.takeWhile_append_of_pos hn]
  have hsplit : s.rest = mark ++ rest.takeWhile (· ≠ '\n') ++ s.lineEnd.rest := by
    rw [← htaken, lineEnd, rest_pastWhile, List.takeWhile_append_dropWhile]
  have hplace : s.lineEnd.place = s.place.behind (mark ++ rest.takeWhile (· ≠ '\n')) := by
    rw [← htaken]
    exact (past_spec (List.takeWhile_append_dropWhile (p := (· ≠ '\n'))).symm).2
  rw [hplace] at h
  rw [hsplit]
  refine .lineComment hm (fun hmem => ?_) (fun c hc => ?_) h
  · simpa using List.all_eq_true.1 List.all_takeWhile _ hmem
  · rw [lineEnd, rest_pastWhile] at hc
    have hhead := List.head?_dropWhile_not (· ≠ '\n') s.rest
    rw [Option.mem_def.1 hc] at hhead
    simpa using hhead

/-- A block comment ends at the first mark that can close it. -/
theorem commentText?_ok {cs taken : List Char} (h : commentText? cs = some taken) :
    ∃ body, taken = body ++ ['*', '/'] ∧ ¬ ['*', '/'] <:+: body ++ ['*'] := by
  fun_induction commentText? cs generalizing taken with
  | case1 => simp at h
  | case2 rest =>
    obtain rfl : ['*', '/'] = taken := by simpa using h
    exact ⟨[], rfl, by decide⟩
  | case3 c cs hne ih =>
    obtain ⟨taken', h', rfl⟩ := Option.map_eq_some_iff.1 h
    obtain ⟨body, rfl, hopen⟩ := ih h'
    obtain ⟨rest, rfl⟩ := commentText?_prefix h'
    refine ⟨c :: body, rfl, fun hinfix => ?_⟩
    rcases List.infix_cons_iff.1 hinfix with hprefix | hinfix
    · -- the mark would close the comment here already
      obtain ⟨rfl, hslash⟩ := List.cons_prefix_cons.1 hprefix
      cases body with
      | nil => simp at hslash
      | cons d body =>
        obtain ⟨rfl, -⟩ := List.cons_prefix_cons.1 hslash
        exact hne _ rfl rfl
    · exact hopen hinfix

theorem passes_pastComment (hr : s.rest = '/' :: '*' :: rest) (h : s.pastComment? = some s') :
    s.Passes s' [] := by
  unfold pastComment? at h
  obtain ⟨taken, htaken, rfl⟩ := Option.map_eq_some_iff.1 h
  obtain ⟨body, rfl, hfirst⟩ := commentText?_ok htaken
  obtain ⟨more, hmore⟩ := commentText?_prefix htaken
  obtain ⟨hrest, hplace⟩ := past_spec hmore
  obtain ⟨hr₁, hp₁⟩ := next_spec hr
  obtain ⟨hr₂, hp₂⟩ := next_spec hr₁
  intro us hus
  rw [hrest, hplace, hp₂, hp₁] at hus
  rw [hr, ← hr₂, hmore]
  exact .blockComment hfirst hus

end Spot

namespace Scan.State

variable {s s' s'' : State} {ts us : List Token} {m : ScanMode} {c : Char} {rest : List Char}

/-- Reading from one state to another passes text, and the tokens it stands for
are those that were added. -/
structure Adds (s s' : State) (ts : List Token) : Prop where
  passes : s.spot.Passes s'.spot ts
  tokens : s'.tokens.filter Token.isCode = ts.reverse ++ s.tokens.filter Token.isCode

theorem Adds.trans (h : s.Adds s' ts) (h' : s'.Adds s'' us) : s.Adds s'' (ts ++ us) :=
  ⟨h.passes.trans h'.passes, by rw [h'.tokens, h.tokens, List.reverse_append, List.append_assoc]⟩

theorem adds_moveTo {spot : Spot} (h : s.spot.Passes spot []) : s.Adds (s.moveTo spot) [] := ⟨h, rfl⟩

theorem adds_pastGap (s : State) : s.Adds (s.moveTo s.spot.pastGap) [] :=
  adds_moveTo s.spot.passes_pastGap

theorem adds_next (hr : s.spot.rest = '\n' :: rest) : s.Adds (s.moveTo s.spot.next) [] :=
  adds_moveTo (Spot.passes_blank hr (by simp))

theorem adds_pastHash (hr : s.spot.rest = '#' :: rest) : s.Adds s.pastHash [] :=
  ⟨Spot.passes_lineEnd (show s.spot.rest = ['#'] ++ rest from hr) (.inr rfl), rfl⟩

theorem adds_pastSlashes (hr : s.spot.rest = '/' :: '/' :: rest) :
    s.Adds (s.moveTo s.spot.lineEnd) [] :=
  adds_moveTo (Spot.passes_lineEnd (show s.spot.rest = ['/', '/'] ++ rest from hr) (.inl rfl))

theorem adds_pastComment (hr : s.spot.rest = '/' :: '*' :: rest) (h : s.pastComment = .ok s') :
    s.Adds s' [] := by
  obtain ⟨spot, hspot, rfl⟩ := pastComment_ok h
  exact adds_moveTo (Spot.passes_pastComment hr hspot)

/-- A comment is at least as long as its marks. -/
theorem rest_pastComment_lt (hr : s.spot.rest = '/' :: '*' :: rest) (h : s.pastComment = .ok s') :
    s'.spot.rest.length < s.spot.rest.length := by
  obtain ⟨spot, hspot, rfl⟩ := pastComment_ok h
  obtain ⟨taken, -, rfl⟩ := Option.map_eq_some_iff.1 hspot
  rw [moveTo, Spot.rest_past, Spot.rest_next, Spot.rest_next, hr]
  simp only [List.drop_succ_cons, List.drop_zero, List.length_drop, List.length_cons]
  omega

/-! ## The start of a line -/

theorem filter_closeWider {w : Nat} {place : Position} {indents : List Nat} {tokens : List Token} :
    (closeWider w place indents tokens).2.filter Token.isCode = tokens.filter Token.isCode := by
  induction indents generalizing tokens with
  | nil => rfl
  | cons top indents ih =>
    unfold closeWider
    split
    · exact ih
    · rfl

theorem adds_indentTo {w : Nat} (hs : s.indentTo w = .ok s') :
    s.Adds s' [] ∧ s'.spot = s.spot := by
  rcases indentTo_ok hs with rfl | rfl
  · exact ⟨⟨.refl _, rfl⟩, rfl⟩
  · exact ⟨⟨.refl _, filter_closeWider⟩, rfl⟩

theorem adds_indentTo_map {w : Nat} {p : State × Bool} (hs : (s.indentTo w).map (·, true) = .ok p) :
    s.Adds p.1 [] ∧ p.1.spot = s.spot ∧ p.2 = true := by
  obtain ⟨t, ht, rfl⟩ := map_eq_ok.1 hs
  obtain ⟨hadds, hspot⟩ := adds_indentTo ht
  exact ⟨hadds, hspot, rfl⟩

/-- Where a line starts, blanks, comments and empty lines are passed. With enough
fuel the text ends if no line is found. -/
theorem adds_startLine {fuel : Nat} {p : State × Bool} (hf : s.spot.rest.length < fuel)
    (hs : s.startLine fuel = .ok p) :
    s.Adds p.1 [] ∧ p.1.spot.rest.length ≤ s.spot.rest.length ∧ (p.2 = false → p.1.spot.rest = []) := by
  induction fuel generalizing s with
  | zero => omega
  | succ fuel ih =>
    have hgap := s.spot.rest_pastGap_le
    have hadds := s.adds_pastGap
    unfold startLine at hs
    dsimp only at hs
    generalize hg : s.moveTo s.spot.pastGap = g at hs hadds
    replace hgap : g.spot.rest.length ≤ s.spot.rest.length := hg ▸ hgap
    have further {u : State} (hu : g.Adds u []) (hlt : u.spot.rest.length < g.spot.rest.length)
        (hs : u.startLine fuel = .ok p) :
        s.Adds p.1 [] ∧ p.1.spot.rest.length ≤ s.spot.rest.length ∧
          (p.2 = false → p.1.spot.rest = []) := by
      obtain ⟨ha, hle, hend⟩ := ih (by omega) hs
      exact ⟨hadds.trans (hu.trans ha), by omega, hend⟩
    split at hs
    · rename_i hr
      obtain rfl := Except.ok.inj hs
      exact ⟨hadds, hgap, fun _ => hr⟩
    · rename_i hr
      exact further (adds_next hr) (by rw [moveTo, (Spot.next_spec hr).1, hr]; simp) hs
    · rename_i hr
      exact further (adds_pastHash hr) (Spot.rest_lineEnd_lt hr (by decide)) hs
    · rename_i hr
      exact further (adds_pastSlashes hr) (Spot.rest_lineEnd_lt hr (by decide)) hs
    · rename_i hr
      split at hs
      · simp at hs
      · rename_i u hu
        have hlt := rest_pastComment_lt hr hu
        have hle := u.spot.rest_pastGap_le
        have hpast := (adds_pastComment hr hu).trans u.adds_pastGap
        split at hs
        · exact further hpast (Nat.lt_of_le_of_lt hle hlt) hs
        · obtain ⟨ha, hspot, hmore⟩ := adds_indentTo_map hs
          refine ⟨hadds.trans (hpast.trans ha), ?_, by simp [hmore]⟩
          rw [hspot, moveTo]
          dsimp only
          omega
    · obtain ⟨ha, hspot, hmore⟩ := adds_indentTo_map hs
      exact ⟨hadds.trans ha, by rw [hspot]; exact hgap, by simp [hmore]⟩

/-! ## Tokens of a line -/

/-- Reading on takes some text, and adds the tokens it stands for. -/
structure Gets (s s' : State) : Prop where
  adds : ∃ ts, s.Adds s' ts
  less : s'.spot.rest.length < s.spot.rest.length

theorem gets_push {kind : TokenKind} {taken : List Char} (hr : s.spot.rest = taken ++ rest)
    (hne : taken ≠ []) (hk : kind.isLayout = false ∧ kind ≠ .string) :
    s.Gets (s.push kind taken) := by
  refine ⟨⟨[⟨kind, String.ofList taken, s.spot.place⟩], fun us h => ?_, ?_⟩, Spot.rest_past_lt hr hne⟩
  · obtain ⟨hrest, hplace⟩ := Spot.past_spec hr
    rw [show (s.push kind taken).spot = s.spot.past taken from rfl, hrest, hplace] at h
    rw [hr]
    exact .token rfl (by simp [Token.WrittenAs, hk.2]) h
  · exact List.filter_cons_of_pos (by simp [Token.isCode, hk.1])

theorem gets_readString {quote : Char} (hr : s.spot.rest = quote :: rest)
    (hq : quote = '"' ∨ quote = '\'') (h : s.readString quote = .ok s') : s.Gets s' := by
  obtain ⟨hr₁, hp₁⟩ := Spot.next_spec hr
  unfold readString at h
  dsimp only at h
  split at h
  · rename_i text after hb
    obtain rfl := Except.ok.inj h
    obtain ⟨hbody, -⟩ := Quotes.body_ok hb
    obtain ⟨hr₂, hp₂⟩ := Spot.past_spec hbody
    obtain ⟨hr₃, hp₃⟩ := Spot.next_spec hr₂
    have hrest : s.spot.rest = (quote :: text ++ [quote]) ++ after := by
      rw [hr, ← hr₁, hbody]
      simp
    refine ⟨⟨[⟨.string, String.ofList text, s.spot.place⟩], fun us h => ?_, ?_⟩, ?_⟩
    · have hplace : (s.spot.next.past text).next.place =
          s.spot.place.behind (quote :: text ++ [quote]) := by
        rw [hp₃, hp₂, hp₁, Position.behind_append]
        rfl
      rw [hr₃, hplace] at h
      rw [hrest]
      exact .token rfl (by simpa [Token.WrittenAs] using hq) h
    · exact List.filter_cons_of_pos rfl
    · rw [hr₃, hrest]
      simp only [List.length_append, List.length_cons]
      omega
  · simp [stop] at h
  · simp [stop] at h

theorem gets_readName {g : Grammar} (hr : s.spot.rest = c :: rest)
    (hc : Grammar.isWordStart c = true) : s.Gets (s.readName g) := by
  refine gets_push List.takeWhile_append_dropWhile.symm ?_ ?_
  · simp [hr, Grammar.isWordChar, hc]
  · split <;> simp

theorem gets_intToken {whole : List Char} (hr : s.spot.rest = whole ++ rest) (hne : whole ≠ [])
    (h : readNumber.intToken s whole = .ok s') : s.Gets s' := by
  unfold readNumber.intToken at h
  split at h
  · obtain rfl := Except.ok.inj h
    exact gets_push hr hne (by simp)
  · simp [stop] at h

theorem gets_readNumber (hr : s.spot.rest = c :: rest) (hc : Text.isDigit c = true)
    (h : s.readNumber = .ok s') : s.Gets s' := by
  have hne : s.spot.rest.takeWhile Text.isDigit ≠ [] := by simp [hr, hc]
  have hsplit := (List.takeWhile_append_dropWhile (p := Text.isDigit) (l := s.spot.rest)).symm
  unfold readNumber at h
  dsimp only at h
  split at h
  · rename_i d more hrest
    split at h
    · obtain rfl := Except.ok.inj h
      refine gets_push (show _ = _ ++ (d :: more).dropWhile Text.isDigit from ?_) (by simp) (by simp)
      rw [List.append_assoc, List.cons_append, List.takeWhile_append_dropWhile, ← hrest]
      exact hsplit
    · exact gets_intToken hsplit hne h
  · exact gets_intToken hsplit hne h

theorem gets_readSymbol (hr : s.spot.rest = c :: rest) (h : s.readSymbol c rest = .ok s') :
    s.Gets s' := by
  unfold readSymbol at h
  split at h
  · rename_i symbol taken hpair
    obtain rfl := Except.ok.inj h
    simp only [Option.bind_eq_some_iff, Option.map_eq_some_iff, Prod.mk.injEq] at hpair
    obtain ⟨d, hd, symbol, -, rfl, rfl⟩ := hpair
    obtain ⟨more, rfl⟩ : ∃ more, rest = d :: more := by
      cases rest <;> simp_all
    exact gets_push (show s.spot.rest = [c, d] ++ more from hr) (by simp) (by simp)
  · split at h
    · obtain rfl := Except.ok.inj h
      have hr : s.spot.rest = [c] ++ rest := hr
      have hget := gets_push hr (List.cons_ne_nil c []) (by simp : (TokenKind.symbol ‹_›).isLayout = false ∧ _)
      exact ⟨hget.adds.imp fun _ h => ⟨h.passes, h.tokens⟩, hget.less⟩
    · simp [stop] at h

theorem gets_readNext (hr : s.spot.rest = c :: rest) (h : s.readNext m c rest = .ok s') :
    s.Gets s' := by
  unfold readNext at h
  split at h
  · rename_i hc
    subst hc
    have hadds := adds_next hr
    have hless : s.spot.next.rest.length < s.spot.rest.length := by
      rw [(Spot.next_spec hr).1, hr]
      exact Nat.lt_succ_self _
    split at h
    · obtain rfl := Except.ok.inj h
      exact ⟨⟨[], hadds.passes, List.filter_cons_of_neg (by simp [Token.isCode, TokenKind.isLayout])⟩,
        hless⟩
    · obtain rfl := Except.ok.inj h
      exact ⟨⟨[], hadds⟩, hless⟩
  split at h
  · rename_i hc
    obtain ⟨rfl, more, rfl⟩ : c = '/' ∧ ∃ more, rest = '/' :: more := by
      cases rest <;> simp_all
    obtain rfl := Except.ok.inj h
    exact ⟨⟨[], adds_pastSlashes hr⟩, Spot.rest_lineEnd_lt hr (by decide)⟩
  split at h
  · rename_i hc
    obtain ⟨rfl, more, rfl⟩ : c = '/' ∧ ∃ more, rest = '*' :: more := by
      cases rest <;> simp_all
    exact ⟨⟨[], adds_pastComment hr h⟩, rest_pastComment_lt hr h⟩
  split at h
  · rename_i hc
    subst hc
    obtain rfl := Except.ok.inj h
    exact ⟨⟨[], adds_pastHash hr⟩, Spot.rest_lineEnd_lt hr (by decide)⟩
  split at h
  · rename_i hc
    exact gets_readString (hc ▸ hr) (.inl rfl) h
  split at h
  · rename_i hc
    exact gets_readString (hc.1 ▸ hr) (.inr rfl) h
  split at h
  · rename_i hc
    obtain rfl := Except.ok.inj h
    exact gets_readName hr hc
  split at h
  · rename_i hc
    exact gets_readNumber hr hc h
  · exact gets_readSymbol hr h

/-- A step passes the text that stands for the tokens it adds. It takes some of
it, unless the text ends. -/
theorem adds_step {fuel : Nat} {p : State × Bool} (hf : s.spot.rest.length < fuel)
    (hs : s.step m fuel = .ok p) : (∃ ts, s.Adds p.1 ts) ∧
      (p.2 = true → p.1.spot.rest.length < s.spot.rest.length) ∧
      (p.2 = false → p.1.spot.rest = []) := by
  -- the line that is read on was started without code
  obtain ⟨q, hnext, ha, hle, hend⟩ : ∃ q, onLine m q = .ok p ∧ s.Adds q.1 [] ∧
      q.1.spot.rest.length ≤ s.spot.rest.length ∧ (q.2 = false → q.1.spot.rest = []) := by
    obtain ⟨q, hnext, ⟨-, hstart⟩ | ⟨-, rfl⟩⟩ := step_ok hs
    · exact ⟨q, hnext, adds_startLine hf hstart⟩
    · exact ⟨_, hnext, ⟨.refl _, rfl⟩, Nat.le_refl _, by simp⟩
  have hgap := ha.trans q.1.adds_pastGap
  rcases onLine_ok hnext with ⟨hno, rfl⟩ | ⟨-, ⟨hr, rfl⟩ | ⟨c, rest, s', hr, hn, rfl⟩⟩
  · exact ⟨⟨_, ha⟩, by simp, fun _ => hend hno⟩
  · exact ⟨⟨_, hgap⟩, by simp, fun _ => hr⟩
  · have hget := gets_readNext hr hn
    obtain ⟨ts, hadds⟩ := hget.adds
    exact ⟨⟨_, hgap.trans hadds⟩,
      fun _ => Nat.lt_of_lt_of_le hget.less (Nat.le_trans q.1.spot.rest_pastGap_le hle), by simp⟩

/-- The end of the text adds no code. -/
theorem filter_finish (s : State) :
    s.finish.filter Token.isCode = (s.tokens.filter Token.isCode).reverse := by
  obtain ⟨marks, hfinish, hmarks⟩ := s.finish_eq
  have hnone : marks.filter Token.isCode = [] := by
    rw [List.filter_eq_nil_iff]
    intro t ht
    simp [Token.isCode, (hmarks t ht).1]
  rw [hfinish, List.filter_append, List.filter_append, hnone, List.filter_reverse]
  simp [Token.isCode, TokenKind.isLayout]

/-- All steps pass the whole text. -/
theorem transcript_run {n : Nat} {tokens : List Token} (hn : s.spot.rest.length < n)
    (hr : (s.run m n).tokens = .ok tokens) : ∃ ts, Transcript s.spot.place s.spot.rest ts ∧
      tokens.filter Token.isCode = (s.tokens.filter Token.isCode).reverse ++ ts := by
  induction n generalizing s with
  | zero => omega
  | succ n ih =>
    obtain ⟨q, hs, hgoes⟩ := run_ok hr
    obtain ⟨⟨ts, ha⟩, hless, hdone⟩ := adds_step hn hs
    rcases hgoes with ⟨hmore, hr⟩ | ⟨hend, rfl⟩
    · obtain ⟨us, hus, htokens⟩ := ih (Nat.lt_of_lt_of_le (hless hmore) (Nat.le_of_lt_succ hn)) hr
      exact ⟨ts ++ us, ha.passes us hus, by simp [htokens, ha.tokens]⟩
    · have hpass := ha.passes []
      rw [hdone hend, List.append_nil] at hpass
      exact ⟨ts, hpass .done, by simp [filter_finish, ha.tokens]⟩

end Scan.State

/-- Behind its byte order mark a text can be read back from its tokens. -/
theorem scan_transcript {m : ScanMode} {text : List Char} {tokens : List Token}
    (h : (scan m text).tokens = .ok tokens) :
    Transcript .first (Text.dropMark text) (tokens.filter Token.isCode) := by
  have hlen := Nat.lt_succ_of_le (Text.length_dropMark text)
  obtain ⟨ts, hts, htokens⟩ := Scan.State.transcript_run (s := .start text) hlen h
  obtain rfl : tokens.filter Token.isCode = ts := htokens
  exact hts

/-- A text without a byte order mark is transcribed by its tokens. -/
theorem scan_transcribes {m : ScanMode} {text : List Char} {tokens : List Token}
    (hm : Text.byteOrderMark ∉ text) (h : (scan m text).tokens = .ok tokens) :
    Transcribes text (tokens.filter Token.isCode) := by
  have htext : Text.dropMark text = text := by
    cases text with
    | nil => rfl
    | cons c text => exact if_neg (List.ne_of_not_mem_cons hm).symm
  obtain ⟨ts, hts, htokens⟩ := Scan.State.transcript_run (n := text.length + 1)
    (s := .start text) (by simp [Scan.State.start, Spot.start, htext]) h
  have hstart : (Scan.State.start text).spot = Spot.start text := by
    rw [Scan.State.start, htext]
  rw [hstart] at hts
  obtain rfl : tokens.filter Token.isCode = ts := htokens
  have hscans := scan_ok h
  have hpairs : (tokens.filter Token.isCode).Pairwise fun t u =>
      t.position < u.position ∧ t.Before u.position := by
    refine (hscans.order.filter _).imp_of_mem fun {t u} ht hu hfollows => ?_
    obtain ⟨ht, htcode⟩ := List.mem_filter.1 ht
    obtain ⟨-, hucode⟩ := List.mem_filter.1 hu
    simp only [Token.isCode, Bool.not_eq_true'] at htcode hucode
    have hbefore := hfollows.before hucode
    have hwide := (hscans.valid t ht).wide htcode
    have hline : t.position.line ≤ u.position.line := hbefore.line
    have hcolumns : t.position.line < u.position.line ∨
        t.position.column + t.width ≤ u.position.column := hbefore.columns htcode
    refine ⟨?_, hbefore⟩
    show t.position.line < u.position.line ∨
      (t.position.line = u.position.line ∧ t.position.column < u.position.column)
    omega
  exact ⟨hts, hts.each, hpairs.imp And.left, hpairs.imp And.right⟩

/-- A string between comments, and a bracket that leaves its line. -/
theorem scan_transcribes_comments :
    let text := "/* a */ b(//c\n\"d\" #e".toList
    Text.byteOrderMark ∉ text ∧ ∃ tokens, (scan ⟨.builtIn, false⟩ text).tokens = .ok tokens ∧
      (tokens.filter Token.isCode).map Token.literal = ["b", "(", "d"] ∧
      Transcribes text (tokens.filter Token.isCode) := by
  intro text
  have hmark : Text.byteOrderMark ∉ text := by decide +kernel
  have hliterals : (scan ⟨.builtIn, false⟩ text).tokens.toOption.map
      (fun tokens => (tokens.filter Token.isCode).map Token.literal) = some ["b", "(", "d"] := by
    decide +kernel
  obtain ⟨tokens, htokens, hl⟩ := Option.map_eq_some_iff.1 hliterals
  have hok := toOption_eq_some.1 htokens
  exact ⟨hmark, tokens, hok, hl, scan_transcribes hmark hok⟩

end StoryLang
