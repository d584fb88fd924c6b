/-
The layout of a text.

Each line with code ends in one newline token. Indents and dedents stand
between such lines, where the code of a line is about to start or the text
ends, and they close what they open. `Scan.Laid` says this of the tokens that
were read so far, newest first, together with how many indentations are open;
every token the scanner adds keeps it. What can be next to what in the stream
and how its indents and dedents nest are both read off it.
-/
import StoryLang.Grammar.BuiltIn
import StoryLang.Proofs.Grammar.Declared
import StoryLang.Proofs.Token.Steps

namespace StoryLang

namespace TokenKind

/-- Whether a token of a kind may come directly behind one of another kind. -/
def leads : TokenKind → TokenKind → Bool
  | .newline, k => k ≠ .newline
  | .indent, k => !k.isLayout
  | .dedent, k => k = .dedent || k = .eof || !k.isLayout
  | .eof, _ => false
  | _, k => k = .newline || !k.isLayout

variable {k k' : TokenKind}

theorem leads_eq (k k' : TokenKind) : k.leads k' =
    if k = .newline then decide (k' ≠ .newline)
    else if k = .indent then !k'.isLayout
    else if k = .dedent then k' = .dedent || k' = .eof || !k'.isLayout
    else if k = .eof then false
    else k' = .newline || !k'.isLayout := by
  cases k <;> rfl

theorem leads_code (h : k.isLayout = false) : k.leads k' = (k' = .newline || !k'.isLayout) := by
  cases k <;> first | rfl | simp at h

/-- Code may come behind anything but the end. -/
theorem leads_to_code (h : k'.isLayout = false) (hk : k ≠ .eof) : k.leads k' = true := by
  have hn : k' ≠ .newline := by
    rintro rfl
    simp at h
  cases k <;> simp_all [leads_eq]

/-- Nothing comes behind the end. -/
theorem ne_eof_of_leads (h : k.leads k' = true) : k ≠ .eof := by
  rintro rfl
  simp [leads_eq] at h

/-- An indent comes behind the end of a line. -/
theorem leads_indent (h : k.leads .indent = true) : k = .newline := by
  cases k <;> simp_all [leads_eq]

/-- A dedent comes behind the end of a line or behind another one. -/
theorem leads_dedent (h : k.leads .dedent = true) : k = .newline ∨ k = .dedent := by
  cases k <;> simp_all [leads_eq]

end TokenKind

/-! ## Streams -/

/-- A maximal run of tokens with a property, with what stands before and behind it. -/
structure Token.Run (p : Token → Bool) (ts front run rest : List Token) : Prop where
  whole : ts = front ++ run ++ rest
  some : run ≠ []
  each : ∀ t ∈ run, p t = true
  before : ∀ t ∈ front.getLast?, p t = false
  behind : ∀ t ∈ rest.head?, p t = false

namespace Token

/-- A run ends in one of its tokens. -/
theorem Run.exists_last {p : Token → Bool} {ts front run rest : List Token}
    (h : Run p ts front run rest) : ∃ before t, t ∈ run ∧ ts = before ++ t :: rest := by
  obtain ⟨init, t, hrun⟩ : ∃ init t, run = init ++ [t] :=
    ⟨_, _, (List.dropLast_concat_getLast h.some).symm⟩
  exact ⟨front ++ init, t, by simp [hrun], by simp [h.whole, hrun]⟩

/-- Whether the token stands for text on a line. -/
def isCode (t : Token) : Bool := !t.kind.isLayout

/-- How many tokens are of a kind. -/
def count (k : TokenKind) (ts : List Token) : Nat := ts.countP (·.kind = k)

end Token

/-- The layout of a stream of tokens is well-formed. -/
structure LaidOut (ts : List Token) : Prop where
  /-- The text ends once, and last. -/
  ended : ∃ front last, ts = front ++ [last] ∧ last.kind = .eof ∧ ∀ t ∈ front, t.kind ≠ .eof
  /-- Code is followed by one newline. -/
  lines : ∀ {front run rest}, Token.Run Token.isCode ts front run rest →
    ∃ lineEnd others, rest = lineEnd :: others ∧ lineEnd.kind = .newline ∧
      ∀ t ∈ others.head?, t.kind ≠ .newline
  /-- An indent starts a line with code. -/
  indents : ∀ {front t rest}, ts = front ++ t :: rest → t.kind = .indent →
    (∀ u ∈ front.getLast?, u.kind = .newline) ∧ ∃ u ∈ rest.head?, u.isCode = true
  /-- A dedent is behind a line. -/
  dedents : ∀ {front t rest}, ts = front ++ t :: rest → t.kind = .dedent →
    ∃ u ∈ front.getLast?, u.kind = .newline ∨ u.kind = .dedent
  /-- Dedents are followed by a line with code or by the end of the text. -/
  closes : ∀ {front run rest}, Token.Run (·.kind = .dedent) ts front run rest →
    ∃ u ∈ rest.head?, u.isCode = true ∨ u.kind = .eof
  /-- Nothing is closed that was not opened. -/
  nested : ∀ {front}, front <+: ts → Token.count .dedent front ≤ Token.count .indent front
  /-- All that was opened is closed. -/
  balanced : Token.count .indent ts = Token.count .dedent ts

namespace Scan

/-- The kind of the newest token. A text starts like a line does. -/
def lastKind : List Token → TokenKind
  | [] => .newline
  | t :: _ => t.kind

/-- Tokens of a well-formed layout, newest first, with a number of indentations open. -/
inductive Laid : List Token → Nat → Prop where
  | none : Laid [] 0
  | plain {ts : List Token} {n : Nat} {t : Token} (others : Laid ts n)
    (leads : (lastKind ts).leads t.kind = true) (kind : t.kind ≠ .indent ∧ t.kind ≠ .dedent) :
    Laid (t :: ts) n
  | indent {ts : List Token} {n : Nat} {t : Token} (others : Laid ts n)
    (leads : (lastKind ts).leads t.kind = true) (kind : t.kind = .indent) : Laid (t :: ts) (n + 1)
  | dedent {ts : List Token} {n : Nat} {t : Token} (others : Laid ts (n + 1))
    (leads : (lastKind ts).leads t.kind = true) (kind : t.kind = .dedent) : Laid (t :: ts) n

namespace Laid

variable {ts us : List Token} {t u : Token} {n : Nat}

/-- What was read before was laid out already. -/
theorem earlier (h : Laid (us ++ ts) n) : ∃ k, Laid ts k := by
  induction us generalizing n with
  | nil => exact ⟨n, h⟩
  | cons u us ih => cases h <;> exact ih ‹_›

/-- What was opened is closed, or open. -/
theorem count (h : Laid ts n) : Token.count .indent ts = Token.count .dedent ts + n := by
  simp only [Token.count]
  induction h with
  | none => rfl
  | plain others leads kind ih => simp [kind, ih]
  | indent others leads kind ih | dedent others leads kind ih =>
    simp only [List.countP_cons, kind, ih]
    simp
    omega

/-- A token may come behind the one before it. -/
theorem last_leads (h : Laid (t :: ts) n) : (lastKind ts).leads t.kind = true := by
  cases h <;> assumption

/-- Where nothing was read yet, nothing can be closed. -/
theorem ne_dedent (h : Laid [t] n) : t.kind ≠ .dedent := by
  cases h with
  | plain _ _ kind => exact kind.2
  | indent _ _ kind => simp [kind]
  | dedent others => cases others

/-- Where a line has ended, what is open can be closed. -/
theorem close {k : Nat} (h : Laid ts (n + k)) (hl : (lastKind ts).leads .dedent = true)
    (hk : t.kind = .dedent) :
    Laid (List.replicate k t ++ ts) n ∧
      (lastKind (List.replicate k t ++ ts)).leads .dedent = true := by
  induction k generalizing n with
  | zero => exact ⟨h, hl⟩
  | succ k ih =>
    obtain ⟨hlaid, hleads⟩ := ih (n := n + 1) (by rwa [Nat.add_assoc, Nat.add_comm 1])
    exact ⟨.dedent hlaid (hk ▸ hleads) hk, by simp [List.replicate_succ, lastKind, hk, TokenKind.leads_eq]⟩

section Stream

variable {front run rest : List Token}

/-- The tokens up to one of a stream are laid out. -/
theorem upTo (h : Laid ts.reverse n) (hs : ts = front ++ t :: rest) :
    ∃ k, Laid (t :: front.reverse) k := by
  subst hs
  rw [List.reverse_append, List.reverse_cons, List.append_assoc] at h
  exact h.earlier

theorem adjacent (h : Laid ts.reverse n) (hs : ts = front ++ t :: u :: rest) :
    t.kind.leads u.kind = true := by
  have hs : ts = (front ++ [t]) ++ u :: rest := by simpa using hs
  obtain ⟨k, h⟩ := h.upTo hs
  rw [List.reverse_append] at h
  exact h.last_leads

/-- A stream goes on behind everything but the end of the text. -/
theorem next (h : Laid ts.reverse n) (he : ∃ u ∈ ts.getLast?, u.kind = .eof)
    (hs : ts = front ++ t :: rest) (ht : t.kind ≠ .eof) :
    ∃ u others, rest = u :: others ∧ t.kind.leads u.kind = true := by
  cases rest with
  | nil =>
    obtain ⟨u, hu, hk⟩ := he
    obtain rfl : t = u := by simpa [hs] using hu
    exact absurd hk ht
  | cons u others => exact ⟨u, others, rfl, h.adjacent hs⟩

/-- The newest of the tokens before one is the one it comes behind. -/
theorem getLast?_leads (h : Laid (t :: front.reverse) n) (hu : u ∈ front.getLast?) :
    u.kind.leads t.kind = true := by
  obtain ⟨before, rfl⟩ := List.getLast?_eq_some_iff.1 hu
  rw [List.reverse_append] at h
  exact h.last_leads

/-- A stream that keeps to the layout, closes what it opened and ends has a
well-formed layout. -/
theorem laidOut (h : Laid ts.reverse 0) (he : ∃ u ∈ ts.getLast?, u.kind = .eof) : LaidOut ts where
  ended := by
    obtain ⟨last, hl, hk⟩ := he
    obtain ⟨front, rfl⟩ := List.getLast?_eq_some_iff.1 hl
    refine ⟨front, last, rfl, hk, fun t ht hkind => ?_⟩
    -- the end would have something behind it
    obtain ⟨before, others, rfl⟩ := List.append_of_mem ht
    obtain ⟨u, rest, hu⟩ := List.exists_cons_of_ne_nil (List.concat_ne_nil last others)
    have hs : before ++ t :: others ++ [last] = before ++ t :: u :: rest := by simpa using hu
    have hleads := h.adjacent hs
    simp [hkind, TokenKind.leads_eq] at hleads
  lines := by
    intro front run rest hr
    obtain ⟨before, t, ht, hs⟩ := hr.exists_last
    have hcode := hr.each t ht
    have hlayout : t.kind.isLayout = false := by simpa [Token.isCode] using hcode
    obtain ⟨u, others, rfl, hu⟩ := h.next he hs fun hk => by simp [hk, TokenKind.isLayout] at hlayout
    have hnext := hr.behind u rfl
    rw [TokenKind.leads_code hlayout] at hu
    have hnewline : u.kind = .newline := by
      simp only [Token.isCode, Bool.not_eq_false'] at hnext
      simpa [hnext] using hu
    refine ⟨u, others, rfl, hnewline, fun v hv => ?_⟩
    obtain ⟨others, rfl⟩ : ∃ vs, others = v :: vs := by
      cases others <;> simp_all
    have hs : ts = (before ++ [t]) ++ u :: v :: others := by simpa using hs
    simpa [hnewline, TokenKind.leads_eq] using h.adjacent hs
  indents := by
    intro front t rest hs hk
    obtain ⟨k, hup⟩ := h.upTo hs
    refine ⟨fun u hu => TokenKind.leads_indent (hk ▸ hup.getLast?_leads hu), ?_⟩
    obtain ⟨u, others, rfl, hu⟩ := h.next he hs (by simp [hk])
    exact ⟨u, rfl, by simpa [hk, TokenKind.leads_eq, Token.isCode] using hu⟩
  dedents := by
    intro front t rest hs hk
    obtain ⟨k, hup⟩ := h.upTo hs
    cases hl : front.getLast? with
    | none =>
      rw [List.getLast?_eq_none_iff.1 hl] at hup
      exact absurd hk hup.ne_dedent
    | some u => exact ⟨u, rfl, TokenKind.leads_dedent (hk ▸ hup.getLast?_leads hl)⟩
  closes := by
    intro front run rest hr
    obtain ⟨before, t, ht, hs⟩ := hr.exists_last
    have hk : t.kind = .dedent := by simpa using hr.each t ht
    obtain ⟨u, others, rfl, hu⟩ := h.next he hs (by simp [hk])
    have hnext : u.kind ≠ .dedent := by simpa using hr.behind u rfl
    refine ⟨u, rfl, ?_⟩
    simpa [hk, TokenKind.leads_eq, hnext, Token.isCode, or_comm] using hu
  nested := by
    rintro front ⟨rest, rfl⟩
    rw [List.reverse_append] at h
    obtain ⟨k, h⟩ := h.earlier
    have := h.count
    simp only [Token.count, List.countP_reverse] at this ⊢
    omega
  balanced := by
    have := h.count
    simpa [Token.count, List.countP_reverse] using this

end Stream

end Laid

namespace State

variable {s s' : State} {m : ScanMode}

/-- The scanner's tokens are laid out. Where a line starts the last one has
ended, and within a line the newest token is code. -/
structure Ordered (s : State) : Prop where
  laid : Laid s.tokens s.indents.length
  lineStart : s.atLineStart = true → lastKind s.tokens = .newline
  onLine : s.atLineStart = false → (lastKind s.tokens).isLayout = false

theorem ordered_start (text : List Char) : (start text).Ordered :=
  ⟨.none, fun _ => rfl, fun h => by simp [start] at h⟩

theorem Same.ordered (h : s.Same s') (hs : s.Ordered) : s'.Ordered := by
  obtain ⟨ht, hi, ha⟩ := h
  exact ⟨ht ▸ hi ▸ hs.laid, fun h => ht ▸ hs.lineStart (ha ▸ h), fun h => ht ▸ hs.onLine (ha ▸ h)⟩

/-! ## The start of a line -/

/-- The scanner is about to read code: the layout in front of it is done. -/
structure Ready (s : State) : Prop where
  laid : Laid s.tokens s.indents.length
  goesOn : lastKind s.tokens ≠ .eof
  atLineStart : s.atLineStart = false
  code : restIsBlank (s.spot.rest.dropWhile Spot.isGap) = false

theorem laid_closeWider {w : Nat} {place : Position} {indents : List Nat} {tokens : List Token}
    (h : Laid tokens indents.length) (hl : (lastKind tokens).leads .dedent = true) :
    Laid (closeWider w place indents tokens).2 (closeWider w place indents tokens).1.length ∧
      lastKind (closeWider w place indents tokens).2 ≠ .eof := by
  induction indents generalizing tokens with
  | nil => exact ⟨h, TokenKind.ne_eof_of_leads hl⟩
  | cons top indents ih =>
    unfold closeWider
    split
    · exact ih (.dedent h hl rfl) rfl
    · exact ⟨h, TokenKind.ne_eof_of_leads hl⟩

theorem ready_indentTo {w : Nat} (h : s.Ordered) (hl : s.atLineStart = true)
    (hc : restIsBlank (s.spot.rest.dropWhile Spot.isGap) = false) (hs : s.indentTo w = .ok s') :
    s'.Ready := by
  have hlast := h.lineStart hl
  rcases indentTo_ok hs with rfl | rfl
  · exact ⟨.indent h.laid (by simp [hlast, TokenKind.leads_eq]) rfl, by simp [lastKind], rfl, hc⟩
  · have hl : (lastKind s.tokens).leads .dedent = true := by simp [hlast, TokenKind.leads_eq]
    obtain ⟨hlaid, hgoes⟩ := laid_closeWider h.laid hl
    exact ⟨hlaid, hgoes, rfl, hc⟩

/-- A line starts with code, or the text ends and nothing was read. -/
theorem ordered_startLine {fuel : Nat} {p : State × Bool} (h : s.Ordered) (hl : s.atLineStart = true)
    (hs : s.startLine fuel = .ok p) : p.2 = true ∧ p.1.Ready ∨ p.2 = false ∧ p.1.Ordered := by
  obtain ⟨u, hu, rfl | ⟨w, t, hc, ht, rfl⟩⟩ := startLine_ok hs
  · exact .inr ⟨rfl, hu.same.ordered h⟩
  · exact .inl ⟨rfl, ready_indentTo (hu.same.ordered h) (hu.same.atLineStart.trans hl) hc ht⟩

/-! ## Tokens of a line -/

/-- What reading on does with the text `cs`: it passes a comment or a line
break between brackets, reads the end of a line, or reads code. -/
inductive Reading (cs : List Char) (s s' : State) : Prop where
  | passed (blank : restIsBlank cs = true) (same : s.Same s')
  | lineEnd (blank : restIsBlank cs = true) (t : Token) (tokens : s'.tokens = t :: s.tokens)
    (kind : t.kind = .newline) (indents : s'.indents = s.indents)
    (atLineStart : s'.atLineStart = true)
  | code (t : Token) (tokens : s'.tokens = t :: s.tokens) (kind : t.kind.isLayout = false)
    (indents : s'.indents = s.indents) (atLineStart : s'.atLineStart = s.atLineStart)

variable {c : Char} {cs rest : List Char}

theorem reading_intToken {whole : List Char} (h : readNumber.intToken s whole = .ok s') :
    s.Reading cs s' := by
  unfold readNumber.intToken at h
  split at h
  · obtain rfl := Except.ok.inj h
    exact .code _ rfl rfl rfl rfl
  · simp [stop] at h

theorem reading_readNumber (h : s.readNumber = .ok s') : s.Reading cs s' := by
  unfold readNumber at h
  dsimp only at h
  split at h
  · split at h
    · obtain rfl := Except.ok.inj h
      exact .code _ rfl rfl rfl rfl
    · exact reading_intToken h
  · exact reading_intToken h

theorem reading_readString {quote : Char} (h : s.readString quote = .ok s') : s.Reading cs s' := by
  unfold readString at h
  dsimp only at h
  split at h
  · obtain rfl := Except.ok.inj h
    exact .code _ rfl rfl rfl rfl
  · simp [stop] at h
  · simp [stop] at h

theorem reading_readName {g : Grammar} : s.Reading cs (s.readName g) := by
  refine .code _ rfl ?_ rfl rfl
  dsimp only
  split <;> rfl

theorem reading_readSymbol (h : s.readSymbol c rest = .ok s') : s.Reading cs s' := by
  unfold readSymbol at h
  split at h
  · obtain rfl := Except.ok.inj h
    exact .code _ rfl rfl rfl rfl
  · split at h
    · obtain rfl := Except.ok.inj h
      exact .code _ rfl rfl rfl rfl
    · simp [stop] at h

theorem reading_readNext (h : s.readNext m c rest = .ok s') : s.Reading (c :: rest) s' := by
  unfold readNext at h
  split at h
  · rename_i hc
    split at h
    · obtain rfl := Except.ok.inj h
      exact .lineEnd (by simp [hc, restIsBlank]) _ rfl rfl rfl rfl
    · obtain rfl := Except.ok.inj h
      exact .passed (by simp [hc, restIsBlank]) (s.same_moveTo _)
  split at h
  · rename_i hc
    obtain ⟨rfl, d, rfl⟩ : c = '/' ∧ ∃ ds, rest = '/' :: ds := by
      cases rest <;> simp_all
    obtain rfl := Except.ok.inj h
    exact .passed rfl (s.same_moveTo _)
  split at h
  · rename_i hc
    obtain ⟨rfl, d, rfl⟩ : c = '/' ∧ ∃ ds, rest = '*' :: ds := by
      cases rest <;> simp_all
    exact .passed rfl (same_pastComment h)
  split at h
  · rename_i hc
    obtain rfl := Except.ok.inj h
    exact .passed (by simp [hc, restIsBlank]) s.same_pastHash
  split at h
  · exact reading_readString h
  split at h
  · exact reading_readString h
  split at h
  · obtain rfl := Except.ok.inj h
    exact reading_readName
  split at h
  · exact reading_readNumber h
  · exact reading_readSymbol h

/-- Code may be read wherever the text goes on. -/
theorem laid_code {t : Token} (h : Laid s.tokens s.indents.length) (hl : lastKind s.tokens ≠ .eof)
    (ht : s'.tokens = t :: s.tokens) (hk : t.kind.isLayout = false) (hi : s'.indents = s.indents) :
    Laid s'.tokens s'.indents.length := by
  rw [ht, hi]
  refine .plain h (TokenKind.leads_to_code hk hl) ⟨?_, ?_⟩ <;> intro e <;>
    simp [e, TokenKind.isLayout] at hk

/-- Within a line, what comes next on it is read, or its end. -/
theorem Reading.ordered (h : s.Reading cs s') (hs : s.Ordered) (hl : s.atLineStart = false) :
    s'.Ordered := by
  have hlast := hs.onLine hl
  have hne : lastKind s.tokens ≠ .eof := by
    intro e
    simp [e, TokenKind.isLayout] at hlast
  cases h with
  | passed _ same => exact same.ordered hs
  | lineEnd _ t tokens kind indents atLineStart =>
    refine ⟨?_, fun _ => by rw [tokens]; exact kind, fun h => by simp [atLineStart] at h⟩
    rw [tokens, indents]
    exact .plain hs.laid (by simp [TokenKind.leads_code hlast, kind]) (by simp [kind])
  | code t tokens kind indents atLineStart =>
    refine ⟨laid_code hs.laid hne tokens kind indents, fun h => ?_, fun _ => by rw [tokens]; exact kind⟩
    rw [atLineStart, hl] at h
    cases h

/-- Where code is about to be read, it is code that is read. -/
theorem Reading.ready (h : s.Reading cs s') (hs : s.Ready) (hc : restIsBlank cs = false) :
    s'.Ordered := by
  cases h with
  | passed blank => simp [hc] at blank
  | lineEnd blank => simp [hc] at blank
  | code t tokens kind indents atLineStart =>
    refine ⟨laid_code hs.laid hs.goesOn tokens kind indents, fun h => ?_,
      fun _ => by rw [tokens]; exact kind⟩
    rw [atLineStart, hs.atLineStart] at h
    cases h

/-- Blanks do not matter in front of code. -/
theorem Ready.pastGap (h : s.Ready) : (s.moveTo s.spot.pastGap).Ready := by
  refine ⟨h.laid, h.goesOn, h.atLineStart, ?_⟩
  rw [moveTo, dropWhile_pastGap, Spot.pastGap, Spot.rest_pastWhile]
  exact h.code

theorem ordered_step {fuel : Nat} {p : State × Bool} (h : s.Ordered) (hs : s.step m fuel = .ok p) :
    p.1.Ordered := by
  obtain ⟨q, hnext, ⟨hl, hstart⟩ | ⟨hl, rfl⟩⟩ := step_ok hs
  · rcases ordered_startLine h hl hstart with ⟨hmore, hready⟩ | ⟨hmore, ho⟩
    · have hcode : restIsBlank q.1.spot.pastGap.rest = false :=
        dropWhile_pastGap q.1.spot ▸ hready.pastGap.code
      rcases onLine_ok hnext with ⟨hno, -⟩ | ⟨-, ⟨hr, -⟩ | ⟨c, rest, s', hr, hn, rfl⟩⟩
      · simp [hmore] at hno
      · rw [hr] at hcode
        cases hcode
      · exact (reading_readNext hn).ready hready.pastGap (hr ▸ hcode)
    · rcases onLine_ok hnext with ⟨-, rfl⟩ | ⟨hyes, -⟩
      · exact ho
      · simp [hmore] at hyes
  · have hg := (s.same_moveTo s.spot.pastGap).ordered h
    rcases onLine_ok hnext with ⟨hno, -⟩ | ⟨-, ⟨-, rfl⟩ | ⟨c, rest, s', hr, hn, rfl⟩⟩
    · cases hno
    · exact hg
    · exact (reading_readNext hn).ordered hg hl

/-! ## The end of the text -/

/-- At the end of the text the last line ends, if it has not yet, and what is
open is closed. -/
theorem finish_reverse (s : State) : ∃ lines,
    s.finish.reverse = ⟨.eof, "", s.spot.place⟩ ::
      (List.replicate s.indents.length ⟨.dedent, "", s.spot.place⟩ ++ lines) ∧
    (lines = s.tokens ∧ lastKind s.tokens = .newline ∨
      ∃ t : Token, lines = t :: s.tokens ∧ t.kind = .newline ∧ lastKind s.tokens ≠ .newline) := by
  unfold finish
  simp only [List.map_const', List.reverse_append, List.reverse_replicate, List.reverse_reverse,
    List.reverse_singleton, List.singleton_append]
  refine ⟨_, rfl, ?_⟩
  cases s.tokens with
  | nil => exact .inl ⟨rfl, rfl⟩
  | cons last others =>
    by_cases hk : last.kind = .newline
    · simp [hk, lastKind]
    · exact .inr ⟨⟨.newline, "\n", s.spot.place⟩, by simp [hk], rfl, hk⟩

theorem laid_finish (h : s.Ordered) :
    Laid s.finish.reverse 0 ∧ ∃ t ∈ s.finish.getLast?, t.kind = .eof := by
  refine ⟨?_, ⟨.eof, "", s.spot.place⟩, by simp [finish], rfl⟩
  obtain ⟨lines, hfinish, hlines⟩ := s.finish_reverse
  have hlined : Laid lines s.indents.length ∧ lastKind lines = .newline := by
    rcases hlines with ⟨rfl, hlast⟩ | ⟨t, rfl, hk, hlast⟩
    · exact ⟨h.laid, hlast⟩
    · have honLine := h.onLine (Bool.eq_false_iff.2 fun hl => hlast (h.lineStart hl))
      exact ⟨.plain h.laid (by simp [TokenKind.leads_code honLine, hk]) (by simp [hk]), hk⟩
  obtain ⟨hclosed, hleads⟩ := Laid.close (t := ⟨.dedent, "", s.spot.place⟩)
    (k := s.indents.length) (n := 0) (by rw [Nat.zero_add]; exact hlined.1)
    (by simp [hlined.2, TokenKind.leads_eq]) rfl
  rw [hfinish]
  refine .plain hclosed ?_ (by simp)
  rcases TokenKind.leads_dedent hleads with hk | hk <;> simp [hk, TokenKind.leads_eq]

theorem laid_run {tokens : List Token} {n : Nat} (h : s.Ordered)
    (hr : (s.run m n).tokens = .ok tokens) :
    Laid tokens.reverse 0 ∧ ∃ t ∈ tokens.getLast?, t.kind = .eof := by
  obtain ⟨u, hu, rfl⟩ := run_keeps ordered_step h hr
  exact laid_finish hu

end State

end Scan

/-- The tokens of a text have a well-formed layout. -/
theorem scan_laidOut {m : ScanMode} {text : List Char} {tokens : List Token}
    (h : (scan m text).tokens = .ok tokens) : LaidOut tokens := by
  obtain ⟨hlaid, hend⟩ := Scan.State.laid_run (Scan.State.ordered_start text) h
  exact hlaid.laidOut hend

/-- A block, and a call whose brackets are on two lines. -/
theorem scan_laidOut_block :
    ∃ tokens, (scan ⟨.builtIn, false⟩ "if a\n\tb(\n)".toList).tokens = .ok tokens ∧
      tokens.map Token.kind = [.keyword .ifWord, .name, .newline, .indent, .name,
        .symbol .leftParen, .symbol .rightParen, .newline, .dedent, .eof] ∧ LaidOut tokens := by
  have hkinds : (scan ⟨.builtIn, false⟩ "if a\n\tb(\n)".toList).tokens.toOption.map
      (·.map Token.kind) = some [.keyword .ifWord, .name, .newline, .indent, .name,
        .symbol .leftParen, .symbol .rightParen, .newline, .dedent, .eof] := by
    decide +kernel
  obtain ⟨tokens, htokens, hk⟩ := Option.map_eq_some_iff.1 hkinds
  have hok := toOption_eq_some.1 htokens
  exact ⟨tokens, hok, hk, scan_laidOut hok⟩

end StoryLang
