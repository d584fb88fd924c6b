/-
How the tokens of a text are spelled.

A symbol has one spelling, a keyword is a word that the grammar reads as that
keyword, and a name is a word that it reads as none. So the kind of such a
token can be told from its literal, and back where the grammar spells every
keyword in one way.
-/
import StoryLang.Grammar.BuiltIn
import StoryLang.Proofs.Token.Follow
import StoryLang.Proofs.Token.Layout

namespace StoryLang

/-- The token is spelled as the kind of it is. -/
def Token.Spelled (g : Grammar) (t : Token) : Prop :=
  match t.kind with
  | .symbol s => t.literal = s.text
  | .keyword k => g.keyword? t.literal = some k
  | .name => g.keyword? t.literal = none
  | _ => True

/-! ## What holds of every token of a text -/

namespace Scan.State

section Each

variable {P : Token → Prop} {m : ScanMode} {s s' : State} {fuel : Nat} {p : State × Bool}

theorem each_closeWider (hlayout : ∀ t : Token, t.kind.isLayout = true → P t) {w : Nat} {place : Position}
    {indents : List Nat} {tokens : List Token} (h : ∀ t ∈ tokens, P t) :
    ∀ t ∈ (closeWider w place indents tokens).2, P t := by
  induction indents generalizing tokens with
  | nil => exact h
  | cons top indents ih =>
    unfold closeWider
    split
    · exact ih (List.forall_mem_cons.2 ⟨hlayout _ rfl, h⟩)
    · exact h

theorem each_indentTo (hlayout : ∀ t : Token, t.kind.isLayout = true → P t) {w : Nat}
    (h : ∀ t ∈ s.tokens, P t) (hs : s.indentTo w = .ok s') : ∀ t ∈ s'.tokens, P t := by
  rcases indentTo_ok hs with rfl | rfl
  · exact List.forall_mem_cons.2 ⟨hlayout _ rfl, h⟩
  · exact each_closeWider hlayout h

theorem each_startLine (hlayout : ∀ t : Token, t.kind.isLayout = true → P t)
    (h : ∀ t ∈ s.tokens, P t) (hs : s.startLine fuel = .ok p) : ∀ t ∈ p.1.tokens, P t := by
  obtain ⟨u, hu, hends⟩ := startLine_ok hs
  have hskipped : ∀ t ∈ u.tokens, P t := hu.same.tokens ▸ h
  rcases hends with rfl | ⟨w, v, -, hv, rfl⟩
  · exact hskipped
  · exact each_indentTo hlayout hskipped hv

variable (hlayout : ∀ t : Token, t.kind.isLayout = true → P t)
  (hcode : ∀ {s s' : State} {c rest t}, s.readNext m c rest = .ok s' → s'.tokens = t :: s.tokens →
    t.kind.isLayout = false → P t)

include hlayout hcode

theorem each_readNext {c : Char} {rest : List Char} (h : ∀ t ∈ s.tokens, P t)
    (hs : s.readNext m c rest = .ok s') : ∀ t ∈ s'.tokens, P t := by
  cases reading_readNext hs with
  | passed _ same => exact same.tokens ▸ h
  | lineEnd _ t tokens kind =>
    rw [tokens]
    exact List.forall_mem_cons.2 ⟨hlayout t (by rw [kind]; rfl), h⟩
  | code t tokens kind =>
    rw [tokens]
    exact List.forall_mem_cons.2 ⟨hcode hs tokens kind, h⟩

theorem each_step (h : ∀ t ∈ s.tokens, P t) (hs : s.step m fuel = .ok p) : ∀ t ∈ p.1.tokens, P t := by
  obtain ⟨q, hnext, hstart⟩ := step_ok hs
  have hq : ∀ t ∈ q.1.tokens, P t := by
    rcases hstart with ⟨-, hstart⟩ | ⟨-, rfl⟩
    · exact each_startLine hlayout h hstart
    · exact h
  rcases onLine_ok hnext with ⟨-, rfl⟩ | ⟨-, ⟨-, rfl⟩ | ⟨c, rest, s', -, hn, rfl⟩⟩
  · exact hq
  · exact hq
  · refine each_readNext hlayout hcode ?_ hn
    exact hq

omit hcode in
theorem each_finish (h : ∀ t ∈ s.tokens, P t) : ∀ t ∈ s.finish, P t := by
  obtain ⟨marks, hf, hm⟩ := s.finish_eq
  rw [hf]
  intro t ht
  simp only [List.mem_append, List.mem_reverse, List.mem_singleton] at ht
  rcases ht with ht | ht | rfl
  · exact h t ht
  · exact hlayout t (hm t ht).1
  · exact hlayout _ rfl

theorem each_run {n : Nat} {tokens : List Token} (h : ∀ t ∈ s.tokens, P t)
    (hr : (s.run m n).tokens = .ok tokens) : ∀ t ∈ tokens, P t := by
  obtain ⟨u, hu, rfl⟩ := run_keeps (I := fun s => ∀ t ∈ s.tokens, P t) (each_step hlayout hcode) h hr
  exact each_finish hlayout hu

end Each

/-! ## Code -/

variable {s s' : State} {g : Grammar} {t : Token}

theorem spelled_readName (ht : (s.readName g).tokens = t :: s.tokens) : t.Spelled g := by
  obtain rfl := (List.cons.inj ht).1
  cases hk : g.keyword? (String.ofList (s.spot.rest.takeWhile Grammar.isWordChar)) <;>
    simp [Token.Spelled, hk]

theorem spelled_intToken {whole : List Char} (h : readNumber.intToken s whole = .ok s')
    (ht : s'.tokens = t :: s.tokens) : t.Spelled g := by
  unfold readNumber.intToken at h
  split at h
  · obtain rfl := Except.ok.inj h
    obtain rfl := (List.cons.inj ht).1
    trivial
  · simp [stop] at h

theorem spelled_readNumber (h : s.readNumber = .ok s') (ht : s'.tokens = t :: s.tokens) :
    t.Spelled g := by
  unfold readNumber at h
  dsimp only at h
  split at h
  · split at h
    · obtain rfl := Except.ok.inj h
      obtain rfl := (List.cons.inj ht).1
      trivial
    · exact spelled_intToken h ht
  · exact spelled_intToken h ht

theorem spelled_readString {quote : Char} (h : s.readString quote = .ok s')
    (ht : s'.tokens = t :: s.tokens) : t.Spelled g := by
  unfold readString at h
  dsimp only at h
  split at h
  · obtain rfl := Except.ok.inj h
    obtain rfl := (List.cons.inj ht).1
    trivial
  · simp [stop] at h
  · simp [stop] at h

theorem text_of_ofText? {word : String} {symbol : Symbol} (h : Symbol.ofText? word = some symbol) :
    symbol.text = word := by
  simpa using List.find?_some h

theorem text_of_single? {c : Char} {symbol : Symbol} (h : single? c = some symbol) :
    symbol.text = String.ofList [c] := by
  unfold single? at h
  repeat' split at h
  all_goals first
    | exact text_of_ofText? h
    | (obtain rfl := Option.some.inj h
       subst_vars
       rfl)

theorem spelled_readSymbol {c : Char} {rest : List Char} (h : s.readSymbol c rest = .ok s')
    (ht : s'.tokens = t :: s.tokens) : t.Spelled g := by
  unfold readSymbol at h
  split at h
  · rename_i symbol taken hp
    obtain ⟨d, -, hd⟩ := Option.bind_eq_some_iff.1 hp
    obtain ⟨other, hpair, heq⟩ := Option.map_eq_some_iff.1 hd
    obtain ⟨rfl, rfl⟩ := Prod.mk.inj heq
    obtain rfl := Except.ok.inj h
    obtain rfl := (List.cons.inj ht).1
    exact (text_of_ofText? hpair).symm
  · split at h
    · rename_i symbol hc
      obtain rfl := Except.ok.inj h
      obtain rfl := (List.cons.inj ht).1
      exact (text_of_single? hc).symm
    · simp [stop] at h

theorem spelled_readNext {m : ScanMode} {c : Char} {rest : List Char}
    (h : s.readNext m c rest = .ok s') (ht : s'.tokens = t :: s.tokens)
    (hk : t.kind.isLayout = false) : t.Spelled m.grammar := by
  have stays : ∀ {s'' : State}, s.Same s'' → s'' = s' → False := by
    rintro s'' hsame rfl
    have hlen := congrArg List.length (ht.symm.trans hsame.tokens)
    simp at hlen
  unfold readNext at h
  split at h
  · split at h
    · obtain rfl := Except.ok.inj h
      obtain rfl := (List.cons.inj ht).1
      cases hk
    · exact (stays (s.same_moveTo _) (Except.ok.inj h)).elim
  split at h
  · exact (stays (s.same_moveTo _) (Except.ok.inj h)).elim
  split at h
  · exact (stays (same_pastComment h) rfl).elim
  split at h
  · exact (stays s.same_pastHash (Except.ok.inj h)).elim
  split at h
  · exact spelled_readString h ht
  split at h
  · exact spelled_readString h ht
  split at h
  · obtain rfl := Except.ok.inj h
    exact spelled_readName ht
  split at h
  · exact spelled_readNumber h ht
  · exact spelled_readSymbol h ht

end Scan.State

/-- The tokens of a text are spelled as the kinds of them are. -/
theorem scan_spelled {m : ScanMode} {text : List Char} {tokens : List Token}
    (h : (scan m text).tokens = .ok tokens) : ∀ t ∈ tokens, t.Spelled m.grammar := by
  refine Scan.State.each_run ?_ Scan.State.spelled_readNext (by simp [Scan.State.start]) h
  rintro ⟨kind, literal, place⟩ hk
  cases kind <;> trivial

/-! ## The built-in grammar -/

namespace Grammar

theorem keyword?_builtIn {word : String} {k : Keyword} (h : builtIn.keyword? word = some k) :
    word = k.name := by
  obtain ⟨p, hp, rfl⟩ := Option.map_eq_some_iff.1 h
  have hword : p.1 = word := by simpa using List.find?_some hp
  have hmem := List.mem_of_find?_eq_some hp
  simp only [builtIn, List.mem_reverse, List.mem_map] at hmem
  obtain ⟨k, -, rfl⟩ := hmem
  exact hword.symm

end Grammar

namespace Token.Spelled

variable {t t' : Token}

/-- Whether a token is a symbol, a keyword or a name can be told from its literal. -/
theorem literal_eq (h : t.Spelled .builtIn) (h' : t'.Spelled .builtIn) (hk : t'.kind = t.kind)
    (hw : t.kind.isLayout = false) (hs : t.kind ≠ .name ∧ t.kind ≠ .int ∧ t.kind ≠ .float ∧ t.kind ≠ .string) :
    t'.literal = t.literal := by
  unfold Spelled at h h'
  rw [hk] at h'
  cases hkind : t.kind with
  | symbol s =>
    rw [hkind] at h h'
    exact h'.trans h.symm
  | keyword k =>
    rw [hkind] at h h'
    exact (Grammar.keyword?_builtIn h').trans (Grammar.keyword?_builtIn h).symm
  | name | int | float | string => simp [hkind] at hs
  | newline | indent | dedent | eof => simp [hkind] at hw

end Token.Spelled

end StoryLang
