/-
Reading two lists of tokens that differ in one place.

Up to that place reading goes the same way. There it may take the one token and
not the other: then it has gone past the place, and whatever it stops at later
is behind it. `Forked` says how two such runs can end, and `Forks` is the
contract of a reader whose runs end like that wherever they started. It is
closed under the steps of a reader, so only the places where a reader looks at
a token need an argument of their own.
-/
import StoryLang.Proofs.Tree.Climbing

namespace StoryLang

/-! ## Going forward -/

/-- The kinds of tokens that a reader may ask for. -/
def TokenKind.offered : List TokenKind :=
  Read.valueStart ++ [.symbol .comma, .symbol .colon, .symbol .assign, .symbol .rightBracket,
    .symbol .rightBrace, .symbol .rightParen, .keyword .asWord, .newline, .indent, .dedent]

/-- If the fault is at a token, it is at one of these, and asks for nothing but what is offered. -/
def Fault.IsIn (later : List Token) : Fault → Prop
  | .inTokens f => f.token ∈ later ∧ ∀ k ∈ f.expected, k ∈ TokenKind.offered
  | _ => True

theorem Fault.IsIn.mono {later later' : List Token} {f : Fault} (h : f.IsIn later)
    (hl : later ⊆ later') : f.IsIn later' := by
  cases f with
  | inTokens f => exact ⟨hl h.1, h.2⟩
  | _ => trivial

namespace Cursor

theorem next_suffix (c : Cursor) : c.next.upcoming <:+ c.upcoming := by
  by_cases h : c.ahead = []
  · simp [next, h]
  · rw [upcoming_next rfl h]
    exact List.suffix_cons c.current c.ahead

end Cursor

namespace Read

variable {α β : Type} {g : Grammar} {later later' : List Token} {c : Cursor}

/-- What a run comes to is among these tokens: where it goes on, or where it stops. -/
def Within (later : List Token) : Except Fault (α × Cursor) → Prop
  | .ok (_, c) => c.upcoming <:+ later
  | .error f => f.IsIn later

/-- The reader never goes back. -/
def Forward (r : Read α) : Prop := ∀ c, Within c.upcoming (r c)

theorem Within.mono {o : Except Fault (α × Cursor)} (h : Within later o) (hl : later <:+ later') :
    Within later' o := by
  match o, h with
  | .ok _, h => exact List.IsSuffix.trans h hl
  | .error _, h => exact Fault.IsIn.mono h hl.subset

theorem Within.bind {r : Read α} {f : α → Read β} (h : Within later (r c))
    (hf : ∀ a, Forward (f a)) : Within later ((r >>= f) c) := by
  rw [bind_apply]
  generalize r c = o at h
  match o, h with
  | .ok (a, c'), h => exact (hf a c').mono h
  | .error _, h => exact h

theorem forward_pure (a : α) : Forward (pure a) := fun _ => List.suffix_refl _

theorem Forward.bind {r : Read α} {f : α → Read β} (h : Forward r) (hf : ∀ a, Forward (f a)) :
    Forward (r >>= f) := fun c => (h c).bind hf

/-- Looking at something before does no harm. -/
theorem forward_look {f : α → Read β} {look : Cursor → α} (hf : ∀ a, Forward (f a)) :
    Forward ((fun c => .ok (look c, c) : Read α) >>= f) := fun c => hf (look c) c

theorem Forward.ite {p : Prop} [Decidable p] {r r' : Read α} (h : Forward r) (h' : Forward r') :
    Forward (if p then r else r') := by
  split
  · exact h
  · exact h'

theorem forward_next {r : Read α} {v : Token → α} (hr : ∀ c, r c = .ok (v c.current, c.next)) :
    Forward r := fun c => by rw [hr]; exact c.next_suffix

theorem forward_leaf : Forward leaf := forward_next fun _ => rfl

theorem forward_unexpected {ks : List TokenKind} (h : ∀ k ∈ ks, k ∈ TokenKind.offered) :
    Forward (unexpected g ks : Read α) :=
  fun c => ⟨by simp [Cursor.stuck, Cursor.upcoming], by simpa [Cursor.stuck] using h⟩

theorem forward_expectName : Forward (expectName g) :=
  forward_look fun _ => .ite forward_leaf (forward_unexpected (by decide))

theorem within_next {r : Read α} {v : Token → α} (hr : ∀ c, r c = .ok (v c.current, c.next))
    (hc : c.ahead ≠ []) : Within c.ahead (r c) := by
  rw [hr]
  exact Cursor.upcoming_next rfl hc ▸ List.suffix_refl _

/-- At the end of a line the reader leaves it where it is, or takes it. -/
def Rests (r : Read α) : Prop :=
  ∀ c, c.current.kind = .newline → c.ahead ≠ [] →
    (∃ a c', r c = .ok (a, c') ∧ c'.upcoming = c.upcoming) ∨ Within c.ahead (r c)

/-- At the end of a line the reader takes it. -/
def Ends (r : Read α) : Prop :=
  ∀ c, c.current.kind = .newline → c.ahead ≠ [] → Within c.ahead (r c)

theorem Ends.bind {r : Read α} {f : α → Read β} (h : Ends r) (hf : ∀ a, Forward (f a)) :
    Ends (r >>= f) := fun c hk hc => (h c hk hc).bind hf

end Read

/-! ## Two runs -/

/-- Two lists of tokens with another token in one place, behind `front`. -/
structure Fork (g : Grammar) where
  front : List Token
  /-- The token of the one list. -/
  one : Token
  /-- What is behind it. -/
  back : List Token
  /-- The token of the other list. -/
  other : Token
  /-- What is behind that. -/
  beyond : List Token
  apart : ∀ t ∈ front ++ back, t.line ≠ one.line
  ends : one.kind ≠ .eof → back ≠ []
  goesOn : beyond ≠ []
  /-- The other token can be the name of anything but a type. -/
  free : other.kind = .name →
    g.isReserved other.literal = false ∧ g.isTypeName other.literal = false

namespace Fork

variable {g : Grammar} (F : Fork g)

/-- In the same place in front of the fork, with `pre` up to it. -/
structure At (pre : List Token) (c d : Cursor) : Prop where
  one : c.upcoming = pre ++ F.one :: F.back
  other : d.upcoming = pre ++ F.other :: F.beyond
  front : pre <:+ F.front

/-- The other token ends the line in place of an operator that must not be in a row. -/
def Clashing : Prop :=
  F.other.kind = .newline ∧ (g.operators.between? F.one.kind).any (·.grouping = .none) = true

/-- What holds in front of a token of that kind, and what holds behind it. -/
def Step (k : TokenKind) (Φ Χ : List Token → Prop) : Prop :=
  ∀ t pre, t.kind = k → t :: pre <:+ F.front → Φ (t :: pre) → Χ pre

/-- The next token, or the other one at the fork, is of another kind. -/
def Unless (k : TokenKind) (Φ : List Token → Prop) (pre : List Token) : Prop :=
  Φ pre ∧ (pre.headD F.other).kind ≠ k

variable {F} {pre : List Token} {c d : Cursor} {t : Token} {k : TokenKind}
  {Φ Φ' Χ : List Token → Prop}

theorem At.here (h : F.At [] c d) :
    c.current = F.one ∧ c.ahead = F.back ∧ d.current = F.other ∧ d.ahead = F.beyond :=
  ⟨Cursor.current_of_upcoming h.one, Cursor.ahead_of_upcoming h.one,
    Cursor.current_of_upcoming h.other, Cursor.ahead_of_upcoming h.other⟩

theorem At.there (h : F.At (t :: pre) c d) :
    c.current = t ∧ d.current = t ∧ t.line ≠ F.one.line ∧ c.ahead = pre ++ F.one :: F.back ∧
      d.ahead = pre ++ F.other :: F.beyond :=
  ⟨Cursor.current_of_upcoming h.one, Cursor.current_of_upcoming h.other,
    F.apart t (List.mem_append_left _ (h.front.subset (by simp))),
    Cursor.ahead_of_upcoming h.one, Cursor.ahead_of_upcoming h.other⟩

theorem At.next (h : F.At (t :: pre) c d) : F.At pre c.next d.next :=
  ⟨Cursor.upcoming_next h.one (by simp), Cursor.upcoming_next h.other (by simp),
    (List.suffix_cons t pre).trans h.front⟩

theorem Step.mono (h : F.Step k Φ Χ) (hp : ∀ pre, Φ' pre → Φ pre) : F.Step k Φ' Χ :=
  fun t pre hk hf ht => h t pre hk hf (hp _ ht)

end Fork

namespace Read

open TokenKind (offered)

variable {α β : Type} {g : Grammar} {F : Fork g} {Q Q' : Prop} {Φ Φ' Χ Ψ Ψ' : List Token → Prop}
  {pre : List Token} {c d : Cursor} {o o' : Except Fault (α × Cursor)} {k : TokenKind}

/-- Where the other token is, or past it. -/
def Held (F : Fork g) (o' : Except Fault (α × Cursor)) : Prop :=
  (∃ a d, o' = .ok (a, d) ∧ d.upcoming = F.other :: F.beyond) ∨ Within F.beyond o'

/-- How two runs can end if the first one is not to stop at the fork asking for the other token,
unless the second one goes past it. With `Q` the second one may also stay there, if the first one
asks for the end of the line in place of an operator. -/
inductive Forked (F : Fork g) (Q : Prop) (Ψ : List Token → Prop) :
    Except Fault (α × Cursor) → Except Fault (α × Cursor) → Prop where
  | beyond {o o' : Except Fault (α × Cursor)} (h : Within F.back o) : Forked F Q Ψ o o'
  | past {o o' : Except Fault (α × Cursor)} (h : Within F.beyond o') : Forked F Q Ψ o o'
  | same {a : α} {pre : List Token} {c d : Cursor} (place : F.At pre c d) (post : Ψ pre) :
    Forked F Q Ψ (.ok (a, c)) (.ok (a, d))
  | early {f : SyntaxFault} {o' : Except Fault (α × Cursor)} (h : f.token.line ≠ F.one.line) :
    Forked F Q Ψ (.error (.inTokens f)) o'
  | unasked {f : SyntaxFault} {o' : Except Fault (α × Cursor)} (h : F.other.kind ∉ f.expected) :
    Forked F Q Ψ (.error (.inTokens f)) o'
  | held {e : Fault} {o' : Except Fault (α × Cursor)} (clash : F.Clashing) (q : Q) (h : Held F o') :
    Forked F Q Ψ (.error e) o'
  | strange {o o' : Except Fault (α × Cursor)} (h : F.other.kind ∉ offered) : Forked F Q Ψ o o'

/-- The runs of the reader from the same place in front of the fork end like that. -/
structure Forks (F : Fork g) (Q : Prop) (Φ Ψ : List Token → Prop) (r : Read α) : Prop where
  forward : Forward r
  forked : ∀ {pre c d}, F.At pre c d → Φ pre → Forked F Q Ψ (r c) (r d)

theorem Forked.mono (h : Forked F Q Ψ o o') (hq : F.Clashing → Q → Q')
    (hp : ∀ pre, Ψ pre → Ψ' pre) : Forked F Q' Ψ' o o' := by
  cases h with
  | beyond h => exact .beyond h
  | past h => exact .past h
  | same place post => exact .same place (hp _ post)
  | early h => exact .early h
  | unasked h => exact .unasked h
  | held clash q h => exact .held clash (hq clash q) h
  | strange h => exact .strange h

/-- The first run stops at the fork and asks for the other token, so the second one stops behind. -/
theorem Forked.behind {f f' : SyntaxFault}
    (h : Forked F False (fun _ => False) (.error (.inTokens f) : Except Fault (α × Cursor))
      (.error (.inTokens f')))
    (ht : f.token = F.one) (hk : F.other.kind ∈ f.expected) (hoffered : F.other.kind ∈ offered) :
    f'.token ∈ F.beyond := by
  cases h with
  | beyond h => exact absurd (by rw [ht]) (F.apart _ (List.mem_append_right _ h.1))
  | past h => exact h.1
  | early h => exact absurd (by rw [ht]) h
  | unasked h => exact absurd hk h
  | held _ q => exact q.elim
  | strange h => exact absurd hoffered h

/-- Where the second run only stays at the end of the line, what follows leaves or takes it. -/
theorem Forked.bind {r : Read α} {f : α → Read β} (h : Forked F Q Χ (r c) (r d))
    (hf : ∀ a, Forks F Q' Χ Ψ (f a)) (hq : Q → ∀ a, Q' ∧ Rests (f a) ∨ Ends (f a)) :
    Forked F Q' Ψ ((r >>= f) c) ((r >>= f) d) := by
  have hforward := fun a => (hf a).forward
  rw [bind_apply, bind_apply]
  generalize ho : r c = o, ho' : r d = o' at h
  cases h with
  | beyond h =>
    have h := Within.bind (ho.symm ▸ h) hforward
    rw [bind_apply, ho] at h
    exact .beyond h
  | past h =>
    have h := Within.bind (ho'.symm ▸ h) hforward
    rw [bind_apply, ho'] at h
    exact .past h
  | same place post => exact (hf _).forked place post
  | early h => exact .early h
  | unasked h => exact .unasked h
  | strange h => exact .strange h
  | held clash q h =>
    rcases h with ⟨a, d', rfl, hd⟩ | h
    · have hcurrent := Cursor.current_of_upcoming hd
      have hahead := Cursor.ahead_of_upcoming hd
      have hk : d'.current.kind = .newline := by rw [hcurrent, clash.1]
      have hne : d'.ahead ≠ [] := hahead ▸ F.goesOn
      rcases hq q a with ⟨q', hrests⟩ | hends
      · refine .held clash q' ?_
        rcases hrests d' hk hne with ⟨b, d'', hb, hd''⟩ | hpast
        · exact .inl ⟨b, d'', hb, hd''.trans hd⟩
        · exact .inr (hahead ▸ hpast)
      · exact .past (hahead ▸ hends d' hk hne)
    · have h := Within.bind (ho'.symm ▸ h) hforward
      rw [bind_apply, ho'] at h
      exact .past h

/-- A run that has nothing to do with the other token: it has taken the one, or does not ask for
the other. -/
def Spent (F : Fork g) (o : Except Fault (α × Cursor)) : Prop :=
  Within F.back o ∨ ∃ f, o = .error (.inTokens f) ∧ F.other.kind ∉ f.expected

theorem Spent.forked (h : Spent F o) : Forked F Q Ψ o o' := by
  rcases h with h | ⟨f, rfl, h⟩
  · exact .beyond h
  · exact .unasked h

theorem Spent.bind {r : Read α} {f : α → Read β} (h : Spent F (r c)) (hf : ∀ a, Forward (f a)) :
    Spent F ((r >>= f) c) := by
  rcases h with h | ⟨f, hr, h⟩
  · exact .inl (h.bind hf)
  · exact .inr ⟨f, by rw [bind_apply, hr], h⟩

/-! What had been read when the statement started does not matter. -/

/-- The outcome with another start of the statement. -/
def restart (started : List Token) (o : Except Fault (α × Cursor)) : Except Fault (α × Cursor) :=
  o.map fun p => (p.1, { p.2 with started })

theorem within_restart (r : Read α) (c : Cursor) : Read.within r c = restart c.started (r c) := by
  rw [Read.within_apply, restart]
  cases r c <;> rfl

theorem Within.restart {s : List Token} (h : Within later o) : Within later (restart s o) := by
  match o, h with
  | .ok _, h => exact h
  | .error _, h => exact h

theorem Spent.restart {s : List Token} (h : Spent F o) : Spent F (restart s o) := by
  rcases h with h | ⟨f, rfl, h⟩
  · exact .inl h.restart
  · exact .inr ⟨f, rfl, h⟩

theorem Forked.restart {s s' : List Token} (h : Forked F Q Ψ o o') :
    Forked F Q Ψ (restart s o) (restart s' o') := by
  cases h with
  | beyond h => exact .beyond h.restart
  | past h => exact .past h.restart
  | same place post => exact .same ⟨place.one, place.other, place.front⟩ post
  | early h => exact .early h
  | unasked h => exact .unasked h
  | strange h => exact .strange h
  | held clash q h =>
    refine .held clash q ?_
    rcases h with ⟨a, d, rfl, hd⟩ | h
    · exact .inl ⟨a, _, rfl, hd⟩
    · exact .inr h.restart

/-- The runs of a reader that starts with a token of that kind. -/
structure Opening (F : Fork g) (k : TokenKind) (Q : Prop) (Φ Ψ : List Token → Prop) (r : Read α) :
    Prop where
  forward : Forward r
  taken : ∀ {d}, d.upcoming = F.other :: F.beyond → F.other.kind = k → k ∈ offered →
    Within F.beyond (r d)
  spent : ∀ {c}, c.upcoming = F.one :: F.back → F.one.kind = k → F.other.kind ≠ k → Spent F (r c)
  forked : ∀ {t pre c d}, F.At (t :: pre) c d → t.kind = k → Φ (t :: pre) →
    Forked F Q Ψ (r c) (r d)

namespace Opening

variable {r : Read α} {f : α → Read β}

theorem reached (h : Opening F k Q Φ Χ r) (hd : d.upcoming = F.other :: F.beyond)
    (hk : F.other.kind = k) : Forked F Q Ψ o (r d) := by
  by_cases hoffered : F.other.kind ∈ offered
  · exact .past (h.taken hd hk (hk ▸ hoffered))
  · exact .strange hoffered

theorem mono (h : Opening F k Q Φ Ψ r) (hp : ∀ pre, Φ' pre → Φ pre) : Opening F k Q Φ' Ψ r :=
  ⟨h.forward, h.taken, h.spent, fun hat hk ht => h.forked hat hk (hp _ ht)⟩

/-- Behind what follows, too, the second run may stay at the end of the line. -/
theorem bind (h : Opening F k Q Φ Χ r) (hf : ∀ a, Forks F Q Χ Ψ (f a))
    (hq : Q → ∀ a, Rests (f a)) : Opening F k Q Φ Ψ (r >>= f) where
  forward := h.forward.bind fun a => (hf a).forward
  taken hd hk hk' := (h.taken hd hk hk').bind fun a => (hf a).forward
  spent hc hk hk' := (h.spent hc hk hk').bind fun a => (hf a).forward
  forked hat hk ht := (h.forked hat hk ht).bind hf fun q a => .inl ⟨q, hq q a⟩

/-- There is no operator in the first part. -/
theorem bindPlain (h : Opening F k False Φ Χ r) (hf : ∀ a, Forks F Q Χ Ψ (f a)) :
    Opening F k Q Φ Ψ (r >>= f) where
  forward := h.forward.bind fun a => (hf a).forward
  taken hd hk hk' := (h.taken hd hk hk').bind fun a => (hf a).forward
  spent hc hk hk' := (h.spent hc hk hk').bind fun a => (hf a).forward
  forked hat hk ht := (h.forked hat hk ht).bind hf fun q => q.elim

theorem within (h : Opening F k Q Φ Ψ r) : Opening F k Q Φ Ψ (Read.within r) where
  forward c := within_restart r c ▸ (h.forward c).restart
  taken {d} hd hk hk' := within_restart r d ▸ (h.taken hd hk hk').restart
  spent {c} hc hk hk' := within_restart r c ▸ (h.spent hc hk hk').restart
  forked {_ _ c d} hat hk ht :=
    within_restart r c ▸ within_restart r d ▸ (h.forked hat hk ht).restart

/-- Only how it reads a token of that kind matters. -/
theorem congr {r' : Read α} (h : Opening F k Q Φ Ψ r) (hr : Forward r')
    (he : ∀ c, c.current.kind = k → r' c = r c) : Opening F k Q Φ Ψ r' where
  forward := hr
  taken hd hk hk' := by
    rw [he _ (by rwa [Cursor.current_of_upcoming hd])]
    exact h.taken hd hk hk'
  spent hc hk hk' := by
    rw [he _ (by rwa [Cursor.current_of_upcoming hc])]
    exact h.spent hc hk hk'
  forked hat hk ht := by
    rw [he _ (by rwa [hat.there.1]), he _ (by rwa [hat.there.2.1])]
    exact h.forked hat hk ht

end Opening

/-- Taking a token. -/
theorem opening_next {r : Read α} {v : Token → α} (hr : ∀ c, r c = .ok (v c.current, c.next))
    (hk : k ≠ .eof) (h : F.Step k Φ Χ) : Opening F k Q Φ Χ r where
  forward := forward_next hr
  taken hd _ _ := by
    have hahead := Cursor.ahead_of_upcoming hd
    exact hahead ▸ within_next hr (hahead ▸ F.goesOn)
  spent hc hk' _ := by
    have hahead := Cursor.ahead_of_upcoming hc
    exact .inl (hahead ▸ within_next hr (hahead ▸ F.ends (hk' ▸ hk)))
  forked {t pre c d} hat hk ht := by
    rw [hr, hr, hat.there.1, hat.there.2.1]
    exact .same hat.next (h t pre hk hat.front ht)

theorem opening_leaf (hk : k ≠ .eof) (h : F.Step k Φ Χ) : Opening F k Q Φ Χ leaf :=
  opening_next (fun _ => rfl) hk h

theorem opening_take (hk : k ≠ .eof) (h : F.Step k Φ Χ) : Opening F k Q Φ Χ take :=
  opening_next (v := id) (fun _ => rfl) hk h

theorem expectName_free (hk : c.current.kind = .name)
    (h : g.isReserved c.current.literal = false) : expectName g c = leaf c := by
  simp [expectName, bind_apply, isAtName_apply, hk, h]

theorem expectName_stuck (h : c.current.kind = .name → g.isReserved c.current.literal = true) :
    expectName g c = .error (.inTokens (c.stuck g [.name]).fault) := by
  have hname : (decide (c.current.kind = .name) && !g.isReserved c.current.literal) = false := by
    simpa using h
  simp [expectName, bind_apply, isAtName_apply, unexpected_apply, hname]

theorem opening_expectName (h : F.Step .name Φ Χ) : Opening F .name Q Φ Χ (expectName g) where
  forward := forward_expectName
  taken hd hk hk' := by
    have hcurrent := Cursor.current_of_upcoming hd
    rw [expectName_free (by rwa [hcurrent]) (by rw [hcurrent, (F.free hk).1])]
    exact (opening_leaf (Q := Q) (by decide) h).taken hd hk hk'
  spent {c} hc hk hk' := by
    have hcurrent := Cursor.current_of_upcoming hc
    by_cases hfree : g.isReserved c.current.literal = false
    · rw [expectName_free (by rwa [hcurrent]) hfree]
      exact (opening_leaf (Q := Q) (by decide) h).spent hc hk hk'
    · refine .inr ⟨_, expectName_stuck fun _ => by simpa using hfree, ?_⟩
      simpa [Cursor.stuck] using hk'
  forked {t pre c d} hat hk ht := by
    obtain ⟨hcurrent, hcurrent', hline, -, -⟩ := hat.there
    by_cases hfree : g.isReserved t.literal = false
    · rw [expectName_free (by rwa [hcurrent]) (by rwa [hcurrent]),
        expectName_free (by rwa [hcurrent']) (by rwa [hcurrent'])]
      exact (opening_leaf (by decide) h).forked hat hk ht
    · rw [expectName_stuck (c := c) fun _ => by simpa [hcurrent] using hfree]
      exact .early (by simpa [Cursor.stuck, hcurrent] using hline)

namespace Forks

variable {r : Read α} {f : α → Read β}

theorem mono (h : Forks F Q Φ Ψ r) (hq : F.Clashing → Q → Q') (hp : ∀ pre, Φ' pre → Φ pre)
    (hp' : ∀ pre, Ψ pre → Ψ' pre) : Forks F Q' Φ' Ψ' r :=
  ⟨h.forward, fun hat hpre => (h.forked hat (hp _ hpre)).mono hq hp'⟩

theorem pure {a : α} (h : ∀ pre, Φ pre → Ψ pre) : Forks F Q Φ Ψ (pure a) :=
  ⟨forward_pure a, fun hat hpre => .same hat (h _ hpre)⟩

/-- Behind what follows, too, the second run may stay at the end of the line. -/
theorem bind (h : Forks F Q Φ Χ r) (hf : ∀ a, Forks F Q Χ Ψ (f a)) (hq : Q → ∀ a, Rests (f a)) :
    Forks F Q Φ Ψ (r >>= f) :=
  ⟨h.forward.bind fun a => (hf a).forward,
    fun hat hpre => (h.forked hat hpre).bind hf fun q a => .inl ⟨q, hq q a⟩⟩

/-- What follows takes the end of the line. -/
theorem bindEnd (h : Forks F Q Φ Χ r) (hf : ∀ a, Forks F Q' Χ Ψ (f a)) (hq : ∀ a, Ends (f a)) :
    Forks F Q' Φ Ψ (r >>= f) :=
  ⟨h.forward.bind fun a => (hf a).forward,
    fun hat hpre => (h.forked hat hpre).bind hf fun _ a => .inr (hq a)⟩

/-- There is no operator in the first part. -/
theorem bindPlain (h : Forks F False Φ Χ r) (hf : ∀ a, Forks F Q Χ Ψ (f a)) :
    Forks F Q Φ Ψ (r >>= f) :=
  ⟨h.forward.bind fun a => (hf a).forward,
    fun hat hpre => (h.forked hat hpre).bind hf fun q => q.elim⟩

theorem tooManySteps : Forks F Q Φ Ψ (Read.tooManySteps : Read α) :=
  ⟨fun _ => trivial, fun _ _ => .beyond trivial⟩

theorem refuse (code : Code) : Forks F Q Φ Ψ (Read.refuse code : Read α) :=
  ⟨fun c => ⟨by simp [Cursor.upcoming], by simp⟩, fun _ _ => .unasked (by simp)⟩

theorem unexpected {ks : List TokenKind} (hks : ∀ k ∈ ks, k ∈ offered)
    (h : Φ [] → F.other.kind ∉ ks) : Forks F Q Φ Ψ (Read.unexpected g ks : Read α) := by
  refine ⟨forward_unexpected hks, fun {pre c d} hat hpre => ?_⟩
  cases pre with
  | nil => exact .unasked (by simpa [Cursor.stuck] using h hpre)
  | cons t pre => exact .early (by simpa [Cursor.stuck, hat.there.1] using hat.there.2.2.1)

theorem within (h : Forks F Q Φ Ψ r) : Forks F Q Φ Ψ (Read.within r) :=
  ⟨fun c => within_restart r c ▸ (h.forward c).restart,
    fun {_ c d} hat hpre => within_restart r c ▸ within_restart r d ▸ (h.forked hat hpre).restart⟩

end Forks

/-! ## Looking at a token -/

theorem ifAt_eq {x y : Read β} (hk : c.current.kind = k) :
    (isAt k >>= fun b => if b = true then x else y) c = x c := by
  show (if decide (c.current.kind = k) = true then x else y) c = x c
  rw [if_pos (by simpa using hk)]

theorem ifAt_ne {x y : Read β} (hk : c.current.kind ≠ k) :
    (isAt k >>= fun b => if b = true then x else y) c = y c := by
  show (if decide (c.current.kind = k) = true then x else y) c = y c
  rw [if_neg (by simpa using hk)]

/-- Where it is of that kind it is read by the one, else by the other. -/
theorem Forks.ifAtElse {x y : Read β} (hx : Opening F k Q Φ Ψ x)
    (hy : Forks F Q (F.Unless k Φ) Ψ y) :
    Forks F Q Φ Ψ (isAt k >>= fun b => if b = true then x else y) := by
  refine ⟨forward_look fun _ => .ite hx.forward hy.forward, fun {pre c d} hat hpre => ?_⟩
  cases pre with
  | nil =>
    obtain ⟨hone, -, hother, -⟩ := hat.here
    by_cases hk' : F.other.kind = k
    · rw [ifAt_eq (c := d) (by rwa [hother])]
      exact hx.reached hat.other hk'
    rw [ifAt_ne (c := d) (by rwa [hother])]
    by_cases hk : F.one.kind = k
    · rw [ifAt_eq (by rwa [hone])]
      exact (hx.spent hat.one hk hk').forked
    · rw [ifAt_ne (by rwa [hone])]
      exact hy.forked hat ⟨hpre, hk'⟩
  | cons t pre =>
    obtain ⟨hcurrent, hcurrent', -⟩ := hat.there
    by_cases hk : t.kind = k
    · rw [ifAt_eq (by rwa [hcurrent]), ifAt_eq (by rwa [hcurrent'])]
      exact hx.forked hat hk hpre
    · rw [ifAt_ne (by rwa [hcurrent]), ifAt_ne (by rwa [hcurrent'])]
      exact hy.forked hat ⟨hpre, hk⟩

theorem Forks.ifAt {x y : Read β} (hx : Opening F k Q Φ Ψ x) (hy : Forks F Q Φ Ψ y) :
    Forks F Q Φ Ψ (isAt k >>= fun b => if b = true then x else y) :=
  .ifAtElse hx (hy.mono (fun _ q => q) (fun _ h => h.1) fun _ h => h)

/-- It is of that kind. -/
theorem Opening.ifAt {x y : Read β} (hx : Opening F k Q Φ Ψ x) (hy : Forward y) :
    Opening F k Q Φ Ψ (isAt k >>= fun b => if b = true then x else y) := by
  exact hx.congr (forward_look fun _ => .ite hx.forward hy) fun c hk => ifAt_eq hk

theorem unlessAt_eq {ks : List TokenKind} {f : Unit → Read β} :
    (isAt k >>= fun b => if (!b) = true then Read.unexpected g ks >>= f else f ()) =
      isAt k >>= fun b => if b = true then f () else Read.unexpected g ks := by
  refine congrArg (isAt k >>= ·) (funext fun b => ?_)
  cases b <;> rfl

/-- Of what is asked for, nothing else is the other token. -/
theorem Forks.unlessAt {ks : List TokenKind} {f : Unit → Read β} (hf : Opening F k Q Φ Ψ (f ()))
    (hks : ∀ k ∈ ks, k ∈ offered) (h : Φ [] → ∀ k' ∈ ks, k' ≠ k → F.other.kind ≠ k') :
    Forks F Q Φ Ψ
      (isAt k >>= fun b => if (!b) = true then Read.unexpected g ks >>= f else f ()) := by
  rw [unlessAt_eq]
  exact .ifAtElse hf (.unexpected hks fun hne hmem => h hne.1 _ hmem hne.2 rfl)

theorem Opening.unlessAt {ks : List TokenKind} {f : Unit → Read β} (hf : Opening F k Q Φ Ψ (f ()))
    (hks : ∀ k ∈ ks, k ∈ offered) : Opening F k Q Φ Ψ
      (isAt k >>= fun b => if (!b) = true then Read.unexpected g ks >>= f else f ()) := by
  rw [unlessAt_eq]
  exact hf.ifAt (forward_unexpected hks)

theorem Forks.expect (hk : k ∈ offered) (h : F.Step k Φ Χ) : Forks F Q Φ Χ (Read.expect g k) := by
  refine .ifAtElse (opening_leaf (by rintro rfl; revert hk; decide) h) (.unexpected (by simpa) ?_)
  exact fun h => by simpa [Fork.Unless] using h.2

theorem Forks.expectName (h : F.Step .name Φ Χ) : Forks F Q Φ Χ (Read.expectName g) := by
  have hname := opening_expectName (Q := Q) h
  refine ⟨hname.forward, fun {pre c d} hat hpre => ?_⟩
  cases pre with
  | nil =>
    by_cases hk' : F.other.kind = .name
    · exact hname.reached hat.other hk'
    · by_cases hk : F.one.kind = .name
      · exact (hname.spent hat.one hk hk').forked
      · rw [expectName_stuck (c := c) fun h => absurd (hat.here.1 ▸ h) hk]
        exact .unasked (by simpa [Cursor.stuck] using hk')
  | cons t pre =>
    obtain ⟨hcurrent, -, hline, -, -⟩ := hat.there
    by_cases hk : t.kind = .name
    · exact hname.forked hat hk hpre
    · rw [expectName_stuck (c := c) fun h => absurd (hcurrent ▸ h) hk]
      exact .early (by simpa [Cursor.stuck, hcurrent] using hline)

end Read

end StoryLang
