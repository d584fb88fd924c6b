/-
What the readers return is derived from the tokens they take, and what they
fail with is a fault of the story.

`Read.Ensures r c post` is the whole contract of a reader at a cursor: if it
returns, `post` holds of what it returned, and if it fails, the fault is one of
the story. For the reader of a phrase `post` says that the tokens up to the
new cursor derive the trees. A bound on the steps would be an internal fault,
so each contract asks for more steps than there are tokens left, and
every loop and every nested value takes at least one token.
-/
import StoryLang.Proofs.Fault
import StoryLang.Proofs.Tree.Derivation

namespace StoryLang

namespace Cursor

/-- The tokens from the current one on. -/
def upcoming (c : Cursor) : List Token := c.current :: c.ahead

/-- How many tokens there are after the current one. -/
def left (c : Cursor) : Nat := c.ahead.length

/-- The tokens end in the end of a story. -/
def Ended (c : Cursor) : Prop := c.upcoming.getLast?.map Token.kind = some .eof

/-- From one cursor to another by taking some tokens. -/
structure Takes (c : Cursor) (taken : List Token) (c' : Cursor) : Prop where
  upcoming : c.upcoming = taken ++ c'.upcoming
  ended : c'.Ended

theorem Takes.refl {c : Cursor} (h : c.Ended) : c.Takes [] c := ⟨rfl, h⟩

theorem Takes.trans {c c' c'' : Cursor} {ts us : List Token} (h : c.Takes ts c')
    (h' : c'.Takes us c'') : c.Takes (ts ++ us) c'' :=
  ⟨by rw [h.upcoming, h'.upcoming, List.append_assoc], h'.ended⟩

theorem Takes.left_add {c c' : Cursor} {ts : List Token} (h : c.Takes ts c') :
    c'.left + ts.length = c.left := by
  have hl := congrArg List.length h.upcoming
  simp only [Cursor.upcoming, List.length_append, List.length_cons] at hl
  simp only [left]
  omega

theorem Takes.left_le {c c' : Cursor} {ts : List Token} (h : c.Takes ts c') :
    c'.left ≤ c.left := by
  have := h.left_add
  omega

theorem Takes.left_lt {c c' : Cursor} {ts : List Token} (h : c.Takes ts c') (hts : ts ≠ []) :
    c'.left < c.left := by
  have hl := h.left_add
  have := List.length_pos_iff.2 hts
  omega

/-- Any token but the last can be taken. -/
theorem Ended.takes_next {c : Cursor} (h : c.Ended) (hk : c.current.kind ≠ .eof) :
    c.Takes [c.current] c.next := by
  cases ha : c.ahead with
  | nil => simp [Ended, upcoming, ha] at h; exact absurd h hk
  | cons t ts =>
    refine ⟨by simp [upcoming, next, ha], ?_⟩
    simpa [Ended, upcoming, next, ha] using h

theorem Takes.next {c c' : Cursor} {ts : List Token} (h : c.Takes ts c')
    (hk : c'.current.kind ≠ .eof) : c.Takes (ts ++ [c'.current]) c'.next :=
  h.trans (h.ended.takes_next hk)

end Cursor

theorem Grammar.isTypeWord.ne_eof {g : Grammar} {t : Token} (h : g.isTypeWord t) :
    t.kind ≠ .eof := by
  rcases h with h | ⟨h, -⟩ <;> simp [h]

theorem Derives.name_ne_eof {g : Grammar} {t : Token} {ts : List Tree}
    (h : Derives g .name [t] ts) : t.kind ≠ .eof := by
  simp [h.name_kind]

theorem Derives.path_ne_nil {g : Grammar} {ts : List Token} {trees : List Tree}
    (h : Derives g .path ts trees) : ts ≠ [] := by
  cases h
  simp

theorem Derives.value_ne_nil {g : Grammar} {ts : List Token} {trees : List Tree}
    (h : Derives g .value ts trees) : ts ≠ [] := by
  cases h with
  | ofPath path => exact path.path_ne_nil
  | _ => simp

theorem Derives.anyValue_ne_nil {g : Grammar} {ts : List Token} {trees : List Tree}
    (h : Derives g .anyValue ts trees) : ts ≠ [] := by
  cases h with
  | ofValue value => exact value.value_ne_nil
  | _ => simp

namespace Read

variable {α β : Type} {g : Grammar} {c : Cursor} {post : β → Cursor → Prop}

/-- If the reader returns at the cursor, `post` holds of what it returns and
of where it stops; if it fails, the fault is one of the story. -/
def Ensures (r : Read α) (c : Cursor) (post : α → Cursor → Prop) : Prop :=
  match r c with
  | .ok (a, c') => post a c'
  | .error f => f.OfStory

theorem Ensures.mono {r : Read α} {post post' : α → Cursor → Prop} (h : Ensures r c post)
    (hp : ∀ a c', post a c' → post' a c') : Ensures r c post' := by
  unfold Ensures at *
  cases hr : r c with
  | ok p => rw [hr] at h; exact hp _ _ h
  | error f => rw [hr] at h; exact h

theorem Ensures.of_ok {r : Read α} {post : α → Cursor → Prop} {a : α} (h : Ensures r c post)
    (hr : (r c).map (·.1) = .ok a) : ∃ c', post a c' := by
  unfold Ensures at h
  cases hc : r c with
  | ok p =>
    rw [hc] at h hr
    obtain rfl : p.1 = a := by simpa [Except.map] using hr
    exact ⟨p.2, h⟩
  | error f => simp [hc, Except.map] at hr

theorem Ensures.of_error {r : Read α} {post : α → Cursor → Prop} {f : Fault} (h : Ensures r c post)
    (hr : (r c).map (·.1) = .error f) : f.OfStory := by
  unfold Ensures at h
  cases hc : r c with
  | ok p => simp [hc, Except.map] at hr
  | error f' =>
    rw [hc] at h hr
    obtain rfl : f' = f := by simpa [Except.map] using hr
    exact h

theorem pure_apply (a : α) (c : Cursor) : (pure a : Read α) c = .ok (a, c) := rfl

theorem bind_apply (r : Read α) (f : α → Read β) (c : Cursor) :
    (r >>= f) c = match r c with
      | .ok (a, c') => f a c'
      | .error e => .error e := by
  simp only [bind, StateT.bind, Except.bind]
  cases r c <;> rfl

/-! A cursor's single steps. -/

theorem fail_apply (f : Fault) (c : Cursor) : (fail f : Read α) c = .error f := rfl

theorem kind_apply (c : Cursor) : (kind : Read TokenKind) c = .ok (c.current.kind, c) := rfl

theorem isAt_apply (k : TokenKind) (c : Cursor) :
    (isAt k : Read Bool) c = .ok (decide (c.current.kind = k), c) := rfl

theorem isBefore_apply (k : TokenKind) (c : Cursor) :
    (isBefore k : Read Bool) c = .ok (decide ((c.ahead.headD c.current).kind = k), c) := rfl

theorem isAtName_apply (c : Cursor) : (isAtName g : Read Bool) c =
    .ok (decide (c.current.kind = .name) && !g.isReserved c.current.literal, c) := rfl

theorem isAtCast_apply (c : Cursor) : (isAtCast g : Read Bool) c =
    .ok (decide (c.current.kind = .keyword .asWord) &&
      (decide ((c.ahead.headD c.current).kind = .keyword .functionWord) ||
        (decide ((c.ahead.headD c.current).kind = .name) &&
          g.isTypeName (c.ahead.headD c.current).literal)), c) := rfl

theorem take_apply (c : Cursor) : (take : Read Token) c = .ok (c.current, c.next) := rfl

theorem leaf_apply (c : Cursor) : (leaf : Read Tree) c = .ok (.token c.current, c.next) := rfl

theorem unexpected_apply (ks : List TokenKind) (c : Cursor) :
    (unexpected g ks : Read α) c = .error (.inTokens (c.stuck g ks).fault) := rfl

theorem within_apply (r : Read α) (c : Cursor) : within r c = match r c with
    | .ok (a, c') => .ok (a, { c' with started := c.started })
    | .error f => .error f := by
  change (r c >>= fun out => Except.ok (out.1, { out.2 with started := c.started })) = _
  cases r c <;> rfl

theorem inLoop_eq (r : Read α) : inLoop r = r := rfl

theorem inFunction_eq (r : Read α) : inFunction r = r := rfl

theorem isInLoop_eq (e : Enclosing) : (isInLoop e : Read Bool) = pure e.inLoop := rfl

theorem isInFunction_eq (e : Enclosing) : (isInFunction e : Read Bool) = pure e.inFunction := rfl

theorem Ensures.bind {r : Read α} {f : α → Read β} {mid : α → Cursor → Prop}
    (h : Ensures r c mid) (hf : ∀ a c', mid a c' → Ensures (f a) c' post) :
    Ensures (r >>= f) c post := by
  unfold Ensures at h ⊢
  rw [bind_apply]
  cases hr : r c with
  | ok p => rw [hr] at h; exact hf p.1 p.2 h
  | error f' => rw [hr] at h; exact h

theorem ensures_pure {a : α} {post : α → Cursor → Prop} (h : post a c) :
    Ensures (pure a) c post := h

theorem ensures_isAt {k : TokenKind} {f : Bool → Read β}
    (h : Ensures (f (decide (c.current.kind = k))) c post) : Ensures (isAt k >>= f) c post := h

theorem ensures_unexpected {ks : List TokenKind} {post : α → Cursor → Prop} :
    Ensures (unexpected g ks) c post :=
  Stuck.fault_ofStory _

theorem ensures_unexpected_bind {ks : List TokenKind} {f : α → Read β} :
    Ensures (unexpected g ks >>= f) c post :=
  Stuck.fault_ofStory _

theorem ensures_leaf {f : Tree → Read β} (h : Ensures (f (.token c.current)) c.next post) :
    Ensures (leaf >>= f) c post := h

theorem ensures_take {f : Token → Read β} (h : Ensures (f c.current) c.next post) :
    Ensures (take >>= f) c post := h

theorem ensures_kind {f : TokenKind → Read β} (h : Ensures (f c.current.kind) c post) :
    Ensures (kind >>= f) c post := h

theorem ensures_isBefore {k : TokenKind} {f : Bool → Read β}
    (h : Ensures (f (decide ((c.ahead.headD c.current).kind = k))) c post) :
    Ensures (isBefore k >>= f) c post := h

/-- Only at an `as` comes a cast. -/
theorem ensures_isAtCast {f : Bool → Read β}
    (h : ∀ b : Bool, (b = true → c.current.kind = .keyword .asWord) → Ensures (f b) c post) :
    Ensures (isAtCast g >>= f) c post :=
  h _ fun hb => by simpa using (Bool.and_eq_true_iff.1 hb).1

theorem ensures_expect {k : TokenKind} {f : Tree → Read β}
    (h : c.current.kind = k → Ensures (f (.token c.current)) c.next post) :
    Ensures (expect g k >>= f) c post := by
  unfold Ensures
  by_cases hk : c.current.kind = k
  · have := h hk
    simpa only [expect, bind_apply, isAt_apply, leaf_apply, hk, decide_true, if_true, Ensures]
      using this
  · simpa only [expect, bind_apply, isAt_apply, unexpected_apply, hk, decide_false,
      Bool.false_eq_true, if_false] using Stuck.fault_ofStory _

theorem ensures_expectName {f : Tree → Read β}
    (h : Derives g .name [c.current] [.token c.current] →
      Ensures (f (.token c.current)) c.next post) :
    Ensures (expectName g >>= f) c post := by
  unfold Ensures
  by_cases hk : c.current.kind = .name ∧ g.isReserved c.current.literal = false
  · have := h (.name hk.1 hk.2)
    simpa only [expectName, bind_apply, isAtName_apply, leaf_apply, hk.1, hk.2, decide_true,
      Bool.not_false, Bool.and_self, if_true, Ensures] using this
  · have hf : (decide (c.current.kind = .name) && !g.isReserved c.current.literal) = false := by
      simpa using hk
    simpa only [expectName, bind_apply, isAtName_apply, unexpected_apply, hf, Bool.false_eq_true,
      if_false] using Stuck.fault_ofStory _

theorem ensures_ifAt {k : TokenKind} {x y : Read β} (hx : c.current.kind = k → Ensures x c post)
    (hy : c.current.kind ≠ k → Ensures y c post) :
    Ensures (isAt k >>= fun b => if b = true then x else y) c post := by
  refine ensures_isAt ?_
  by_cases hk : c.current.kind = k
  · simpa only [hk, decide_true, if_true] using hx hk
  · simpa only [hk, decide_false, Bool.false_eq_true, if_false] using hy hk

theorem ensures_unlessAt {k : TokenKind} {ks : List TokenKind} {f : Unit → Read β}
    (h : c.current.kind = k → Ensures (f ()) c post) :
    Ensures (isAt k >>= fun b => if (!b) = true then unexpected g ks >>= f else f ()) c post := by
  refine ensures_isAt ?_
  by_cases hk : c.current.kind = k
  · simpa only [hk, decide_true, Bool.not_true, Bool.false_eq_true, if_false] using h hk
  · simpa only [hk, decide_false, Bool.not_false, if_true] using ensures_unexpected_bind

theorem ensures_typeWord {ks : List TokenKind} {f : Unit → Read β}
    (h : g.isTypeWord c.current → Ensures (f ()) c post) :
    Ensures (do
      let a ← isAt (.keyword .functionWord)
      let b ← isAtName g
      if (!(a || b)) = true then unexpected g ks >>= f else f ()) c post := by
  refine ensures_isAt ?_
  change Ensures (if (!(_ || (decide (c.current.kind = .name) && !g.isReserved c.current.literal))) =
    true then unexpected g ks >>= f else f ()) c post
  by_cases hw : g.isTypeWord c.current
  · have := h hw
    simp only [Grammar.isTypeWord] at hw
    rcases hw with hw | ⟨hw, hw'⟩ <;> simp [*]
  · simp only [Grammar.isTypeWord, not_or, not_and, Bool.not_eq_false] at hw
    by_cases hk : c.current.kind = .name <;> simp_all [ensures_unexpected_bind]

/-- Reads a phrase wherever fewer than `limit` tokens are left. -/
def Reads (g : Grammar) (p : Phrase) (limit : Nat) (trees : α → List Tree) (r : Read α) : Prop :=
  ∀ c : Cursor, c.Ended → c.left < limit →
    Ensures r c fun a c' => ∃ ts, c.Takes ts c' ∧ Derives g p ts (trees a)

/-- The one tree of a reader that returns a single one. -/
abbrev single (t : Tree) : List Tree := [t]

theorem Reads.mono {p : Phrase} {limit limit' : Nat} {trees : α → List Tree} {r : Read α}
    (h : Reads g p limit trees r) (hl : limit' ≤ limit) : Reads g p limit' trees r :=
  fun c hc hleft => h c hc (by omega)

theorem Reads.bind {p : Phrase} {limit : Nat} {trees : α → List Tree} {r : Read α}
    {f : α → Read β} (h : Reads g p limit trees r) (hc : c.Ended) (hl : c.left < limit)
    (hf : ∀ a c' ts, c.Takes ts c' → Derives g p ts (trees a) → Ensures (f a) c' post) :
    Ensures (r >>= f) c post :=
  (h c hc hl).bind fun a c' ⟨ts, ht, hd⟩ => hf a c' ts ht hd

theorem expectName_reads {m : Nat} : Reads g .name m single (expectName g) := by
  intro c hc _
  rw [← bind_pure (expectName g)]
  exact ensures_expectName fun hn => ensures_pure ⟨_, hc.takes_next hn.name_ne_eof, hn⟩

/-! ## Rows and types -/

theorem commaSeparated_reads {p : Phrase} {item : Read Tree} :
    ∀ {n m : Nat}, m ≤ n → Reads g p m single item →
      Reads g (.row p) m id (commaSeparated item n)
  | 0, m, hm, _ => fun c _ hl => by omega
  | n + 1, m, hm, hi => by
    intro c hc hl
    unfold commaSeparated
    refine hi.bind hc hl fun t c' ts ht hd => ensures_isAt ?_
    by_cases hk : c'.current.kind = .symbol .comma
    · simp only [hk, decide_true, if_true]
      have ht' := ht.next (by simp [hk])
      have hlt := ht'.left_lt (by simp)
      have ih := commaSeparated_reads (n := n) (m := m - 1) (by omega) (hi.mono (by omega))
      refine ensures_take (ih.bind ht'.ended (by omega) fun rest c'' us hu hd' => ?_)
      exact ensures_pure ⟨_, ht'.trans hu, by simpa using Derives.more hd hk hd'⟩
    · simp only [hk, decide_false, Bool.false_eq_true, if_false]
      exact ensures_pure ⟨ts, ht, .one hd⟩

theorem types_reads : ∀ {n m : Nat}, m ≤ n → Reads g .types m single (types g n)
  | 0, m, hm => fun c _ hl => by omega
  | n + 1, m, hm => by
    intro c hc hl
    unfold types
    dsimp only
    refine ensures_typeWord fun hw => ensures_leaf ?_
    have ht := hc.takes_next hw.ne_eof
    refine ensures_ifAt (fun hk => ensures_take ?_) fun _ => ensures_pure ⟨_, ht, .typeName hw⟩
    have ht' := ht.next (by simp [hk])
    have ih := types_reads (n := n) (m := m - 1) (by omega)
    have hlt := ht'.left_lt (by simp)
    refine (commaSeparated_reads (by omega) ih).bind ht'.ended (by omega)
      fun parts c' ts hts hd => ?_
    refine ensures_unlessAt fun hk' => ensures_take (ensures_pure ?_)
    refine ⟨_, (ht'.trans hts).next (by simp [hk']), ?_⟩
    simpa using Derives.typeParts hw hk hd hk'

/-! ## Parts of values

Each reader of a part is given the reader `value` for the values in it. -/

section Values

variable {value : Nat → Read Tree}

theorem fragments_reads : ∀ {n m : Nat}, m ≤ n → (∀ min, Reads g .value m single (value min)) →
    Reads g .fragments m id (fragments g value n)
  | 0, m, hm, _ => fun c _ hl => by omega
  | n + 1, m, hm, hv => by
    intro c hc hl
    unfold fragments
    have ih := fragments_reads (n := n) (m := m - 1) (by omega) fun min => (hv min).mono (by omega)
    refine ensures_ifAt (fun hk => ensures_leaf ?_) fun _ =>
      ensures_ifAt (fun hk => ensures_leaf ?_) fun _ => ensures_pure ⟨[], .refl hc, .noFragments⟩
    · have ht := hc.takes_next (by simp [hk])
      refine ensures_expectName fun hn => ?_
      have ht' := ht.next (hn.name_ne_eof)
      have hlt := ht'.left_lt (by simp)
      refine ih.bind ht'.ended (by omega) fun rest c' ts hts hd => ?_
      exact ensures_pure ⟨_, ht'.trans hts, by simpa using Derives.field hk hn hd⟩
    · have ht := hc.takes_next (by simp [hk])
      have hlt := ht.left_lt (by simp)
      refine (hv 0).bind ht.ended (by omega) fun v c₁ ts hts hd => ensures_expect fun hk' => ?_
      have ht' := (ht.trans hts).next (by simp [hk'])
      have hlt' := ht'.left_lt (by simp)
      refine ih.bind ht'.ended (by omega) fun rest c' us hus hd' => ?_
      exact ensures_pure ⟨_, ht'.trans hus, by simpa using Derives.index hk hd hk' hd'⟩

theorem path_reads {n m : Nat} (hm : m ≤ n) (hv : ∀ min, Reads g .value m single (value min)) :
    Reads g .path (m + 1) single (path g value n) := by
  intro c hc hl
  unfold path
  refine ensures_expectName fun hn => ?_
  have ht := hc.takes_next hn.name_ne_eof
  have hlt := ht.left_lt (by simp)
  refine (fragments_reads hm hv).bind ht.ended (by omega) fun fs c' ts hts hd => ?_
  exact ensures_pure ⟨_, ht.trans hts, by simpa using Derives.path hn hd⟩

theorem argumentList_reads : ∀ {n m : Nat}, m ≤ n →
    (∀ min, Reads g .value m single (value min)) →
    Reads g .arguments m id (argumentList g value n)
  | 0, m, hm, _ => fun c _ hl => by omega
  | n + 1, m, hm, hv => by
    intro c hc hl
    unfold argumentList
    dsimp only
    have ih := argumentList_reads (n := n) (m := m - 1) (by omega)
      fun min => (hv min).mono (by omega)
    refine ensures_ifAt (fun _ => ensures_expectName fun hn => ensures_expect fun hk => ?_)
      fun _ => ensures_pure ⟨[], .refl hc, .noArguments⟩
    have ht := (hc.takes_next hn.name_ne_eof).next (by simp [hk])
    have hlt := ht.left_lt (by simp)
    refine (hv 0).bind ht.ended (by omega) fun v c₁ ts hts hd => ?_
    have hlt₁ := hts.left_le
    refine ensures_ifAt (fun hk' => ensures_take ?_) fun _ => ?_
    · have ht' := (ht.trans hts).next (by simp [hk'])
      have hlt' := ht'.left_lt (by simp)
      refine ih.bind ht'.ended (by omega) fun rest c' us hus hd' => ?_
      exact ensures_pure ⟨_, ht'.trans hus, by simpa using Derives.argumentComma hn hk hd hk' hd'⟩
    · refine ih.bind hts.ended (by omega) fun rest c' us hus hd' => ?_
      exact ensures_pure ⟨_, (ht.trans hts).trans hus,
        by simpa using Derives.argument hn hk hd hd'⟩

theorem ensures_arguments {n m : Nat} (hm : m ≤ n)
    (hv : ∀ min, Reads g .value m single (value min)) {f : Tree → Read β} (hc : c.Ended)
    (hl : c.left < m)
    (hf : ∀ given c' ts, c.Takes ts c' → Derives g .arguments ts given →
      Ensures (f (.of .arguments given)) c' post) :
    Ensures (arguments g value n >>= f) c post := by
  unfold arguments
  rw [bind_assoc]
  exact (argumentList_reads hm hv).bind hc hl hf

theorem output_reads {n m : Nat} (hm : m ≤ n) : Reads g .output m single (output g n) := by
  intro c hc hl
  unfold output
  refine ensures_expect fun hk => ?_
  have ht := hc.takes_next (by simp [hk])
  have hlt := ht.left_lt (by simp)
  refine (commaSeparated_reads hm expectName_reads).bind ht.ended (by omega)
    fun names c' ts hts hd => ?_
  exact ensures_pure ⟨_, ht.trans hts, by simpa using Derives.output hk hd⟩

/-- At a `then` there is at least one link. -/
theorem links_ensures : ∀ {n m : Nat}, m ≤ n → (∀ min, Reads g .value m single (value min)) →
    ∀ {c : Cursor}, c.Ended → c.left < m → Ensures (links g value n) c fun rest c' =>
      ∃ ts, c.Takes ts c' ∧ Derives g .links ts rest ∧
        (c.current.kind = .keyword .thenWord → rest ≠ [])
  | 0, m, hm, _, c, _, hl => by omega
  | n + 1, m, hm, hv, c, hc, hl => by
    unfold links
    have hv' : ∀ min, Reads g .value (m - 1) single (value min) :=
      fun min => (hv min).mono (by omega)
    refine ensures_ifAt (fun hk => ensures_leaf (ensures_expectName fun hn => ?_))
      fun hk => ensures_pure ⟨[], .refl hc, .noLinks, fun h => absurd h hk⟩
    have ht := (hc.takes_next (by simp [hk])).next hn.name_ne_eof
    have hlt := ht.left_lt (by simp)
    refine ensures_arguments (by omega) hv' ht.ended (by omega) fun given c₁ ts hts hd => ?_
    have hle := hts.left_le
    refine (links_ensures (by omega) hv' hts.ended (by omega)).bind
      fun rest c' ⟨us, hus, hd', _⟩ => ?_
    exact ensures_pure ⟨_, (ht.trans hts).trans hus,
      by simpa using Derives.link hk hn hd hd', fun _ => by simp⟩

/-! ## Values -/

/-- What follows a path makes it a call of a service, or a chain. -/
theorem serviceTail_ensures {n m : Nat} (hm : m ≤ n)
    (hv : ∀ min, Reads g .value m single (value min)) {c₀ : Cursor} {ts : List Token}
    {service : Tree} (ht : c₀.Takes ts c) (hd : Derives g .value ts [service])
    (hp : service.isA .path = true) (hl : c.left < m) :
    Ensures (serviceTail g value n service) c fun t c' =>
      ∃ us, c₀.Takes us c' ∧ Derives g .anyValue us [t] ∧ t.rule?.any Rule.isCall = true := by
  unfold serviceTail
  dsimp only
  refine ensures_expectName fun hn => ?_
  have ht₁ := ht.next hn.name_ne_eof
  have hlt := (ht.ended.takes_next hn.name_ne_eof).left_lt (by simp)
  refine ensures_arguments hm hv ht₁.ended (by omega) fun given c₂ us hus hd₁ => ?_
  have ht₂ := ht₁.trans hus
  have hle := hus.left_le
  refine ensures_ifAt (fun hk => ?_) fun _ => ensures_ifAt (fun _ => ?_) fun _ => ?_
  · refine (links_ensures hm hv hus.ended (by omega)).bind fun rest c' ⟨vs, hvs, hd₂, hne⟩ => ?_
    obtain ⟨link, rest, rfl⟩ := List.exists_cons_of_ne_nil (hne hk)
    exact ensures_pure ⟨_, ht₂.trans hvs, by simpa using Derives.chain hd hp hn hd₁ hd₂, rfl⟩
  · refine (output_reads hm).bind hus.ended (by omega) fun names c' vs hvs hd₂ => ?_
    exact ensures_pure
      ⟨_, ht₂.trans hvs, by simpa using Derives.serviceOutput hd hp hn hd₁ hd₂, rfl⟩
  · exact ensures_pure ⟨_, ht₂, by simpa using Derives.service hd hp hn hd₁, rfl⟩

/-- What follows a value may continue it by a call, and does so if it is a name. -/
theorem callTail_ensures {n m : Nat} (hm : m ≤ n)
    (hv : ∀ min, Reads g .value m single (value min)) {c₀ : Cursor} {ts : List Token}
    {left : Tree} (ht : c₀.Takes ts c) (hd : Derives g .value ts [left]) (hl : c.left < m) :
    Ensures (callTail g value n left) c fun t c' =>
      ∃ us, c₀.Takes us c' ∧ Derives g .anyValue us [t] ∧
        (c.current.kind = .name → t.rule?.any Rule.isCall = true) := by
  unfold callTail
  refine ensures_ifAt (fun _ => ?_) fun hk =>
    ensures_pure ⟨ts, ht, .ofValue hd, fun h => absurd h hk⟩
  split
  · rename_i hp
    exact (serviceTail_ensures hm hv ht hd hp hl).mono
      fun t c' ⟨us, hus, hd', hc⟩ => ⟨us, hus, hd', fun _ => hc⟩
  · rename_i hp
    unfold mutationTail
    refine ensures_expectName fun hn => ?_
    have ht₁ := ht.next hn.name_ne_eof
    have hlt := (ht.ended.takes_next hn.name_ne_eof).left_lt (by simp)
    refine ensures_arguments hm hv ht₁.ended (by omega) fun given c₂ us hus hd₁ => ?_
    have hle := hus.left_le
    refine (links_ensures hm hv hus.ended (by omega)).bind fun rest c' ⟨vs, hvs, hd₂, _⟩ => ?_
    exact ensures_pure ⟨_, (ht₁.trans hus).trans hvs,
      by simpa using Derives.mutation hd (by simpa using hp) hn hd₁ hd₂, fun _ => rfl⟩

theorem callOrValue_reads {n m : Nat} (hm : m ≤ n)
    (hv : ∀ min, Reads g .value m single (value min)) :
    Reads g .anyValue m single (callOrValue g value n) := by
  intro c hc hl
  unfold callOrValue
  refine (hv 0).bind hc hl fun left c' ts ht hd => ?_
  have hle := ht.left_le
  exact (callTail_ensures hm hv ht hd (by omega)).mono
    fun t c' ⟨us, hus, hd', _⟩ => ⟨us, hus, hd'⟩

theorem list_ensures {n m : Nat} (hm : m ≤ n)
    (hv : ∀ min, Reads g .value m single (value min)) (hc : c.Ended) (hl : c.left ≤ m)
    (hk : c.current.kind = .symbol .leftBracket) :
    Ensures (list g value n) c fun t c' => ∃ ts, c.Takes ts c' ∧ Derives g .value ts [t] := by
  unfold list
  simp only [pure_bind]
  have ht := hc.takes_next (by simp [hk])
  have hlt := ht.left_lt (by simp)
  refine ensures_leaf (ensures_ifAt (fun hk' => ?_) fun _ => ?_)
  · refine ensures_unlessAt fun _ => ensures_leaf (ensures_pure ?_)
    exact ⟨_, ht.next (by simp [hk']), by simpa using Derives.emptyList hk hk'⟩
  · refine (commaSeparated_reads hm (hv 0)).bind ht.ended (by omega) fun items c' ts hts hd => ?_
    refine ensures_unlessAt fun hk' => ensures_leaf (ensures_pure ?_)
    exact ⟨_, (ht.trans hts).next (by simp [hk']), by simpa using Derives.list hk hd hk'⟩

theorem mapItem_reads {m : Nat} (hv : ∀ min, Reads g .value m single (value min)) :
    Reads g .entry m single (mapItem g value) := by
  intro c hc hl
  unfold mapItem
  refine (hv 0).bind hc hl fun key c₁ ts hts hd => ensures_expect fun hk => ?_
  have ht := hts.next (by simp [hk])
  have hlt := ht.left_lt (by simp)
  refine (hv 0).bind ht.ended (by omega) fun item c' us hus hd' => ?_
  exact ensures_pure ⟨_, ht.trans hus, by simpa using Derives.entry hd hk hd'⟩

theorem map_ensures {n m : Nat} (hm : m ≤ n)
    (hv : ∀ min, Reads g .value m single (value min)) (hc : c.Ended) (hl : c.left ≤ m)
    (hk : c.current.kind = .symbol .leftBrace) :
    Ensures (map g value n) c fun t c' => ∃ ts, c.Takes ts c' ∧ Derives g .value ts [t] := by
  unfold map
  simp only [pure_bind]
  have ht := hc.takes_next (by simp [hk])
  have hlt := ht.left_lt (by simp)
  refine ensures_leaf (ensures_ifAt (fun hk' => ?_) fun _ => ?_)
  · refine ensures_unlessAt fun _ => ensures_leaf (ensures_pure ?_)
    exact ⟨_, ht.next (by simp [hk']), by simpa using Derives.emptyMap hk hk'⟩
  · refine (commaSeparated_reads hm (mapItem_reads hv)).bind ht.ended (by omega)
      fun items c' ts hts hd => ?_
    refine ensures_unlessAt fun hk' => ensures_leaf (ensures_pure ?_)
    exact ⟨_, (ht.trans hts).next (by simp [hk']), by simpa using Derives.map hk hd hk'⟩

theorem functionCall_reads {n m : Nat} (hm : m ≤ n)
    (hv : ∀ min, Reads g .value m single (value min)) :
    Reads g .value (m + 1) single (functionCall g value n) := by
  intro c hc hl
  unfold functionCall
  dsimp only
  refine ensures_expectName fun hn => ensures_expect fun hk => ?_
  have ht := (hc.takes_next hn.name_ne_eof).next (by simp [hk])
  have hlt := ht.left_lt (by simp)
  refine ensures_arguments hm hv ht.ended (by omega) fun given c' ts hts hd => ?_
  refine ensures_unlessAt fun hk' => ensures_leaf (ensures_pure ?_)
  exact ⟨_, (ht.trans hts).next (by simp [hk']), by simpa using Derives.functionCall hn hk hd hk'⟩

theorem parenthesized_ensures {n m : Nat} (hm : m ≤ n)
    (hv : ∀ min, Reads g .value m single (value min)) (hc : c.Ended) (hl : c.left ≤ m)
    (hk : c.current.kind = .symbol .leftParen) :
    Ensures (parenthesized g value n) c fun t c' =>
      ∃ ts, c.Takes ts c' ∧ Derives g .value ts [t] := by
  unfold parenthesized
  have ht := hc.takes_next (by simp [hk])
  have hlt := ht.left_lt (by simp)
  refine ensures_take ((callOrValue_reads hm hv).bind ht.ended (by omega) fun t c' ts hts hd => ?_)
  refine ensures_expect fun hk' => ensures_pure ?_
  exact ⟨_, (ht.trans hts).next (by simp [hk']), by simpa using Derives.parentheses hk hd hk'⟩

theorem prefixed_reads (hg : g.KeepsLayout) {m : Nat}
    (hv : ∀ min, Reads g .value m single (value min)) :
    Reads g .value (m + 1) single (prefixed g value) := by
  intro c hc hl
  unfold prefixed
  refine ensures_kind ?_
  cases ho : g.operators.before? c.current.kind with
  | none => exact ensures_unexpected
  | some operator =>
    have ht := hc.takes_next fun hk => by simp [hk, (hg .eof rfl).2] at ho
    have hlt := ht.left_lt (by simp)
    refine ensures_leaf ((hv _).bind ht.ended (by omega) fun t c' ts hts hd => ?_)
    exact ensures_pure ⟨_, ht.trans hts, by simpa using Derives.unary (by simp [ho]) hd⟩

theorem literal_ensures {rule : Rule} (hc : c.Ended) (hk : c.current.kind ≠ .eof)
    (hd : Derives g .value [c.current] [.of rule [.token c.current]]) :
    Ensures (literal rule) c fun t c' => ∃ ts, c.Takes ts c' ∧ Derives g .value ts [t] :=
  ensures_leaf (ensures_pure ⟨_, hc.takes_next hk, hd⟩)

theorem operand_reads (hg : g.KeepsLayout) {n m : Nat} (hm : m ≤ n)
    (hv : ∀ min, Reads g .value m single (value min)) :
    Reads g .value (m + 1) single (operand g value n) := by
  intro c hc hl
  unfold operand
  refine ensures_kind ?_
  split <;> rename_i hk
  · refine ensures_isBefore ?_
    split
    · exact functionCall_reads hm hv c hc hl
    · exact (path_reads hm hv c hc hl).mono fun t c' ⟨ts, ht, hd⟩ => ⟨ts, ht, .ofPath hd⟩
  · exact literal_ensures hc (by simp [hk]) (.number (.inl hk))
  · exact literal_ensures hc (by simp [hk]) (.number (.inr hk))
  · exact literal_ensures hc (by simp [hk]) (.string hk)
  · exact literal_ensures hc (by simp [hk]) (.boolean (.inl hk))
  · exact literal_ensures hc (by simp [hk]) (.boolean (.inr hk))
  · exact literal_ensures hc (by simp [hk]) (.null hk)
  · exact list_ensures hm hv hc (by omega) hk
  · exact map_ensures hm hv hc (by omega) hk
  · exact parenthesized_ensures hm hv hc (by omega) hk
  · exact prefixed_reads hg hv c hc hl

/-- A value is extended by casts and operators as far as they bind tightly enough. -/
theorem climb_ensures (hg : g.KeepsLayout) {min : Nat} {c₀ : Cursor} : ∀ {n m : Nat}, m ≤ n →
    (∀ min, Reads g .value m single (value min)) → ∀ {c : Cursor} {ts : List Token} {left : Tree},
    c₀.Takes ts c → Derives g .value ts [left] → c.left < m →
    Ensures (climb g value min n left) c fun t c' =>
      ∃ us, c₀.Takes us c' ∧ Derives g .value us [t]
  | 0, m, hm, _, c, _, _, _, _, hl => by omega
  | n + 1, m, hm, hv, c, ts, left, ht, hd, hl => by
    have hv' : ∀ min, Reads g .value (m - 1) single (value min) :=
      fun min => (hv min).mono (by omega)
    unfold climb
    dsimp only
    refine ensures_isAtCast fun b hb => ?_
    split
    · rename_i hcast
      have hk := hb (Bool.and_eq_true_iff.1 hcast).1
      have hlt := (ht.ended.takes_next (by simp [hk])).left_lt (by simp)
      refine ensures_leaf ((types_reads (m := m - 1) (by omega)).bind
        (ht.next (by simp [hk])).ended (by omega) fun type c' us hus hd' => ?_)
      have hle := hus.left_le
      exact climb_ensures hg (by omega) hv' ((ht.next (by simp [hk])).trans hus)
        (by simpa using Derives.cast hd hk hd') (by omega)
    · refine ensures_kind ?_
      cases ho : g.operators.between? c.current.kind with
      | none => exact ensures_pure ⟨ts, ht, hd⟩
      | some operator =>
        dsimp only
        split
        · exact ensures_pure ⟨ts, ht, hd⟩
        · have hk : c.current.kind ≠ .eof := fun hk => by simp [hk, (hg .eof rfl).1] at ho
          have ht' := ht.next hk
          have hlt := (ht.ended.takes_next hk).left_lt (by simp)
          refine ensures_leaf ((hv _).bind ht'.ended (by omega) fun right c' us hus hd' => ?_)
          have hle := hus.left_le
          refine ensures_kind ?_
          split
          · exact ensures_unexpected_bind
          · exact climb_ensures hg (by omega) hv' (ht'.trans hus)
              (by simpa using Derives.binary hd (by simp [ho]) hd') (by omega)

end Values

theorem expression_reads (hg : g.KeepsLayout) :
    ∀ n min, Reads g .value n single (expression g n min)
  | 0, _ => fun c _ hl => by omega
  | n + 1, min => by
    intro c hc hl
    unfold expression
    have ih := expression_reads hg n
    refine (operand_reads hg (Nat.le_refl n) ih).bind hc hl fun left c' ts hts hd => ?_
    have hlt := hts.left_lt hd.value_ne_nil
    exact climb_ensures hg (Nat.le_refl n) ih hts hd (by omega)

theorem anyValue_reads (hg : g.KeepsLayout) (n : Nat) : Reads g .anyValue n single (anyValue g n) :=
  callOrValue_reads (Nat.le_refl n) (expression_reads hg n)

end Read

end StoryLang
