/-
Jumps sit in what they jump out of.

In a tree that was read every `break` and `continue` is in a loop of the
function it stands in, and every `return` is in a function. Where that is not
so, reading stops at the jump.

`Guarded` is the contract of a reader in front of whose statements some blocks
are open: what is around the statements in the tree is what those blocks
provide, and only where they do not provide what a jump needs it is refused.
-/
import StoryLang.Proofs.Token.Literal
import StoryLang.Proofs.Tree.Layers
import StoryLang.Proofs.Tree.Stops
import StoryLang.Token.Scan

namespace StoryLang

/-- A token at which a jump is reported to be outside, and the open blocks do not provide what it
jumps out of. -/
def Misplaced (code : Code) (k : TokenKind) (opened : List TokenKind) : Prop :=
  match code with
  | .returnOutsideFunction => k = .keyword .returnWord ∧ .keyword .functionWord ∉ opened
  | .breakOutsideLoop => k = .keyword .breakWord ∧
    ∀ header ∈ opened.takeWhile (· ≠ .keyword .functionWord),
      header ≠ .keyword .foreachWord ∧ header ≠ .keyword .whileWord
  | .continueOutsideLoop => k = .keyword .continueWord ∧
    ∀ header ∈ opened.takeWhile (· ≠ .keyword .functionWord),
      header ≠ .keyword .foreachWord ∧ header ≠ .keyword .whileWord
  | _ => False

/-- If the fault is that a jump is outside, that is so by the blocks that are open in front of it. -/
def Fault.Accounted (all : List Token) : Fault → Prop
  | .inTokens f => f.code.isOutside = true →
    ∃ ts us, all = ts ++ f.token :: us ∧ Misplaced f.code f.token.kind (openBlocks ts)
  | _ => True

theorem Stuck.accounted (all : List Token) (s : Stuck) : (Fault.inTokens s.fault).Accounted all :=
  fun h => by rw [s.fault_inside] at h; cases h

namespace Read

variable {α β : Type} {g : Grammar} {all : List Token} {c : Cursor} {l : Layers} {e : Enclosing}

/-- The reader never finds a jump outside. -/
def Quiet (r : Read α) : Prop := ∀ c f, r c = .error f → ∀ all, f.Accounted all

theorem setting_quiet (g : Grammar) : Setting Eq (fun f _ => ∀ all, f.Accounted all) g g where
  tokens := { kind := fun _ _ h => by rw [h], name := fun _ _ h _ => by rw [h] }
  operators := rfl
  castPrecedence := rfl
  reserved := rfl
  typeNames := rfl
  stuck _ _ all := Stuck.accounted all _
  bounded _ := trivial

theorem quiet_of_together {A : α → α → Prop} {r : Read α}
    (h : Together (Cursor.Like Eq) (fun f _ => ∀ all, f.Accounted all) A r r) : Quiet r := by
  intro c f hr
  have hc : c.Like Eq c :=
    ⟨rfl, List.forall₂_same.2 fun _ _ => rfl, List.forall₂_same.2 fun _ _ => rfl, rfl⟩
  have halike := h c c hc
  rw [hr] at halike
  cases halike with
  | error reasons => exact reasons

/-- If the reader returns, `post` holds of what it returns, and if it fails since a jump is
outside, it does so where that is the case. -/
def Guarded (all : List Token) (r : Read α) (c : Cursor) (post : α → Cursor → Prop) : Prop :=
  match r c with
  | .ok (a, c') => post a c'
  | .error f => f.Accounted all

variable {post : β → Cursor → Prop}

theorem Guarded.mono {r : Read α} {post post' : α → Cursor → Prop} (h : Guarded all r c post)
    (hp : ∀ a c', post a c' → post' a c') : Guarded all r c post' := by
  unfold Guarded at *
  cases hr : r c with
  | ok p => rw [hr] at h; exact hp _ _ h
  | error f => rw [hr] at h; exact h

theorem Guarded.bind {r : Read α} {f : α → Read β} {mid : α → Cursor → Prop}
    (h : Guarded all r c mid) (hf : ∀ a c', mid a c' → Guarded all (f a) c' post) :
    Guarded all (r >>= f) c post := by
  unfold Guarded at h ⊢
  rw [bind_apply]
  cases hr : r c with
  | ok p => rw [hr] at h; exact hf p.1 p.2 h
  | error f' => rw [hr] at h; exact h

/-- What the reader ensures it returns besides. -/
theorem Guarded.and {r : Read α} {post post' : α → Cursor → Prop} (h : Guarded all r c post)
    (h' : Ensures r c post') : Guarded all r c fun a c' => post a c' ∧ post' a c' := by
  unfold Guarded Ensures at *
  cases hr : r c with
  | ok p => rw [hr] at h h'; exact ⟨h, h'⟩
  | error f => rw [hr] at h; exact h

theorem Quiet.guarded {r : Read α} {post : α → Cursor → Prop} (hq : Quiet r)
    (h : Ensures r c post) : Guarded all r c post := by
  unfold Guarded Ensures at *
  cases hr : r c with
  | ok p => rw [hr] at h; exact h
  | error f => exact hq c f hr all

theorem guarded_pure {a : α} {post : α → Cursor → Prop} (h : post a c) :
    Guarded all (pure a) c post := h

theorem guarded_isAt {k : TokenKind} {f : Bool → Read β}
    (h : Guarded all (f (decide (c.current.kind = k))) c post) :
    Guarded all (isAt k >>= f) c post := h

theorem guarded_leaf {f : Tree → Read β} (h : Guarded all (f (.token c.current)) c.next post) :
    Guarded all (leaf >>= f) c post := h

theorem guarded_take {f : Token → Read β} (h : Guarded all (f c.current) c.next post) :
    Guarded all (take >>= f) c post := h

theorem guarded_kind {f : TokenKind → Read β} (h : Guarded all (f c.current.kind) c post) :
    Guarded all (kind >>= f) c post := h

theorem guarded_startLeaf {f : Tree → Read β}
    (h : Guarded all (f (.token c.current)) c.startStatement.next post) :
    Guarded all (startStatement >>= fun _ => leaf >>= f) c post := h

theorem guarded_ifAt {k : TokenKind} {x y : Read β}
    (hx : c.current.kind = k → Guarded all x c post)
    (hy : c.current.kind ≠ k → Guarded all y c post) :
    Guarded all (isAt k >>= fun b => if b = true then x else y) c post := by
  refine guarded_isAt ?_
  by_cases hk : c.current.kind = k
  · simpa only [hk, decide_true, if_true] using hx hk
  · simpa only [hk, decide_false, Bool.false_eq_true, if_false] using hy hk

theorem guarded_unexpected_bind {ks : List TokenKind} {f : α → Read β} :
    Guarded all (unexpected g ks >>= f) c post :=
  Stuck.accounted all _

theorem guarded_unlessAt {k : TokenKind} {ks : List TokenKind} {f : Unit → Read β}
    (h : c.current.kind = k → Guarded all (f ()) c post) :
    Guarded all (isAt k >>= fun b => if (!b) = true then unexpected g ks >>= f else f ()) c
      post := by
  refine guarded_isAt ?_
  by_cases hk : c.current.kind = k
  · simpa only [hk, decide_true, Bool.not_true, Bool.false_eq_true, if_false] using h hk
  · simpa only [hk, decide_false, Bool.not_false, if_true] using guarded_unexpected_bind

theorem guarded_expect {k : TokenKind} {f : Tree → Read β}
    (h : c.current.kind = k → Guarded all (f (.token c.current)) c.next post) :
    Guarded all (expect g k >>= f) c post := by
  have hk : Ensures (expect g k) c fun t c' =>
      c.current.kind = k ∧ t = .token c.current ∧ c' = c.next := by
    rw [← bind_pure (expect g k)]
    exact ensures_expect fun hk => ensures_pure ⟨hk, rfl, rfl⟩
  refine ((quiet_of_together (alike_expect (setting_quiet g) k)).guarded hk).bind ?_
  rintro _ _ ⟨hk, rfl, rfl⟩
  exact h hk

theorem guarded_expectName {f : Tree → Read β}
    (h : c.current.kind = .name → Guarded all (f (.token c.current)) c.next post) :
    Guarded all (expectName g >>= f) c post := by
  have hn : Ensures (expectName g) c fun t c' =>
      c.current.kind = .name ∧ t = .token c.current ∧ c' = c.next := by
    rw [← bind_pure (expectName g)]
    exact ensures_expectName fun hn => ensures_pure ⟨hn.name_kind, rfl, rfl⟩
  refine ((quiet_of_together (alike_expectName (setting_quiet g))).guarded hn).bind ?_
  rintro _ _ ⟨hk, rfl, rfl⟩
  exact h hk

/-- A part of a line has no jump in it. -/
theorem Reads.guarded (hg : g.KeepsLayout) {p : Phrase} {limit : Nat} {trees : α → List Tree}
    {r : Read α} (h : Reads g p limit trees r) (hq : Quiet r) (hp : p.isFlat = true)
    (hl : c.Layered all l) (hf : l.fresh = false) (hleft : c.left < limit) :
    Guarded all r c fun a c' =>
      (∀ e : Enclosing, ∀ t ∈ trees a, t.Placed e) ∧ c'.left ≤ c.left ∧ c'.Layered all l := by
  refine (hq.guarded (h c hl.ended hleft)).mono fun a c' ⟨ts, ht, hd⟩ => ?_
  refine ⟨hd.placed hp, ht.left_le, ?_⟩
  have := hl.takes ht
  rwa [Layers.after_flat (hd.flat hg hp) hf] at this

/-! ## Statements -/

/-- With `e` around a statement, and the blocks around it as the layout says, every jump in it sits
in what it jumps out of. -/
def Guards (all : List Token) (e : Enclosing) (limit : Nat) (stmt : Read Tree) : Prop :=
  ∀ c l, c.Layered all l → l.fresh = true → e = .ofHeaders l.opened → c.left < limit →
    Guarded all stmt c fun t _ => t.Placed e

section Blocks

variable {stmt : Read Tree} {n : Bound} {m : Nat}

theorem statements_guarded (hg : g.KeepsLayout) : ∀ {n m : Nat}, m ≤ n →
    Reads g .statement m single stmt → Guards all e m stmt →
    ∀ {c l}, c.Layered all l → l.fresh = true → e = .ofHeaders l.opened → c.left < m →
      Guarded all (statements stmt n) c fun ts _ => ∀ t ∈ ts, t.Placed e
  | 0, m, hm, _, _, _, _, _, _, _, hleft => by omega
  | n + 1, m, hm, hs, hstmt, c, l, hl, hf, he, hleft => by
    unfold statements
    refine guarded_isAt (guarded_isAt ?_)
    split
    · exact guarded_pure (by simp)
    · refine ((hstmt c l hl hf he hleft).and (hs c hl.ended hleft)).bind fun t c₁ h => ?_
      obtain ⟨hplaced, ts, hts, hd⟩ := h
      have hlt := hts.left_lt hd.statement_ne_nil
      refine (statements_guarded hg (by omega) (hs.mono (by omega)) (fun c l hl hf he hleft =>
        hstmt c l hl hf he (by omega)) (m := m - 1) (hl.takes hts) (hd.fresh rfl _ (.inl rfl))
        (by rw [hd.opened hg, he]) (by omega)).bind fun rest c' hrest => ?_
      exact guarded_pure (by simpa [hplaced] using hrest)

theorem guarded_within {r : Read Tree} {post : Tree → Prop}
    (h : Guarded all r c fun t _ => post t) : Guarded all (within r) c fun t _ => post t := by
  unfold Guarded at *
  rw [within_apply]
  cases hr : r c with
  | ok p => rw [hr] at h; exact h
  | error f => rw [hr] at h; exact h

theorem indented_guarded (hg : g.KeepsLayout) (hm : m ≤ n) (hs : Reads g .statement m single stmt)
    (hstmt : Guards all e m stmt) (hl : c.Layered all l) (he : e = .ofHeaders (l.header :: l.opened))
    (hleft : c.left < m + 1) : Guarded all (indented g stmt n) c fun t _ => t.Placed e := by
  unfold indented
  refine guarded_within (guarded_expect fun hk => ?_)
  have ht := hl.ended.takes_next (by simp [hk])
  have hlt := ht.left_lt (by simp)
  refine (statements_guarded hg hm hs hstmt (hl.takes ht) (by simp [Layers.step_indent hk])
    (by simpa [Layers.step_indent hk] using he) (by omega)).bind fun body c' hbody => ?_
  exact guarded_expect fun _ => guarded_pure (Tree.placed_node.2 ⟨rfl, hbody⟩)

/-- A block stands in what its header says, and behind it is what was in front of it. -/
theorem block_guarded (hg : g.KeepsLayout) (hm : m ≤ n) (hs : Reads g .statement m single stmt)
    (hstmt : Guards all e m stmt) (hl : c.Layered all l) (he : e = .ofHeaders (l.header :: l.opened))
    (hleft : c.left < m + 1) : Guarded all (block g stmt n) c fun t c' =>
      t.Placed e ∧ c'.left ≤ c.left ∧ ∃ l', c'.Layered all l' ∧ l'.fresh = true ∧
        l'.opened = l.opened := by
  have hbody : Guarded all (block g stmt n) c fun t _ => t.Placed e := by
    unfold block
    refine guarded_expect fun hk => ?_
    have ht := hl.ended.takes_next (by simp [hk])
    have hlt := ht.left_lt (by simp)
    exact indented_guarded hg hm hs hstmt (hl.takes ht) (by simpa [Layers.step_newline hk] using he)
      (by omega)
  refine (hbody.and (block_reads hm hs c hl.ended hleft)).mono
    fun t c' ⟨hplaced, ts, hts, hd⟩ => ⟨hplaced, hts.left_le, _, hl.takes hts, ?_, ?_⟩
  · exact hd.fresh rfl _ (.inl rfl)
  · exact hd.opened hg l

theorem condition_guarded (hg : g.KeepsLayout) (hl : c.Layered all l) (hf : l.fresh = false)
    (hleft : c.left < n) : Guarded all (condition g n) c fun t c' =>
      (∀ e : Enclosing, t.Placed e) ∧ c'.left ≤ c.left ∧ c'.Layered all l := by
  refine ((condition_reads hg).guarded hg (quiet_of_together (condition_alike (setting_quiet g) n))
    rfl hl hf hleft).mono fun t c' ⟨ht, h⟩ => ⟨fun e => by simpa using ht e, h⟩

theorem output_guarded (hg : g.KeepsLayout) (hl : c.Layered all l) (hf : l.fresh = false)
    (hleft : c.left < n) : Guarded all (output g n) c fun t c' =>
      (∀ e : Enclosing, t.Placed e) ∧ c'.left ≤ c.left ∧ c'.Layered all l := by
  refine ((output_reads (Nat.le_refl n)).guarded hg
    (quiet_of_together (output_alike (setting_quiet g) n)) rfl hl hf hleft).mono
    fun t c' ⟨ht, h⟩ => ⟨fun e => by simpa using ht e, h⟩

theorem branches_guarded (hg : g.KeepsLayout) (hm : m < n) (hs : Reads g .statement m single stmt)
    (hstmt : Guards all e m stmt) : ∀ {k : Nat} {c : Cursor} {l : Layers}, c.Layered all l →
    l.fresh = true → e = .ofHeaders l.opened → c.left < k → c.left < m + 1 →
      Guarded all (branches g stmt n k) c fun ts _ => ∀ t ∈ ts, t.Placed e
  | 0, c, l, _, _, _, hleft, _ => by omega
  | k + 1, c, l, hl, hf, he, hleft, hleft' => by
    unfold branches
    refine guarded_ifAt (fun helse => guarded_startLeaf ?_) fun _ => guarded_pure (by simp)
    have ht := hl.ended.takes_startNext (by simp [helse])
    have hlt := ht.left_lt (by simp)
    have hl₁ := hl.takes ht
    rw [Layers.after_cons, Layers.after_nil, Layers.step_first (by simp [helse]) hf] at hl₁
    refine guarded_ifAt (fun hif => guarded_leaf ?_) fun _ => ?_
    · have ht' := ht.ended.takes_next (by simp [hif])
      have hlt' := ht'.left_lt (by simp)
      refine (condition_guarded hg (hl₁.later rfl (by simp [hif])) rfl (by omega)).bind
        fun v c₁ h => ?_
      obtain ⟨hv, hle, hl₂⟩ := h
      refine (block_guarded hg (by omega) hs hstmt hl₂ (by simp [he, helse]; rfl) (by omega)).bind
        fun body c₂ h' => ?_
      obtain ⟨hbody, hle', l', hl', hf', ho'⟩ := h'
      refine (branches_guarded hg hm hs hstmt (k := k) hl' hf' (by simp [he, ho']) (by omega)
        (by omega)).bind fun rest c' hrest => guarded_pure ?_
      refine List.forall_mem_cons.2 ⟨Tree.placed_of (i := e) rfl rfl ?_, hrest⟩
      simp [Tree.placed_token, hv e, hbody]
    · refine (block_guarded hg (by omega) hs hstmt hl₁ (by simp [he, helse]; rfl) (by omega)).bind
        fun body c' hbody => guarded_pure ?_
      refine List.forall_mem_singleton.2 (Tree.placed_of (i := e) rfl rfl ?_)
      simp [Tree.placed_token, hbody.1]

/-- The word that a statement starts with becomes the header of its line. -/
theorem guarded_header (hl : c.Layered all l) (hf : l.fresh = true) {k : TokenKind}
    (hk : c.current.kind = k) (hlayout : k.isLayout = false) :
    c.next.Layered all ⟨l.opened, k, false⟩ ∧ c.next.left < c.left := by
  refine ⟨by simpa [hk] using hl.first hf (by rwa [hk]), ?_⟩
  refine (hl.ended.takes_next ?_).left_lt (by simp)
  rintro he
  simp [← hk, he] at hlayout

theorem guarded_startHeader (hl : c.Layered all l) (hf : l.fresh = true) {k : TokenKind}
    (hk : c.current.kind = k) (hlayout : k.isLayout = false) :
    c.startStatement.next.Layered all ⟨l.opened, k, false⟩ ∧ c.startStatement.next.left < c.left :=
  guarded_header (c := c.startStatement) ⟨hl.ended, hl.behind⟩ hf hk hlayout

theorem ifBlock_guarded (hg : g.KeepsLayout) (hm : m < n) (hs : Reads g .statement m single stmt)
    (hstmt : Guards all e m stmt) (hl : c.Layered all l) (hf : l.fresh = true)
    (he : e = .ofHeaders l.opened) (hleft : c.left ≤ m)
    (hk : c.current.kind = .keyword .ifWord) :
    Guarded all (ifBlock g stmt n) c fun t _ => t.Placed e := by
  obtain ⟨hl₁, hlt⟩ := guarded_header hl hf hk rfl
  unfold ifBlock
  refine guarded_leaf ((condition_guarded hg hl₁ rfl (by omega)).bind fun v c₁ ⟨hv, hle, hl₂⟩ => ?_)
  refine (block_guarded hg (by omega) hs hstmt hl₂ he (by omega)).bind
    fun body c₂ ⟨hbody, hle', l', hl', hf', ho'⟩ => ?_
  refine (branches_guarded hg hm hs hstmt hl' hf' (by simp [he, ho']) (by omega)
    (by omega)).bind fun rest c' hrest => guarded_pure (Tree.placed_of (i := e) rfl rfl ?_)
  simpa [Tree.placed_token, hv e, hbody] using hrest

theorem foreachBlock_guarded (hg : g.KeepsLayout) (hm : m < n)
    (hs : Reads g .statement m single stmt) (hstmt : Guards all e.loop m stmt)
    (hl : c.Layered all l) (hf : l.fresh = true) (he : e = .ofHeaders l.opened) (hleft : c.left ≤ m)
    (hk : c.current.kind = .keyword .foreachWord) :
    Guarded all (foreachBlock g stmt n) c fun t _ => t.Placed e := by
  obtain ⟨hl₁, hlt⟩ := guarded_header hl hf hk rfl
  unfold foreachBlock
  dsimp only
  refine guarded_leaf ((condition_guarded hg hl₁ rfl (by omega)).bind fun v c₁ ⟨hv, hle, hl₂⟩ => ?_)
  refine guarded_unlessAt fun _ => ?_
  refine (output_guarded hg hl₂ rfl (by omega)).bind fun names c₂ ⟨hnames, hle', hl₃⟩ => ?_
  refine (block_guarded hg (by omega) hs hstmt hl₃ (by rw [he]; rfl) (by omega)).bind
    fun body c' ⟨hbody, _⟩ => guarded_pure (Tree.placed_of (i := e.loop) rfl rfl ?_)
  simp [Tree.placed_token, hv e.loop, hnames e.loop, hbody]

theorem whileBlock_guarded (hg : g.KeepsLayout) (hm : m < n)
    (hs : Reads g .statement m single stmt) (hstmt : Guards all e.loop m stmt)
    (hl : c.Layered all l) (hf : l.fresh = true) (he : e = .ofHeaders l.opened) (hleft : c.left ≤ m)
    (hk : c.current.kind = .keyword .whileWord) :
    Guarded all (whileBlock g stmt n) c fun t _ => t.Placed e := by
  obtain ⟨hl₁, hlt⟩ := guarded_header hl hf hk rfl
  unfold whileBlock
  refine guarded_leaf ((condition_guarded hg hl₁ rfl (by omega)).bind fun v c₁ ⟨hv, hle, hl₂⟩ => ?_)
  refine (block_guarded hg (by omega) hs hstmt hl₂ (by rw [he]; rfl) (by omega)).bind
    fun body c' ⟨hbody, _⟩ => guarded_pure (Tree.placed_of (i := e.loop) rfl rfl ?_)
  simp [Tree.placed_token, hv e.loop, hbody]

/-- A branch of a `try`, which stands in what is around the `try`. -/
theorem catchBlock_guarded (hg : g.KeepsLayout) (hm : m < n)
    (hs : Reads g .statement m single stmt) (hstmt : Guards all e m stmt)
    (hl : c.Layered all l) (hf : l.fresh = true) (he : e = .ofHeaders l.opened) (hleft : c.left ≤ m)
    (hk : c.current.kind = .keyword .catchWord) :
    Guarded all (catchBlock g stmt n) c fun t c' => t.Placed e ∧ c'.left ≤ c.left ∧
      ∃ l', c'.Layered all l' ∧ l'.fresh = true ∧ l'.opened = l.opened := by
  obtain ⟨hl₁, hlt⟩ := guarded_startHeader hl hf hk rfl
  unfold catchBlock
  refine guarded_startLeaf (guarded_ifAt (fun _ => ?_) fun _ => ?_)
  · refine (output_guarded hg hl₁ rfl (by omega)).bind fun name c₁ ⟨hname, hle, hl₂⟩ => ?_
    refine (block_guarded hg (by omega) hs hstmt hl₂ he (by omega)).bind
      fun body c' ⟨hbody, hle', h'⟩ => guarded_pure ⟨Tree.placed_of (i := e) rfl rfl ?_, by omega, h'⟩
    simp [Tree.placed_token, hname e, hbody]
  · refine (block_guarded hg (by omega) hs hstmt hl₁ he (by omega)).bind
      fun body c' ⟨hbody, hle', h'⟩ => guarded_pure ⟨Tree.placed_of (i := e) rfl rfl ?_, by omega, h'⟩
    simp [Tree.placed_token, hbody]

theorem finallyBlock_guarded (hg : g.KeepsLayout) (hm : m < n)
    (hs : Reads g .statement m single stmt) (hstmt : Guards all e m stmt)
    (hl : c.Layered all l) (hf : l.fresh = true) (he : e = .ofHeaders l.opened) (hleft : c.left ≤ m)
    (hk : c.current.kind = .keyword .finallyWord) :
    Guarded all (finallyBlock g stmt n) c fun t _ => t.Placed e := by
  obtain ⟨hl₁, hlt⟩ := guarded_startHeader hl hf hk rfl
  unfold finallyBlock
  refine guarded_startLeaf ((block_guarded hg (by omega) hs hstmt hl₁ he (by omega)).bind
    fun body c' ⟨hbody, _⟩ => guarded_pure (Tree.placed_of (i := e) rfl rfl ?_))
  simp [Tree.placed_token, hbody]

theorem tryBlock_guarded (hg : g.KeepsLayout) (hm : m < n)
    (hs : Reads g .statement m single stmt) (hstmt : Guards all e m stmt)
    (hl : c.Layered all l) (hf : l.fresh = true) (he : e = .ofHeaders l.opened) (hleft : c.left ≤ m)
    (hk : c.current.kind = .keyword .tryWord) :
    Guarded all (tryBlock g stmt n) c fun t _ => t.Placed e := by
  obtain ⟨hl₁, hlt⟩ := guarded_header hl hf hk rfl
  unfold tryBlock
  simp only [pure_bind]
  refine guarded_leaf ((block_guarded hg (by omega) hs hstmt hl₁ he (by omega)).bind
    fun body c₁ ⟨hbody, hle, l₂, hl₂, hf₂, ho₂⟩ => ?_)
  have he₂ : e = .ofHeaders l₂.opened := by rw [he, ho₂]
  -- The `finally` stands alike whether there is a `catch` or not.
  have rest : ∀ {c₂ l₃ caught}, c₂.Layered all l₃ → l₃.fresh = true → e = .ofHeaders l₃.opened →
      c₂.left ≤ m → (∀ t ∈ caught, t.Placed e) → Guarded all (do
        if ← isAt (.keyword .finallyWord) then
          let after ← finallyBlock g stmt n
          pure (Tree.of .tryBlock (.token c.current :: body :: caught ++ [after]))
        else pure (Tree.of .tryBlock (.token c.current :: body :: caught ++ []))) c₂ fun t _ =>
          t.Placed e := by
    intro c₂ l₃ caught hl₃ hf₃ he₃ hleft₃ hcaught
    refine guarded_ifAt (fun hk' => ?_) fun _ => guarded_pure (Tree.placed_of (i := e) rfl rfl ?_)
    · refine (finallyBlock_guarded hg hm hs hstmt hl₃ hf₃ he₃ hleft₃ hk').bind
        fun after c' hafter => guarded_pure (Tree.placed_of (i := e) rfl rfl ?_)
      simpa [Tree.placed_token, hbody, or_imp, forall_and, hafter] using hcaught
    · simpa [Tree.placed_token, hbody] using hcaught
  refine guarded_ifAt (fun hk' => ?_) fun _ => rest hl₂ hf₂ he₂ (by omega) (by simp)
  refine (catchBlock_guarded hg hm hs hstmt hl₂ hf₂ he₂ (by omega) hk').bind
    fun caught c₂ ⟨hcaught, hle', l₃, hl₃, hf₃, ho₃⟩ => ?_
  exact rest hl₃ hf₃ (by rw [he₂, ho₃]) (by omega) (by simpa using hcaught)

theorem functionBlock_guarded (hg : g.KeepsLayout) (hm : m < n)
    (hs : Reads g .statement m single stmt) (hstmt : Guards all .function m stmt)
    (hl : c.Layered all l) (hf : l.fresh = true) (hleft : c.left ≤ m)
    (hk : c.current.kind = .keyword .functionWord) :
    Guarded all (functionBlock g stmt n) c fun t _ => t.Placed e := by
  obtain ⟨hl₁, hlt⟩ := guarded_header hl hf hk rfl
  unfold functionBlock
  refine guarded_leaf (guarded_expectName fun hn => ?_)
  have hlt' := (hl₁.ended.takes_next (by simp [hn])).left_lt (by simp)
  refine ((parameters_reads (Nat.le_refl n) (Nat.le_refl n)).guarded hg
    (quiet_of_together (parameters_alike (setting_quiet g) n n)) rfl (hl₁.later rfl (by simp [hn]))
    rfl (by omega)).bind fun given c₁ ⟨hgiven, hle, hl₂⟩ => ?_
  refine (returnType_reads.guarded hg (quiet_of_together (returnType_alike (setting_quiet g) n)) rfl
    hl₂ rfl (by omega)).bind fun type c₂ ⟨htype, hle', hl₃⟩ => ?_
  refine (block_guarded hg (by omega) hs hstmt hl₃ rfl (by omega)).bind
    fun body c' ⟨hbody, _⟩ => guarded_pure (Tree.placed_of (i := .function) rfl rfl ?_)
  have hgiven := hgiven .function
  have htype := htype .function
  simp_all [Tree.placed_token, or_imp]

theorem whenBlock_guarded (hg : g.KeepsLayout) (hm : m < n)
    (hs : Reads g .statement m single stmt) (hstmt : Guards all e m stmt)
    (hl : c.Layered all l) (hf : l.fresh = true) (he : e = .ofHeaders l.opened) (hleft : c.left ≤ m)
    (hk : c.current.kind = .keyword .whenWord) :
    Guarded all (whenBlock g stmt n) c fun t _ => t.Placed e := by
  have hv := expression_reads hg n
  have hqv := expression_alike (setting_quiet g) n
  obtain ⟨hl₁, hlt⟩ := guarded_header hl hf hk rfl
  unfold whenBlock
  refine guarded_leaf (((path_reads (Nat.le_refl n) hv).guarded hg
    (quiet_of_together (path_alike (setting_quiet g) hqv n)) rfl hl₁ rfl (by omega)).bind
    fun target c₁ ⟨htarget, hle, hl₂⟩ => guarded_expectName fun hn => ?_)
  have hlt' := (hl₂.ended.takes_next (by simp [hn])).left_lt (by simp)
  unfold arguments
  rw [bind_assoc]
  refine ((argumentList_reads (Nat.le_refl n) hv).guarded hg
    (quiet_of_together (argumentList_alike (setting_quiet g) hqv n)) rfl
    (hl₂.later rfl (by simp [hn])) rfl (by omega)).bind fun given c₂ ⟨hgiven, hle', hl₃⟩ => ?_
  have hnode : (Tree.of .arguments given).Placed e := Tree.placed_of (i := e) rfl rfl (hgiven e)
  refine guarded_ifAt (fun _ => ?_) fun _ => ?_
  · refine (output_guarded hg hl₃ rfl (by omega)).bind fun names c₃ ⟨hnames, hle'', hl₄⟩ => ?_
    refine (block_guarded hg (by omega) hs hstmt hl₄ he (by omega)).bind
      fun body c' ⟨hbody, _⟩ => guarded_pure (Tree.placed_of (i := e) rfl rfl ?_)
    simp [Tree.placed_token, htarget e, hnode, hnames e, hbody]
  · refine (block_guarded hg (by omega) hs hstmt hl₃ he (by omega)).bind
      fun body c' ⟨hbody, _⟩ => guarded_pure (Tree.placed_of (i := e) rfl rfl ?_)
    simp [Tree.placed_token, htarget e, hnode, hbody]

/-- The line starts with the token that is next. -/
theorem OneLine.layers (hg : g.KeepsLayout) {c' : Cursor} {ts : List Token} {t : Tree}
    (h : OneLine g ts t) (ht : c.Takes ts c') (hf : l.fresh = true) :
    l.after ts = { l with header := c.current.kind, fresh := false } := by
  have hflat := h.flat hg
  have hne : ts ≠ [] := by
    cases h with
    | call value _ | valueAlone value _ => exact value.anyValue_ne_nil
    | assignment => simp
  obtain ⟨u, us, rfl⟩ := List.exists_cons_of_ne_nil hne
  obtain rfl : c.current = u := by
    have := ht.upcoming
    simp only [Cursor.upcoming, List.cons_append, List.cons.injEq] at this
    exact this.1
  rw [Layers.after_cons, Layers.step_first (hflat _ (by simp)) hf]
  exact Layers.after_flat (fun v hv => hflat v (by simp [hv])) rfl

theorem OneLine.placed {ts : List Token} {t : Tree} (h : OneLine g ts t) (e : Enclosing) :
    t.Placed e := by
  cases h with
  | call value _ => exact value.placed rfl e t (by simp)
  | valueAlone value _ => exact Tree.placed_of (i := e) rfl rfl (value.placed rfl e)
  | assignment path _ value =>
    have := path.placed rfl e
    have := value.placed rfl e
    exact Tree.placed_of (i := e) rfl rfl (by simp_all [Tree.placed_token])

theorem simpleStatement_guarded (hg : g.KeepsLayout) (hm : m < n)
    (hs : Reads g .statement m single stmt) (hstmt : Guards all e m stmt)
    (hl : c.Layered all l) (hf : l.fresh = true) (he : e = .ofHeaders (c.current.kind :: l.opened))
    (hleft : c.left < m + 1) :
    Guarded all (simpleStatement g stmt n) c fun t _ => t.Placed e := by
  unfold simpleStatement
  dsimp only
  refine ((quiet_of_together (simple_alike (setting_quiet g) n)).guarded
    (simple_ensures hg hl.ended (by omega))).bind fun t c₁ ⟨ts, hts, hline⟩ => ?_
  refine guarded_unlessAt fun hk => guarded_take (guarded_isAt ?_)
  split
  · rename_i hcall
    simp only [Bool.and_eq_true] at hcall
    have hl₁ := hl.takes (hts.next (by simp [hk]))
    rw [Layers.after_append, hline.layers hg hts hf, Layers.after_cons, Layers.after_nil,
      Layers.step_newline hk] at hl₁
    have hlt := (hts.next (by simp [hk])).left_lt (by simp)
    refine (indented_guarded hg (Nat.le_of_lt hm) hs hstmt hl₁ he (by omega)).bind
      fun body c' hbody => guarded_pure (Tree.placed_withPart ?_ (hline.placed e) hbody)
    simpa using hcall.1
  · exact guarded_pure (hline.placed e)

/-- The jump is refused where the open blocks do not allow it. -/
theorem accounted_refused {code : Code} (hl : c.Layered all l)
    (h : Misplaced code c.current.kind l.opened) :
    Guarded all (refuse code : Read Tree) c fun t _ => t.Placed e := by
  obtain ⟨ts, hts, rfl⟩ := hl.behind
  exact fun _ => ⟨ts, c.ahead, hts, h⟩

theorem inFunction_ofHeaders (headers : List TokenKind) :
    (Enclosing.ofHeaders headers).inFunction = true ↔ .keyword .functionWord ∈ headers := by
  simp [Enclosing.ofHeaders, Enclosing.inFunction_around]

theorem inLoop_ofHeaders (headers : List TokenKind) :
    (Enclosing.ofHeaders headers).inLoop = true ↔
      ∃ header ∈ headers.takeWhile (· ≠ .keyword .functionWord),
        header = .keyword .foreachWord ∨ header = .keyword .whileWord := by
  simp [Enclosing.ofHeaders, Enclosing.inLoop_around]

theorem jumpWithValue_guarded (hg : g.KeepsLayout) {rule : Rule} (hl : c.Layered all l)
    (hf : l.fresh = true) (hleft : c.left < n) (hk : c.current.kind.isLayout = false)
    (hr : e.allows rule = true) (hi : e.aroundNode [rule] = e) :
    Guarded all (jumpWithValue g rule n) c fun t _ => t.Placed e := by
  obtain ⟨hl₁, hlt⟩ := guarded_header hl hf rfl hk
  unfold jumpWithValue
  simp only [pure_bind]
  refine guarded_leaf (guarded_ifAt (fun _ => ?_) fun _ => ?_)
  · refine guarded_expect fun _ => guarded_pure (Tree.placed_of hi hr ?_)
    simp [Tree.placed_token]
  · refine ((anyValue_reads hg n).guarded hg
      (quiet_of_together (anyValue_alike (setting_quiet g) n)) rfl hl₁ rfl (by omega)).bind
      fun v c' ⟨hv, _⟩ => guarded_expect fun _ => guarded_pure (Tree.placed_of hi hr ?_)
    have := hv e
    simp_all [Tree.placed_token]

theorem returnStatement_guarded (hg : g.KeepsLayout) (hl : c.Layered all l)
    (hf : l.fresh = true) (he : e = .ofHeaders l.opened) (hleft : c.left < n)
    (hk : c.current.kind = .keyword .returnWord) :
    Guarded all (returnStatement g e n) c fun t _ => t.Placed e := by
  rw [returnStatement, isInFunction_eq, pure_bind]
  split
  · rename_i hin
    exact jumpWithValue_guarded hg hl hf hleft (by simp [hk]) hin rfl
  · rename_i hout
    refine accounted_refused hl ⟨hk, fun hmem => hout ?_⟩
    rwa [he, inFunction_ofHeaders]

theorem loopJump_guarded {rule : Rule} {outside : Code} (hl : c.Layered all l)
    (he : e = .ofHeaders l.opened) (hr : e.inLoop = true → e.allows rule = true)
    (hi : e.aroundNode [rule] = e) (ho : (∀ header ∈ l.opened.takeWhile (· ≠ .keyword .functionWord),
      header ≠ .keyword .foreachWord ∧ header ≠ .keyword .whileWord) →
      Misplaced outside c.current.kind l.opened) :
    Guarded all (loopJump g e rule outside) c fun t _ => t.Placed e := by
  rw [loopJump, isInLoop_eq, pure_bind]
  split
  · rename_i hin
    refine guarded_leaf (guarded_expect fun _ => guarded_pure (Tree.placed_of hi (hr hin) ?_))
    simp [Tree.placed_token]
  · rename_i hout
    rw [he, inLoop_ofHeaders] at hout
    exact accounted_refused hl (ho (by simpa [not_or] using hout))

theorem importStatement_guarded :
    Guarded all (importStatement g) c fun t _ => t.Placed e := by
  unfold importStatement
  dsimp only
  refine guarded_leaf (guarded_unlessAt fun _ => guarded_leaf (guarded_expect fun _ => ?_))
  refine guarded_expectName fun _ => guarded_expect fun _ =>
    guarded_pure (Tree.placed_of (i := e) rfl rfl ?_)
  have hfile {u : Token} : (Tree.of .string [.token u]).Placed e :=
    Tree.placed_of (i := e) rfl rfl (by simp [Tree.placed_token])
  simp [Tree.placed_token, hfile]

end Blocks

theorem statementBody_guarded (hg : g.KeepsLayout) {stmt : Enclosing → Read Tree} {n : Bound}
    {m : Nat} (hm : m < n) (hs : ∀ e, Reads g .statement m single (stmt e))
    (hstmt : ∀ e, Guards all e m (stmt e)) : Guards all e (m + 1) (statementBody g stmt n e) := by
  intro c l hl hf he hleft
  unfold statementBody
  refine guarded_kind ?_
  split <;> rename_i hk
  · exact ifBlock_guarded hg hm (hs e) (hstmt e) hl hf he (by omega) hk
  · exact foreachBlock_guarded hg hm (hs e.loop) (hstmt e.loop) hl hf he (by omega) hk
  · exact whileBlock_guarded hg hm (hs e.loop) (hstmt e.loop) hl hf he (by omega) hk
  · exact tryBlock_guarded hg hm (hs e) (hstmt e) hl hf he (by omega) hk
  · exact functionBlock_guarded hg hm (hs .function) (hstmt .function) hl hf (by omega) hk
  · exact whenBlock_guarded hg hm (hs e) (hstmt e) hl hf he (by omega) hk
  · exact returnStatement_guarded hg hl hf he (by omega) hk
  · exact loopJump_guarded hl he id rfl fun h => ⟨hk, h⟩
  · exact loopJump_guarded hl he id rfl fun h => ⟨hk, h⟩
  · exact jumpWithValue_guarded hg hl hf (by omega) (by simp [hk]) rfl rfl
  · exact importStatement_guarded
  · refine simpleStatement_guarded hg hm (hs e) (hstmt e) hl hf ?_ hleft
    simp_all [Enclosing.ofHeaders, Enclosing.around]

theorem statement_guarded (hg : g.KeepsLayout) :
    ∀ n e, Guards all e n (statement g (n + 1) e)
  | 0, _ => fun c _ _ _ _ hleft => by omega
  | n + 1, e => by
    intro c l hl hf he hleft
    unfold statement
    exact statementBody_guarded hg (Nat.lt_succ_self n) (statement_reads hg n)
      (statement_guarded hg n) c.startStatement l ⟨hl.ended, hl.behind⟩ hf he hleft

theorem storyStatements_guarded (hg : g.KeepsLayout) {stmt : Read Tree} : ∀ {n m : Nat}, m ≤ n →
    Reads g .statement m single stmt → Guards all e m stmt →
    ∀ {c l}, c.Layered all l → l.fresh = true → e = .ofHeaders l.opened → c.left < m →
      Guarded all (storyStatements stmt n) c fun ts _ => ∀ t ∈ ts, t.Placed e
  | 0, m, hm, _, _, _, _, _, _, _, hleft => by omega
  | n + 1, m, hm, hs, hstmt, c, l, hl, hf, he, hleft => by
    unfold storyStatements
    refine guarded_ifAt (fun _ => guarded_pure (by simp)) fun _ => ?_
    refine ((hstmt c l hl hf he hleft).and (hs c hl.ended hleft)).bind fun t c₁ h => ?_
    obtain ⟨hplaced, ts, hts, hd⟩ := h
    have hlt := hts.left_lt hd.statement_ne_nil
    refine (storyStatements_guarded hg (by omega) (hs.mono (by omega))
      (fun c l hl hf he hleft => hstmt c l hl hf he (by omega)) (m := m - 1) (hl.takes hts)
      (hd.fresh rfl _ (.inl rfl)) (by rw [hd.opened hg, he]) (by omega)).bind
      fun rest c' hrest => ?_
    exact guarded_pure (by simpa [hplaced] using hrest)

theorem story_guarded (hg : g.KeepsLayout) {tokens : List Token}
    (hl : (Cursor.start all).left ≤ tokens.length) :
    Guarded (Cursor.completed all) (story g (bound tokens)) (Cursor.start all) fun t _ =>
      t.Placed .story := by
  unfold story
  have hs := statement_reads hg (2 * tokens.length + 3) .story
  refine (storyStatements_guarded (e := .story) hg (n := bound tokens) (by simp [bound]) hs
    (statement_guarded hg _ _) (l := .start)
    ⟨Cursor.ended_start all, [], by rw [Cursor.upcoming_start]; rfl, rfl⟩ rfl rfl (by omega)).bind
    fun trees c' htrees => guarded_pure (Tree.placed_of (i := .story) rfl rfl htrees)

end Read

namespace Tree

open Cursor (completed numbered)

variable {g : Grammar} {tokens : List Token}

theorem ofTokens_placed (hg : g.KeepsLayout) {t : Tree} (h : ofTokens g tokens = .ok t) :
    t.Placed .story := by
  have hguarded := Read.story_guarded hg (Cursor.left_start tokens)
  unfold Read.Guarded at hguarded
  cases hr : Read.story g (Read.bound tokens) (Cursor.start tokens) with
  | ok p =>
    rw [hr] at hguarded
    obtain rfl : p.1 = t := by simpa [ofTokens, hr, Except.map] using h
    exact hguarded
  | error f => simp [ofTokens, hr, Except.map] at h

theorem ofNumbered_accounted (hg : g.KeepsLayout) {f : Fault}
    (h : ofNumbered g tokens = .error f) : f.Accounted (numbered (completed tokens)) := by
  have hleft := Cursor.left_start tokens
  rw [← Cursor.left_numbered] at hleft
  have hguarded := Read.story_guarded hg hleft
  rw [Cursor.completed_numbered] at hguarded
  unfold Read.Guarded at hguarded
  cases hr : Read.story g (Read.bound tokens) (Cursor.start (numbered (completed tokens))) with
  | ok p => simp [ofNumbered, hr, Except.map] at h
  | error f' =>
    rw [hr] at hguarded
    obtain rfl : f' = f := by simpa [ofNumbered, hr, Except.map] using h
    exact hguarded

/-- Every `return` in a tree that was read is in a function, and every `break` and `continue` in a
loop with no function between. Reading is stopped by one of them only at its word, and only if the
blocks that are open in front of it do not provide that. -/
theorem ofTokens_jumps (hg : g.Accepted) :
    (∀ t, ofTokens g tokens = .ok t → ∀ rules u, t.Under rules u →
      (u.isA .returnStatement = true → .functionBlock ∈ rules) ∧
      (u.isA .breakStatement = true ∨ u.isA .continueStatement = true →
        ∃ r ∈ rules.takeWhile (· ≠ .functionBlock), r = .foreachBlock ∨ r = .whileBlock)) ∧
    (∀ f, ofTokens g tokens = .error f → f.diagnostic.code.name ∈ ["E0004", "E0044", "E0050"] →
      ∃ s i, f = .inTokens s ∧ stopsAt? g tokens = some i ∧
        (completed tokens)[i]? = some s.token ∧
        Misplaced f.diagnostic.code s.token.kind (openBlocks ((completed tokens).take i))) := by
  have hkeeps := hg.keepsLayout
  refine ⟨fun t ht rules u hu => ?_, fun f hf ho => ?_⟩
  · have hplaced := ofTokens_placed hkeeps ht rules u
    constructor
    · intro hr
      have := hplaced .returnStatement hu (by simpa [isA] using hr)
      simpa [Enclosing.allows, Enclosing.aroundNode, Enclosing.inFunction_around] using this
    · intro hr
      have : (Enclosing.story.aroundNode rules).inLoop = true := by
        rcases hr with hr | hr
        · exact hplaced .breakStatement hu (by simpa [isA] using hr)
        · exact hplaced .continueStatement hu (by simpa [isA] using hr)
      simpa [Enclosing.aroundNode, Enclosing.inLoop_around, Rule.isLoop_iff] using this
  · replace ho := Code.isOutside_iff.2 ho
    rcases ofTokens_error_cases hf with ⟨s, rfl⟩ | rfl
    · obtain ⟨i, s', hs', hi, htoken, hnumber, -, hcode⟩ := stopsAt?_of_error hf
      have hcode := hcode ho
      obtain ⟨ts, us, hall, hmisplaced⟩ := ofNumbered_accounted hkeeps hs' (by rwa [hcode])
      refine ⟨s, i, rfl, hi, htoken, ?_⟩
      have hlength : ts.length = i := by
        have := Cursor.getElem?_numbered (completed tokens) ts.length
        rw [hall] at this
        obtain ⟨u, -, hu⟩ := Option.map_eq_some_iff.1 (by simpa using this.symm)
        have := congrArg Token.line hu
        simpa [hnumber] using this
      have hkinds : ts.map Token.kind = ((completed tokens).take i).map Token.kind := by
        have hts : ts = (numbered (completed tokens)).take i := by simp [hall, ← hlength]
        rw [hts, List.map_take, List.map_take, Cursor.kinds_numbered]
      rw [hcode, hnumber, openBlocks, Layers.after_kinds hkinds] at hmisplaced
      exact hmisplaced
    · cases ho

/-- In front of this `break` a loop is open, and in it a function. -/
theorem ofTokens_jumps_nested :
    Grammar.builtIn.Accepted ∧ ∃ tokens,
      (scan ⟨.builtIn, false⟩ "foreach items as i\n  function f\n    break\n".toList).tokens
        = .ok tokens ∧
      stopsAt? .builtIn tokens = some 10 ∧
      (∀ t, ofTokens .builtIn tokens = .ok t → ∀ rules u, t.Under rules u →
        (u.isA .returnStatement = true → .functionBlock ∈ rules) ∧
        (u.isA .breakStatement = true ∨ u.isA .continueStatement = true →
          ∃ r ∈ rules.takeWhile (· ≠ .functionBlock), r = .foreachBlock ∨ r = .whileBlock)) ∧
      (∀ f, ofTokens .builtIn tokens = .error f → f.diagnostic.code.name ∈ ["E0004", "E0044", "E0050"] →
        ∃ s i, f = .inTokens s ∧ stopsAt? .builtIn tokens = some i ∧
          (completed tokens)[i]? = some s.token ∧
          Misplaced f.diagnostic.code s.token.kind (openBlocks ((completed tokens).take i))) := by
  have hs : (scan ⟨.builtIn, false⟩
      "foreach items as i\n  function f\n    break\n".toList).tokens.toOption.bind
        (stopsAt? .builtIn) = some 10 := by
    decide +kernel
  obtain ⟨tokens, hts, hstops⟩ := Option.bind_eq_some_iff.1 hs
  rw [toOption_eq_some] at hts
  exact ⟨.builtIn, tokens, hts, hstops, ofTokens_jumps .builtIn⟩

end Tree

end StoryLang
