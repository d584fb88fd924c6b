/-
Trees that can stand for one another.

A pass over a tree replaces the parts of its nodes. If each part is replaced
by one that is alike, the node still has what its rule asks for: tokens stay,
a value is replaced by a value, and every other part by one of its own rule.
-/
import Mathlib.Data.List.Forall2
import StoryLang.Proofs.Tree.Form

namespace StoryLang

/-- Whether a node keeps its rule: neither calls nor strings have to. -/
def Rule.stays (r : Rule) : Bool := !r.isCall && r ≠ .string

/-- A part as it is after the stage, in place of one before it. -/
structure Alike (s : Stage) (t t' : Tree) : Prop where
  token : ∀ u, t = .token u → t' = .token u
  isA : ∀ {r : Rule}, r.stays = true → t.isA r = true → t'.isA r = true
  value : t.fits .plain = true → t'.fits .plain = true
  call : t.fits s = true ∨ t.isCall = true → t'.fits .plain = true ∨ t'.isCall = true

/-- The same for a part that is no longer a call. -/
structure Settled (s : Stage) (t t' : Tree) : Prop extends Alike s t t' where
  fits : t.fits s = true → t'.fits .plain = true

theorem forall₂_append_left {α β : Type} {R : α → β → Prop} {as bs : List α} {cs : List β}
    (h : List.Forall₂ R (as ++ bs) cs) :
    ∃ cs' cs'', cs = cs' ++ cs'' ∧ List.Forall₂ R as cs' ∧ List.Forall₂ R bs cs'' := by
  induction as generalizing cs with
  | nil => exact ⟨[], cs, rfl, .nil, h⟩
  | cons a as ih =>
    cases h with
    | cons ha h =>
      obtain ⟨cs', cs'', rfl, h', h''⟩ := ih h
      exact ⟨_ :: cs', cs'', rfl, .cons ha h', h''⟩

theorem forall₂_each {α β : Type} {R : α → β → Prop} {p : α → Prop} {q : β → Prop} {as : List α}
    {bs : List β} (h : List.Forall₂ R as bs) (hp : ∀ a ∈ as, p a)
    (hq : ∀ a b, R a b → p a → q b) : ∀ b ∈ bs, q b := by
  induction h with
  | nil => simp
  | cons hab _ ih =>
    simp only [List.forall_mem_cons] at hp ⊢
    exact ⟨hq _ _ hab hp.1, ih hp.2⟩

section Rows

variable {s : Stage} {ts ts' : List Tree}

theorem Settled.isA_each {r : Rule} (h : List.Forall₂ (Settled s) ts ts') (hr : r.stays = true)
    (ht : ∀ t ∈ ts, t.isA r = true) : ∀ t ∈ ts', t.isA r = true :=
  forall₂_each h ht fun _ _ h ht => h.isA hr ht

theorem Settled.fits_each (h : List.Forall₂ (Settled s) ts ts') (ht : ∀ t ∈ ts, t.fits s = true) :
    ∀ t ∈ ts', t.fits .plain = true :=
  forall₂_each h ht fun _ _ h ht => h.fits ht

theorem Settled.isA_or_each {r r' : Rule} (h : List.Forall₂ (Settled s) ts ts')
    (hr : r.stays = true) (hr' : r'.stays = true)
    (ht : ∀ t ∈ ts, t.isA r = true ∨ t.isA r' = true) :
    ∀ t ∈ ts', t.isA r = true ∨ t.isA r' = true :=
  forall₂_each h ht fun _ _ h ht => ht.imp (h.isA hr) (h.isA hr')

theorem Settled.extras (he : Extras ts) (h : List.Forall₂ (Settled s) ts ts') : Extras ts' := by
  cases he with
  | none => cases h; exact .none
  | output ho =>
    match h with
    | .cons h .nil => exact .output (h.isA rfl ho)
  | block hb =>
    match h with
    | .cons h .nil => exact .block (h.isA rfl hb)
  | both ho hb =>
    match h with
    | .cons h (.cons h' .nil) => exact .both (h.isA rfl ho) (h'.isA rfl hb)

end Rows

variable {P : Token → Prop}

/-- A node with its parts replaced. Blocks are not among this, and neither are
chains: what is left of them is made of other parts. -/
theorem Content.settled {g : Grammar} {s : Stage} {rule : Rule} {ps ps' : List Tree}
    (h : Content P g s rule ps) (hr : rule ≠ .block) (hc : s = .read → rule ≠ .mutation)
    (hp : List.Forall₂ (Settled s) ps ps') : Content P g .plain rule ps' := by
  cases h with
  | chain => exact absurd rfl (hc rfl)
  | block => exact absurd rfl hr
  | number kind sound =>
    obtain _ | ⟨h, _ | _⟩ := hp
    exact h.token _ rfl ▸ .number kind sound
  | string kind _ =>
    obtain _ | ⟨h, _ | _⟩ := hp
    exact h.token _ rfl ▸ .string kind (by simp)
  | boolean =>
    obtain _ | ⟨h, _ | _⟩ := hp
    exact h.token _ rfl ▸ .boolean
  | null =>
    obtain _ | ⟨h, _ | _⟩ := hp
    exact h.token _ rfl ▸ .null
  | list each =>
    obtain ⟨_, _, rfl, hi, hl⟩ := forall₂_append_left hp
    obtain _ | ⟨h, hi⟩ := hi
    obtain _ | ⟨h', _ | _⟩ := hl
    rw [h.token _ rfl, h'.token _ rfl]
    exact .list (Settled.fits_each hi each)
  | map each =>
    obtain ⟨_, _, rfl, hi, hl⟩ := forall₂_append_left hp
    obtain _ | ⟨h, hi⟩ := hi
    obtain _ | ⟨h', _ | _⟩ := hl
    rw [h.token _ rfl, h'.token _ rfl]
    exact .map (Settled.isA_each hi rfl each)
  | mapItem keyed value =>
    obtain _ | ⟨h, _ | ⟨h', _ | _⟩⟩ := hp
    exact .mapItem (h.fits keyed) (h'.fits value)
  | path kind each =>
    obtain _ | ⟨h, hf⟩ := hp
    exact h.token _ rfl ▸ .path kind (Settled.isA_each hf rfl each)
  | field kind named =>
    obtain _ | ⟨h, _ | ⟨h', _ | _⟩⟩ := hp
    rw [h.token _ rfl, h'.token _ rfl]
    exact .field kind named
  | index opens value closes =>
    obtain _ | ⟨h, _ | ⟨h', _ | ⟨h'', _ | _⟩⟩⟩ := hp
    rw [h.token _ rfl, h''.token _ rfl]
    exact .index opens (h'.fits value) closes
  | unary operand =>
    obtain _ | ⟨h, _ | ⟨h', _ | _⟩⟩ := hp
    exact h.token _ rfl ▸ .unary (h'.fits operand)
  | cast value types =>
    obtain _ | ⟨h, _ | ⟨h', _ | ⟨h'', _ | _⟩⟩⟩ := hp
    exact h'.token _ rfl ▸ .cast (h.fits value) (h''.isA rfl types)
  | binary first operator second =>
    obtain _ | ⟨h, _ | ⟨h', _ | ⟨h'', _ | _⟩⟩⟩ := hp
    exact h'.token _ rfl ▸ .binary (h.fits first) operator (h''.fits second)
  | types word each =>
    obtain _ | ⟨h, hs⟩ := hp
    exact h.token _ rfl ▸ .types word (Settled.isA_each hs rfl each)
  | functionCall named arguments =>
    obtain _ | ⟨h, _ | ⟨h', _ | ⟨hg, _ | ⟨h'', _ | _⟩⟩⟩⟩ := hp
    rw [h.token _ rfl, h'.token _ rfl, h''.token _ rfl]
    exact .functionCall named (hg.isA rfl arguments)
  | serviceCall path named arguments extras =>
    obtain _ | ⟨h, _ | ⟨h', _ | ⟨hg, he⟩⟩⟩ := hp
    rw [h'.token _ rfl]
    exact .serviceCall (h.isA rfl path) named (hg.isA rfl arguments) (Settled.extras extras he)
  | mutation value linked extras =>
    obtain _ | ⟨h, _ | ⟨h', he⟩⟩ := hp
    exact .mutation (h.value value) (h'.isA rfl linked) (Settled.extras extras he)
  | link named arguments =>
    obtain _ | ⟨h, _ | ⟨h', _ | _⟩⟩ := hp
    exact h.token _ rfl ▸ .link named (h'.isA rfl arguments)
  | furtherLink kind named arguments =>
    obtain _ | ⟨h, _ | ⟨h', _ | ⟨hg, _ | _⟩⟩⟩ := hp
    rw [h.token _ rfl, h'.token _ rfl]
    exact .furtherLink kind named (hg.isA rfl arguments)
  | arguments each => exact .arguments (Settled.isA_each hp rfl each)
  | argument named value =>
    obtain _ | ⟨h, _ | ⟨h', _ | _⟩⟩ := hp
    exact h.token _ rfl ▸ .argument named (h'.fits value)
  | output each =>
    obtain _ | ⟨h, hn⟩ := hp
    rw [h.token _ rfl]
    refine .output (forall₂_each hn each fun t t' h ht => ?_)
    cases t with
    | token u => rw [h.token u rfl]; rfl
    | node => simp [Tree.isNode] at ht
  | assignment path value =>
    obtain _ | ⟨h, _ | ⟨h', _ | ⟨h'', _ | _⟩⟩⟩ := hp
    exact h'.token _ rfl ▸ .assignment (h.isA rfl path) (h''.call value)
  | expressionStatement value =>
    obtain _ | ⟨h, _ | _⟩ := hp
    exact .expressionStatement (h.value value)
  | returnAlone =>
    obtain _ | ⟨h, _ | _⟩ := hp
    exact h.token _ rfl ▸ .returnAlone
  | returnValue value =>
    obtain _ | ⟨h, _ | ⟨h', _ | _⟩⟩ := hp
    exact h.token _ rfl ▸ .returnValue (h'.fits value)
  | throwAlone =>
    obtain _ | ⟨h, _ | _⟩ := hp
    exact h.token _ rfl ▸ .throwAlone
  | throwValue value =>
    obtain _ | ⟨h, _ | ⟨h', _ | _⟩⟩ := hp
    exact h.token _ rfl ▸ .throwValue (h'.fits value)
  | breakOff =>
    obtain _ | ⟨h, _ | _⟩ := hp
    exact h.token _ rfl ▸ .breakOff
  | continueOn =>
    obtain _ | ⟨h, _ | _⟩ := hp
    exact h.token _ rfl ▸ .continueOn
  | importFile value named =>
    obtain _ | ⟨h, _ | ⟨hf, _ | ⟨h', _ | ⟨h'', _ | _⟩⟩⟩⟩ := hp
    rw [h.token _ rfl, h'.token _ rfl, h''.token _ rfl]
    exact .importFile (hf.value value) named
  | ifBlock value block each =>
    obtain _ | ⟨h, _ | ⟨hv, _ | ⟨hb, hs⟩⟩⟩ := hp
    exact h.token _ rfl ▸
      .ifBlock (hv.fits value) (hb.isA rfl block) (Settled.isA_or_each hs rfl rfl each)
  | elifBlock value block =>
    obtain _ | ⟨h, _ | ⟨h', _ | ⟨hv, _ | ⟨hb, _ | _⟩⟩⟩⟩ := hp
    rw [h.token _ rfl, h'.token _ rfl]
    exact .elifBlock (hv.fits value) (hb.isA rfl block)
  | elseBlock block =>
    obtain _ | ⟨h, _ | ⟨hb, _ | _⟩⟩ := hp
    exact h.token _ rfl ▸ .elseBlock (hb.isA rfl block)
  | foreachBlock value output block =>
    obtain _ | ⟨h, _ | ⟨hv, _ | ⟨ho, _ | ⟨hb, _ | _⟩⟩⟩⟩ := hp
    exact h.token _ rfl ▸
      .foreachBlock (hv.fits value) (ho.isA rfl output) (hb.isA rfl block)
  | whileBlock value block =>
    obtain _ | ⟨h, _ | ⟨hv, _ | ⟨hb, _ | _⟩⟩⟩ := hp
    exact h.token _ rfl ▸ .whileBlock (hv.fits value) (hb.isA rfl block)
  | tryBlock block each =>
    obtain _ | ⟨h, _ | ⟨hb, hs⟩⟩ := hp
    exact h.token _ rfl ▸ .tryBlock (hb.isA rfl block) (Settled.isA_or_each hs rfl rfl each)
  | catchBlock block =>
    obtain _ | ⟨h, _ | ⟨hb, _ | _⟩⟩ := hp
    exact h.token _ rfl ▸ .catchBlock (hb.isA rfl block)
  | catchAs output block =>
    obtain _ | ⟨h, _ | ⟨ho, _ | ⟨hb, _ | _⟩⟩⟩ := hp
    exact h.token _ rfl ▸ .catchAs (ho.isA rfl output) (hb.isA rfl block)
  | finallyBlock block =>
    obtain _ | ⟨h, _ | ⟨hb, _ | _⟩⟩ := hp
    exact h.token _ rfl ▸ .finallyBlock (hb.isA rfl block)
  | functionBlock named each block =>
    obtain ⟨_, _, rfl, hi, hl⟩ := forall₂_append_left hp
    obtain _ | ⟨h, _ | ⟨h', hs⟩⟩ := hi
    obtain _ | ⟨hb, _ | _⟩ := hl
    rw [h.token _ rfl, h'.token _ rfl]
    exact .functionBlock named (Settled.isA_or_each hs rfl rfl each) (hb.isA rfl block)
  | parameter types =>
    obtain _ | ⟨h, _ | ⟨h', _ | _⟩⟩ := hp
    exact h.token _ rfl ▸ .parameter (h'.isA rfl types)
  | returns types =>
    obtain _ | ⟨h, _ | ⟨h', _ | _⟩⟩ := hp
    exact h.token _ rfl ▸ .returns (h'.isA rfl types)
  | whenBlock path arguments block =>
    obtain _ | ⟨h, _ | ⟨ht, _ | ⟨h', _ | ⟨hg, _ | ⟨hb, _ | _⟩⟩⟩⟩⟩ := hp
    rw [h.token _ rfl, h'.token _ rfl]
    exact .whenBlock (ht.isA rfl path) (hg.isA rfl arguments) (hb.isA rfl block)
  | whenAs path arguments output block =>
    obtain _ | ⟨h, _ | ⟨ht, _ | ⟨h', _ | ⟨hg, _ | ⟨ho, _ | ⟨hb, _ | _⟩⟩⟩⟩⟩⟩ := hp
    rw [h.token _ rfl, h'.token _ rfl]
    exact .whenAs (ht.isA rfl path) (hg.isA rfl arguments) (ho.isA rfl output)
      (hb.isA rfl block)

/-! ## First tokens -/

/-- The line of the first token. -/
def Tree.startLine? (t : Tree) : Option Nat := t.firstToken?.map Token.line

/-- A node starts where its first part does. -/
theorem Content.startLine {g : Grammar} {s : Stage} {rule : Rule} {line line' : Option Coord}
    {ps ps' : List Tree} (h : Content P g s rule ps) (hf : ∀ p ∈ ps, Formed P g s p)
    (hr : rule ≠ .block)
    (hl : List.Forall₂ (fun t t' => t.isA .block = false → t'.startLine? = t.startLine?) ps ps') :
    (Tree.node rule line' ps').startLine? = (Tree.node rule line ps).startLine? := by
  rcases h.head hr with rfl | ⟨p, rest, rfl, hb, ha⟩
  · cases hl
    rfl
  · cases hl with
    | @cons _ p' _ rest' hp _ =>
      obtain ⟨u, hu⟩ := Option.isSome_iff_exists.1 ((hf p (by simp)).hasToken hb ha)
      have hp := hp hb
      simp only [Tree.startLine?, hu, Option.map_some, Option.map_eq_some_iff] at hp
      obtain ⟨u', hu', hl⟩ := hp
      simp [Tree.startLine?, Tree.firstToken?, Tree.firstTokenOf?, hu, hu', hl]

/-- A node without a coordinate of its own, or with the same one, keeps its line. -/
theorem Tree.line?_of_startLine? {t t' : Tree} (own : t'.ownLine? = t.ownLine?)
    (h : t'.startLine? = t.startLine?) : t'.line? = t.line? := by
  have hmap : ∀ o : Option Token, o.map (fun u => Coord.ofLine u.line) =
      (o.map Token.line).map Coord.ofLine := by
    simp [Function.comp_def]
  simp only [startLine?] at h
  rw [line?, line?, own, hmap, hmap, h]

end StoryLang
