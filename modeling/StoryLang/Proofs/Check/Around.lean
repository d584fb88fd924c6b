/-
Checks around the statements of a block.

A check that comes to the statements of a block does something before it, checks
them in a scope of their own, drops the scope and does the rest. Neither what is
done before nor the rest depends on the statements: they only stay in what is
made of the tree. `Check.Encloses` says this of a check as a function of the
statements, and `Encloses.ends` what follows for their reports.

Every statement and branch with a block encloses it: what is done before the
block, and what is left to do after it, comes from the other parts. The block of
a call is behind its other parts, and finding the type of the call leaves it
there: it is the last part of what the call becomes.
-/
import Mathlib.Tactic.Choose
import StoryLang.Proofs.Check.Sight.Statement
import StoryLang.Proofs.Check.Statement
import StoryLang.Proofs.Tree.Hole

namespace StoryLang.Check

variable {α β γ : Type} {k l m n : Nat} {x : Check α}

/-! ## What a check gives back -/

/-- Wherever it starts, `post` holds of what the check gives back and where it ends. -/
def Returns (x : Check α) (post : α → State → Prop) : Prop := ∀ s a t, x s = .ok (a, t) → post a t

theorem returns_pure {a : α} {post : α → State → Prop} (h : ∀ s, post a s) : Returns (pure a) post := by
  intro s b t hx
  obtain ⟨rfl, rfl⟩ := Prod.mk.inj (Except.ok.inj hx)
  exact h s

theorem returns_bind {f : α → Check β} {post : β → State → Prop} (h : ∀ a, Returns (f a) post) :
    Returns (x >>= f) post := by
  intro s b t hb
  obtain ⟨a, u, -, hf⟩ := bind_ok_iff.1 hb
  exact h a u b t hf

theorem Returns.bind {f : α → Check β} {mid : α → State → Prop} {post : β → State → Prop}
    (h : Returns x mid) (hf : ∀ a, (∃ s, mid a s) → Returns (f a) post) : Returns (x >>= f) post := by
  intro s b t hb
  obtain ⟨a, u, hx, hf'⟩ := bind_ok_iff.1 hb
  exact hf a ⟨u, h s a u hx⟩ u b t hf'

theorem Returns.mono {post post' : α → State → Prop} (h : Returns x post)
    (hp : ∀ a s, post a s → post' a s) : Returns x post' :=
  fun s a t hx => hp a t (h s a t hx)

theorem returns_ite {c : Prop} [Decidable c] {y : Check α} {post : α → State → Prop} (hx : Returns x post)
    (hy : Returns y post) : Returns (if c then x else y) post := by
  split
  · exact hx
  · exact hy

/-- Two rests are the same if they are for everything that is given back. -/
theorem Returns.bind_congr {f f' : α → Check β} {post : α → State → Prop} (h : Returns x post)
    (hf : ∀ a s, post a s → f a = f' a) : x >>= f = x >>= f' := by
  funext s
  cases hx : x s with
  | error fault => simp [Bind.bind, StateT.bind, Except.bind, hx]
  | ok out =>
    have hout := hf out.1 out.2 (h s out.1 out.2 hx)
    simp [Bind.bind, StateT.bind, Except.bind, hx, hout]

/-- What holds wherever no internal error was reported holds everywhere: a check does not
look at reports. -/
theorem Ensures.returns {r : Option Registry} {post : α → Prop} (h : Ensures r x post)
    (hx : ∀ k, Mirrors k [] [] x x) : Returns x fun a _ => post a := by
  intro s a t ha
  have hs : Mirror s.scopes.inner.length [] [] s.scopes.root s.reports [] s { s with reports := [] } :=
    ⟨⟨s.scopes.inner, rfl, by simp, by simp⟩, [], rfl, rfl⟩
  have hm := hx _ _ _ _ _ _ hs
  have he := h { s with reports := [] } (List.forall_mem_nil _)
  rw [ha] at hm
  generalize x { s with reports := [] } = y at hm he
  cases hm with
  | @ok _ out' results =>
    obtain ⟨rfl, -⟩ := results
    exact he.2

/-! ## Before and after a block -/

/-- What is known for the statements of a block, and what is left to do with what is made of
them. -/
structure Route (α : Type) where
  env : Env
  after : List Tree → Check α

/-- What is left to do does not depend on what is made of the statements, but puts it into
what is given back. -/
def Steady (k l : Nat) (shape : (List Tree → α) → Prop) (after : List Tree → Check α) : Prop :=
  ∃ (β : Type) (rest : Check β) (close : β → List Tree → α), Reflects k l [] [] rest rest ∧
    Returns rest (fun b _ => shape (close b)) ∧ ∀ made, after made = rest >>= fun b => pure (close b made)

/-- With `k` scopes, the check goes on to its statements with `m` scopes below that of their
own, and ends with `l`. -/
def Encloses (k m l : Nat) (entry : Env → State → Prop) (shape : (List Tree → α) → Prop)
    (run : List Tree → Check α) : Prop :=
  ∃ start : Check (Route α), Reflects k (m + 1) [] [] start start ∧
    Returns start (fun r s => entry r.env s ∧ Steady m l shape r.after) ∧
    ∀ ts, run ts = start >>= fun r =>
      statements r.env .open ts >>= fun made => pop >>= fun _ => r.after made

namespace Encloses

variable {k' l' m' : Nat} {entry : Env → State → Prop} {shape : (List Tree → α) → Prop}
  {shape' : (List Tree → β) → Prop} {run : List Tree → Check α}

theorem mono {entry' : Env → State → Prop} {shape' : (List Tree → α) → Prop} (h : Encloses k m l entry shape run)
    (he : ∀ e s, entry e s → entry' e s) (hs : ∀ close, shape close → shape' close) :
    Encloses k m l entry' shape' run := by
  obtain ⟨start, hstart, hreturns, hrun⟩ := h
  refine ⟨start, hstart, hreturns.mono fun r s hr => ⟨he _ _ hr.1, ?_⟩, hrun⟩
  obtain ⟨γ, rest, close, hrest, hclose, hafter⟩ := hr.2
  exact ⟨γ, rest, close, hrest, hclose.mono fun b _ => hs _, hafter⟩

/-- Nothing is left to do but to put the statements where they were. -/
theorem of {header : Check β} (env : β → Env) (close : β → List Tree → α)
    (h : Reflects k (m + 1) [] [] header header)
    (hp : Returns header fun b s => entry (env b) s ∧ shape (close b))
    (hr : ∀ ts, run ts = header >>= fun b =>
      statements (env b) .open ts >>= fun made => pop >>= fun _ => pure (close b made)) :
    Encloses k m m entry shape run := by
  refine ⟨header >>= fun b => pure ⟨env b, fun made => pure (close b made)⟩,
    h.bind fun _ => mirrors_pure, ?_, fun ts => by simp only [hr ts, bind_assoc, pure_bind]⟩
  intro s r t hrt
  obtain ⟨b, u, hb, hrest⟩ := bind_ok_iff.1 hrt
  obtain ⟨rfl, rfl⟩ := Prod.mk.inj (Except.ok.inj hrest)
  have hb := hp s b u hb
  exact ⟨hb.1, Unit, pure (), fun _ => close b, mirrors_pure, returns_pure fun _ => hb.2,
    fun made => by simp only [pure_bind]⟩

/-- Something that is done before. -/
theorem bindLeft {run : β → List Tree → Check α} {x : Check β} {post : β → Prop}
    (hx : Reflects k k' [] [] x x) (hp : Returns x fun b _ => post b)
    (h : ∀ b, post b → Encloses k' m l entry shape (run b)) :
    Encloses k m l entry shape fun ts => x >>= fun b => run b ts := by
  -- what `x` does not give back can start with anything
  have h' : ∀ b, ∃ start : Check (Route α), Reflects k' (m + 1) [] [] start start ∧ (post b →
      Returns start (fun r s => entry r.env s ∧ Steady m l shape r.after) ∧ ∀ ts, run b ts = start >>= fun r =>
        statements r.env .open ts >>= fun made => pop >>= fun _ => r.after made) := by
    intro b
    by_cases hb : post b
    · obtain ⟨start, hstart, hrest⟩ := h b hb
      exact ⟨start, hstart, fun _ => hrest⟩
    · exact ⟨fun _ => .error (.internal .registryFailed), fun _ _ _ _ _ _ => .error ⟨rfl, rfl⟩, (absurd · hb)⟩
  choose start hstart hrest using h'
  refine ⟨x >>= start, hx.bind hstart, hp.bind fun b hb => hb.elim fun _ hb => (hrest b hb).1, fun ts => ?_⟩
  rw [bind_assoc]
  exact hp.bind_congr fun b _ hb => (hrest b hb).2 ts

/-- Something that is done before and finds nothing out. -/
theorem bindAny {run : β → List Tree → Check α} {x : Check β} (hx : Reflects k k' [] [] x x)
    (h : ∀ b, Encloses k' m l entry shape (run b)) :
    Encloses k m l entry shape fun ts => x >>= fun b => run b ts :=
  have hp : Returns x fun _ _ => True := fun _ _ _ _ => trivial
  .bindLeft hx hp fun b _ => h b

/-- Something that is done after, with what the check gives back. -/
theorem bindRight {f : α → Check β} {y : Check γ} (close' : α → γ → β) (h : Encloses k m l entry shape run)
    (hy : Reflects l l' [] [] y y)
    (hf : ∀ close, shape close → ∀ made, f (close made) = y >>= fun c => pure (close' (close made) c))
    (hs : ∀ close, shape close → Returns y fun c _ => shape' fun made => close' (close made) c) :
    Encloses k m l' entry shape' fun ts => run ts >>= f := by
  obtain ⟨start, hstart, hreturns, hrun⟩ := h
  refine ⟨start >>= fun r => pure ⟨r.env, fun made => r.after made >>= f⟩,
    hstart.bind fun _ => mirrors_pure, ?_, fun ts => by simp only [hrun ts, bind_assoc, pure_bind]⟩
  intro s r t hrt
  obtain ⟨r, u, hr, hrest⟩ := bind_ok_iff.1 hrt
  obtain ⟨rfl, rfl⟩ := Prod.mk.inj (Except.ok.inj hrest)
  obtain ⟨hentry, δ, rest, close, hrest, hclose, hafter⟩ := hreturns s r u hr
  refine ⟨hentry, δ × γ, rest >>= fun d => y >>= fun c => pure (d, c),
    fun out made => close' (close out.1 made) out.2, ?_, ?_, fun made => ?_⟩
  · exact hrest.bind fun _ => hy.bind fun _ => mirrors_pure
  · refine hclose.bind fun d hd => ?_
    obtain ⟨_, hd⟩ := hd
    exact (hs _ hd).bind fun c hc => returns_pure fun _ => hc.elim fun _ => id
  · dsimp only
    rw [hafter, bind_assoc, bind_assoc]
    refine hclose.bind_congr fun d _ hd => ?_
    simp only [pure_bind, bind_assoc, hf _ hd]

/-- What is made of the statements is put into something else. -/
theorem map {f : α → β} (h : Encloses k m l entry shape run)
    (hs : ∀ close, shape close → shape' fun made => f (close made)) :
    Encloses k m l entry shape' fun ts => run ts >>= fun a => pure (f a) :=
  h.bindRight (y := pure ()) (fun a _ => f a) mirrors_pure
    (fun _ _ _ => by simp only [pure_bind]) fun close hc => returns_pure fun _ => hs close hc

/-- The statements have a block that encloses others. -/
theorem within {inner : List Tree → List Tree} {entry' : Env → Env → State → Prop}
    {shape' : (List Tree → List Tree) → Prop} {shape'' : (List Tree → α) → Prop}
    (h : Encloses k m l entry shape run)
    (hi : ∀ e, Encloses (m + 1) m' (m + 1) (entry' e) shape' fun ts => statements e .open (inner ts))
    (hs : ∀ close close', shape close → shape' close' → shape'' fun made => close (close' made)) :
    Encloses k m' l (fun e s => ∃ e' s', entry e' s' ∧ entry' e' e s) shape'' fun ts => run (inner ts) := by
  obtain ⟨start, hstart, hreturns, hrun⟩ := h
  choose start' hstart' hreturns' hrun' using hi
  refine ⟨start >>= fun r => start' r.env >>= fun r' =>
    pure ⟨r'.env, fun made => r'.after made >>= fun made => pop >>= fun _ => r.after made⟩,
    hstart.bind fun r => (hstart' r.env).bind fun _ => mirrors_pure, ?_,
    fun ts => by simp only [hrun, hrun', bind_assoc, pure_bind]⟩
  intro s r'' t hrt
  obtain ⟨r, u, hr, hrest⟩ := bind_ok_iff.1 hrt
  obtain ⟨r', u', hr', hrest'⟩ := bind_ok_iff.1 hrest
  obtain ⟨rfl, rfl⟩ := Prod.mk.inj (Except.ok.inj hrest')
  obtain ⟨hentry, δ, rest, close, hrest, hclose, hafter⟩ := hreturns s r u hr
  obtain ⟨hentry', δ', rest', close', hrest', hclose', hafter'⟩ := hreturns' r.env u r' u' hr'
  refine ⟨⟨r.env, u, hentry, hentry'⟩, δ' × δ, rest' >>= fun d' => pop >>= fun _ => rest >>= fun d => pure (d', d),
    fun out made => close out.2 (close' out.1 made), ?_, ?_, fun made => ?_⟩
  · exact hrest'.bind fun _ => reflects_pop.bind fun _ => hrest.bind fun _ => mirrors_pure
  · refine hclose'.bind fun d' hd' => returns_bind fun _ => hclose.bind fun d hd => ?_
    exact returns_pure fun _ => hs _ _ (hd.elim fun _ => id) (hd'.elim fun _ => id)
  · simp only [hafter', hafter, bind_assoc, pure_bind]

end Encloses

/-! ## What is reported around a block -/

theorem bind_ok {f : α → Check β} {a : α} {s t : State} (h : x s = .ok (a, t)) : (x >>= f) s = f a t := by
  simp only [Bind.bind, StateT.bind, Except.bind, h]

theorem bind_error {f : α → Check β} {fault : Fault} {s : State} (h : x s = .error fault) :
    (x >>= f) s = .error fault := by
  simp only [Bind.bind, StateT.bind, Except.bind, h]

/-- A check next to itself, where other things were reported before. -/
theorem Reflects.again (h : Reflects k l [] [] x x) {s t u : State} {a : α} (hk : s.scopes.inner.length = k)
    (hs : u.scopes = s.scopes) (hx : x s = .ok (a, t)) :
    ∃ new services, t.reports = new ++ s.reports ∧
      x u = .ok (a, ⟨t.scopes, new ++ u.reports, services⟩) := by
  have hm := h s.scopes.root s.reports u.reports s u
    ⟨⟨s.scopes.inner, hk, by simp, by simp [hs]⟩, [], rfl, rfl⟩
  rw [hx] at hm
  generalize x u = y at hm
  cases hm with
  | @ok _ out' results =>
    obtain ⟨a', t'⟩ := out'
    obtain ⟨rfl, ⟨top, -, hi, hi'⟩, new, hn, hn'⟩ := results
    obtain ⟨scopes, reports, services⟩ := t'
    obtain rfl : scopes = t.scopes := hi'.trans hi.symm
    obtain rfl : reports = new ++ u.reports := hn'
    exact ⟨new, services, hn, rfl⟩

/-- How many scopes a check leaves, and that the root stays. -/
theorem Reflects.leaves (h : Reflects k l [] [] x x) {s t : State} {a : α} (hk : s.scopes.inner.length = k)
    (hx : x s = .ok (a, t)) : t.scopes.inner.length = l ∧ t.scopes.root = s.scopes.root ∧
      ∃ new, t.reports = new ++ s.reports := by
  have hm := h _ _ _ s s (hk ▸ Mirror.refl s (List.append_nil _).symm)
  rw [hx] at hm
  cases hm with
  | ok results =>
    obtain ⟨-, ⟨top, hl, hi, -⟩, new, hn, -⟩ := results
    dsimp only at hi
    exact ⟨by simp [hi, hl], by rw [hi], new, hn⟩

/-- The statements of a block change nothing below their own scope. -/
theorem statements_leave {e : Env} {ts made : List Tree} {s t : State}
    (hk : s.scopes.inner.length = k + 1) (h : statements e .open ts s = .ok (made, t)) :
    t.scopes.dropTop = s.scopes.dropTop ∧ ∃ inside, t.reports = inside ++ s.reports := by
  obtain ⟨scopes, reports, services⟩ := s
  obtain ⟨inner, root⟩ := scopes
  cases inner with
  | nil => cases hk
  | cons top below =>
    have hm := (Env.Sees.refl e below).statements (k := 0) .open ts _ _ _ _ _
      (Mirror.refl ⟨⟨top :: below, root⟩, reports, services⟩ (show top :: below = [top] ++ below from rfl))
    rw [h] at hm
    cases hm with
    | ok results =>
      obtain ⟨-, ⟨top', hl, hi, -⟩, new, hn, -⟩ := results
      obtain ⟨first, rfl⟩ := List.length_eq_one_iff.1 hl
      exact ⟨by rw [hi]; rfl, new, hn⟩

/-- A check around some statements stops, whatever they are, or gets to them. Then what it
reports is what it reports before, what is reported of the statements, and what it reports
after; and where it ends does not depend on the statements. -/
theorem Encloses.ends {entry : Env → State → Prop} {shape : (List Tree → α) → Prop} {run : List Tree → Check α}
    (h : Encloses k m l entry shape run) (s : State) (hk : s.scopes.inner.length = k) :
    (∀ ts, ∃ fault, run ts s = .error fault) ∨
    ∃ e start close before after last, entry e start ∧ shape close ∧
      start.reports = before ++ s.reports ∧ start.scopes.root = s.scopes.root ∧
      start.scopes.inner.length = m + 1 ∧
      ∀ ts, (∀ fault, statements e .open ts start = .error fault → run ts s = .error fault) ∧
        ∀ made t, statements e .open ts start = .ok (made, t) → ∃ inside services,
          t.reports = inside ++ start.reports ∧
          run ts s = .ok (close made, ⟨last, after ++ (inside ++ start.reports), services⟩) := by
  obtain ⟨start, hstart, hreturns, hrun⟩ := h
  cases hs : start s with
  | error fault => exact .inl fun ts => ⟨fault, by rw [hrun]; exact bind_error hs⟩
  | ok out =>
    obtain ⟨r, u⟩ := out
    obtain ⟨hentry, δ, rest, close, hrest, hclose, hafter⟩ := hreturns s r u hs
    obtain ⟨hlevel, hroot, before, hbefore⟩ := hstart.leaves hk hs
    have hbelow : u.scopes.dropTop.inner.length = m := by simp [Scopes.dropTop, hlevel]
    -- what the rest does after no statements it does after any
    let bare : State := { u with scopes := u.scopes.dropTop }
    have hthen : ∀ {ts made t}, statements r.env .open ts u = .ok (made, t) →
        run ts s = (rest >>= fun d => pure (close d made)) { t with scopes := t.scopes.dropTop } := by
      intro ts made t hmade
      rw [hrun, bind_ok hs, bind_ok hmade, ← hafter]
      rfl
    cases hd : rest bare with
    | error fault =>
      refine .inl fun ts => ?_
      cases hmade : statements r.env .open ts u with
      | error fault => exact ⟨fault, by rw [hrun, bind_ok hs, bind_error hmade]⟩
      | ok out =>
        obtain ⟨made, t⟩ := out
        obtain ⟨hdrop, -⟩ := statements_leave hlevel hmade
        cases hd' : rest { t with scopes := t.scopes.dropTop } with
        | error fault => exact ⟨fault, by rw [hthen hmade, bind_error hd']⟩
        | ok out' =>
          obtain ⟨_, _, -, hagain⟩ := hrest.again (u := bare) (hdrop ▸ hbelow) hdrop.symm hd'
          rw [hd] at hagain
          cases hagain
    | ok out =>
      obtain ⟨d, v⟩ := out
      obtain ⟨-, -, after, hafter'⟩ := hrest.leaves hbelow hd
      refine .inr ⟨r.env, u, close d, before, after, v.scopes, hentry, hclose _ d v hd, hbefore, hroot, hlevel,
        fun ts => ⟨fun fault hfault => by rw [hrun, bind_ok hs, bind_error hfault], fun made t hmade => ?_⟩⟩
      obtain ⟨hdrop, inside, hinside⟩ := statements_leave hlevel hmade
      obtain ⟨new, services, hnew, hagain⟩ :=
        hrest.again (u := { t with scopes := t.scopes.dropTop }) hbelow hdrop hd
      obtain rfl : new = after := List.append_cancel_right (hnew.symm.trans hafter')
      refine ⟨inside, services, hinside, ?_⟩
      rw [hthen hmade, bind_ok hagain, ← hinside]
      rfl

end StoryLang.Check

/-! ## Statements around a block -/

namespace StoryLang.Check

variable {e : Env} {rule : Rule} {line l : Option Coord} {ps ts back : List Tree}

/-! ## A block among the parts of a call -/

theorem argumentsOf_cut :
    argumentsOf e (ps ++ .node .block l ts :: back) = argumentsOf e (ps ++ back) := by
  induction ps with
  | nil => exact argumentsOf_other (by simp)
  | cons p ps ih =>
    cases p with
    | token u => exact ih
    | node r l inner =>
      by_cases hr : r = .arguments
      · subst hr
        rw [List.cons_append, List.cons_append, argumentsOf, argumentsOf]
      · rw [List.cons_append, List.cons_append, argumentsOf_other hr, argumentsOf_other hr, ih]

theorem links_snoc (ty : Ty) : links e ty (ps ++ [.node .block l ts]) =
    links e ty ps >>= fun out => pure (out.1 ++ [.node .block l ts], out.2) := by
  induction ps generalizing ty with
  | nil =>
    rw [List.nil_append, links_other (by simp), links, pure_bind, pure_bind]
    rfl
  | cons p ps ih =>
    cases p with
    | token u =>
      unfold links
      simp only [List.cons_append, ih, bind_assoc, pure_bind]
    | node r l inner =>
      by_cases hr : r = .mutationFragment
      · subst hr
        unfold links
        simp only [ih, bind_assoc, pure_bind, List.cons_append]
      · rw [List.cons_append, links_other hr, links_other hr, ih]
        simp only [bind_assoc, pure_bind, List.cons_append]

theorem putFirst_snoc {r : Rule} (hr : r ≠ .block) (new : Option Tree) :
    Tree.putFirst r new (ps ++ [.node .block l ts]) = Tree.putFirst r new ps ++ [.node .block l ts] := by
  induction ps with
  | nil => cases new <;> simp [Tree.putFirst, Tree.isA, Tree.rule?, hr.symm]
  | cons p ps ih =>
    cases new with
    | none => rfl
    | some n => by_cases hp : p.isA r = true <;> simp [Tree.putFirst, hp, ih]

theorem nameOf?_cut : nameOf? (ps ++ .node .block l ts :: back) = nameOf? (ps ++ back) := by
  simp [nameOf?, tokensOf, Tree.asToken?]

theorem asMutation_snoc (subject : Tree) :
    asMutation subject (ps ++ [.node .block l ts]) = asMutation subject ps ++ [.node .block l ts] := by
  simp [asMutation, inLink, Tree.isA, Tree.rule?, Tree.isNode]

theorem mutation_snoc (hp : ps.any Tree.isNode = true) : mutation e (ps ++ [.node .block l ts]) =
    mutation e ps >>= fun out => pure (out.1 ++ [.node .block l ts], out.2) := by
  induction ps with
  | nil => cases hp
  | cons p ps ih =>
    cases p with
    | token u =>
      unfold mutation
      simp only [List.cons_append, ih (by simpa [Tree.isNode] using hp), bind_assoc, pure_bind]
    | node r l inner =>
      unfold mutation
      simp only [links_snoc, bind_assoc, pure_bind, List.cons_append]

theorem callAsMutation_snoc (hp : ps ≠ []) : callAsMutation e (ps ++ [.node .block l ts]) =
    callAsMutation e ps >>= fun out => pure (out.1 ++ [.node .block l ts], out.2) := by
  cases ps with
  | nil => exact absurd rfl hp
  | cons p ps =>
    cases p with
    | token u =>
      unfold callAsMutation
      simp only [links_snoc, bind_assoc, pure_bind, asMutation_snoc, List.cons_append]
    | node r l inner =>
      unfold callAsMutation
      simp only [argumentsOf_cut, links_snoc, nameOf?_cut, List.append_nil, bind_assoc, pure_bind, List.cons_append,
        putFirst_snoc (r := .arguments) (by simp), asMutation_snoc]

/-- A node with one more part. -/
def snoc (b : Tree) : Tree → Tree
  | .token u => .token u
  | .node r l ps => .node r l (ps ++ [b])

/-- The block of a call stays where it is when the type of the call is found. -/
theorem value_snoc (hr : rule = .serviceCall ∨ rule = .mutation) (hp : ps.any Tree.isNode = true) :
    value e (.node rule line (ps ++ [.node .block l ts])) =
      value e (.node rule line ps) >>= fun out => pure (snoc (.node .block l ts) out.1, out.2) := by
  have hne : ps ≠ [] := by
    rintro rfl
    cases hp
  have hpath : (ps ++ [Tree.node .block l ts]).find? (·.isA .path) = ps.find? (·.isA .path) := by
    simp [List.find?_append, Tree.isA, Tree.rule?]
  rcases hr with rfl | rfl
  · unfold value
    simp only [hpath, argumentsOf_cut, nameOf?_cut, List.append_nil, putFirst_snoc (r := .arguments) (by simp),
      callAsMutation_snoc hne]
    cases ps.find? (·.isA .path) with
    | none => rfl
    | some path =>
      dsimp only
      cases path.firstToken? with
      | none => rfl
      | some root =>
        simp only [bind_assoc]
        congr 1
        funext found
        cases found.map (·.ty) with
        | none =>
          dsimp only
          split <;> simp only [bind_assoc, pure_bind, snoc]
        | some ty =>
          dsimp only
          split <;> simp only [bind_assoc, pure_bind, snoc]
  · unfold value
    simp only [mutation_snoc hp, bind_assoc, pure_bind, snoc]

end StoryLang.Check

namespace StoryLang.Check

variable {α : Type} {k m n : Nat} {e : Env} {g : Grammar} {rule : Rule} {line l : Option Coord}
  {front back ps ts : List Tree} {f : Frame} {entry : Env → State → Prop}

/-! ## Rows with a block -/

theorem bodyOf_cut (h : ∀ p ∈ front, p.isA .block = false) :
    bodyOf e (front ++ .node .block l ts :: back) =
      statements e .open ts >>= fun made => pure (some (.node .block l made)) := by
  induction front with
  | nil => rw [List.nil_append, bodyOf]
  | cons p front ih =>
    simp only [List.forall_mem_cons] at h
    cases p with
    | token u => exact ih h.2
    | node r line inner =>
      rw [List.cons_append, bodyOf_other (by simpa [Tree.isA, Tree.rule?] using h.1), ih h.2]

theorem blockOf_cut (h : ∀ p ∈ front, p.isA .block = false) :
    blockOf e (front ++ .node .block l ts :: back) =
      inOwnScope (statements e .open ts) >>= fun made => pure (some (.node .block l made)) := by
  induction front with
  | nil => rw [List.nil_append, blockOf]
  | cons p front ih =>
    simp only [List.forall_mem_cons] at h
    cases p with
    | token u => exact ih h.2
    | node r line inner =>
      rw [List.cons_append, blockOf_other (by simpa [Tree.isA, Tree.rule?] using h.1), ih h.2]

theorem putFirst_cut (h : ∀ p ∈ front, p.isA .block = false) (b : Tree) :
    Tree.putFirst .block (some b) (front ++ .node .block l ts :: back) = front ++ b :: back := by
  induction front with
  | nil => simp [Tree.putFirst, Tree.isA, Tree.rule?]
  | cons p front ih =>
    simp only [List.forall_mem_cons] at h
    simp [Tree.putFirst, h.1, ih h.2]

theorem firstTokenOf?_cut (h : (Tree.firstTokenOf? front).isSome = true) :
    Tree.firstTokenOf? (front ++ ps) = Tree.firstTokenOf? front := by
  obtain ⟨u, hu⟩ := Option.isSome_iff_exists.1 h
  rw [Tree.firstTokenOf?_append ps hu, hu]

theorem line?_cut (h : (Tree.firstTokenOf? front).isSome = true) :
    (Tree.node rule line (front ++ ps)).line? = (Tree.node rule line front).line? := by
  simp [Tree.line?, Tree.ownLine?, Tree.firstToken?, firstTokenOf?_cut h]

theorem position?_cut (h : (Tree.firstTokenOf? front).isSome = true) :
    (Tree.node rule line (front ++ ps)).position? = (Tree.node rule line front).position? := by
  simp [Tree.position?, Tree.firstToken?, firstTokenOf?_cut h]

theorem outputNames_cut : outputNames (front ++ .node .block l ts :: back) = outputNames (front ++ back) := by
  simp [outputNames, List.find?_append, Tree.isA, Tree.rule?]

theorem returnTypes_cut : returnTypes (front ++ .node .block l ts :: back) = returnTypes (front ++ back) := by
  simp [returnTypes, List.find?_append, Tree.isA, Tree.rule?]

theorem parameters_cut : (front ++ .node .block l ts :: back).filter (·.isA .parameter) =
    (front ++ back).filter (·.isA .parameter) := by
  simp [Tree.isA, Tree.rule?]

/-- A row with a name has a first one. -/
theorem exists_nameOf? (h : ∃ u, Tree.token u ∈ front ∧ u.kind = .name) (back : List Tree) :
    ∃ name, nameOf? (front ++ back) = some name := by
  obtain ⟨u, hu, hkind⟩ := h
  exact Option.isSome_iff_exists.1 (List.find?_isSome.2
    ⟨u, List.mem_filterMap.2 ⟨.token u, List.mem_append_left _ hu, rfl⟩, by simpa using hkind⟩)

/-! ## Frames -/

/-- What is made of a node around a block: one of the same rule, but for a call that becomes a
mutation. A function is kept as it is. -/
def Remakes (f : Frame) (l : Option Coord) (close : List Tree → Tree) : Prop :=
  ∃ f' : Frame, (close = fun ts => f'.around (.node .block l ts)) ∧
    (f'.rule = f.rule ∨ f.rule = .serviceCall ∧ f'.rule = .mutation) ∧ (f.rule = .functionBlock → f' = f)

/-- How the statements of a block are come to. A function starts a body. -/
def Comes (e : Env) (f : Frame) (l : Option Coord) (e' : Env) (s : State) : Prop :=
  ∃ body, e' = { e with body } ∧
    (f.rule = .functionBlock → ∃ s₁, entering e (f.around (.node .block l [])) s₁ = .ok (body, s))

theorem comes_self (h : f.rule ≠ .functionBlock) (s : State) : Comes e f l e s :=
  ⟨e.body, rfl, fun hf => absurd hf h⟩

/-- A block in a scope of its own, and what is made of it. -/
theorem encloses_inOwnScope {shape : (List Tree → α) → Prop} (close : List Tree → α) (hs : shape close)
    (he : ∀ s, entry e s) :
    Encloses k k k entry shape fun ts => inOwnScope (statements e .open ts) >>= fun made => pure (close made) :=
  .of (fun _ => e) (fun _ => close) reflects_push
    (fun s _ t _ => ⟨he t, hs⟩) fun ts => by simp only [inOwnScope, bind_assoc, pure_bind]

/-! ## Calls -/

/-- What the call becomes without its block. -/
theorem returns_call (hr : rule = .serviceCall ∨ rule = .mutation)
    (hf : Formed Token.Sound g .plain (.node rule line front)) (hno : ∀ p ∈ front, p.isA .block = false) :
    Returns (value e (.node rule line front)) fun out _ => ∃ rule' line' front',
      out.1 = .node rule' line' front' ∧ (rule' = rule ∨ rule = .serviceCall ∧ rule' = .mutation) ∧
      (∀ p ∈ front', p.isA .block = false) ∧ (Tree.firstTokenOf? front').isSome = true := by
  refine (((checks_of_formed hf).value e).returns fun k => (Env.Sees.refl e []).value _).mono fun out _ h => ?_
  obtain ⟨t, ty⟩ := out
  obtain ⟨hretold, hblock⟩ := h
  have hcall : (Tree.node rule line front).isCall = true := by
    rcases hr with rfl | rfl <;> rfl
  have hnone : (Tree.node rule line front).find? .block = none :=
    List.find?_eq_none.2 fun p hp => by simp [hno p hp]
  have hfind := List.find?_eq_none.1 ((hblock hcall).trans hnone)
  have hstart := hf.hasToken (by rcases hr with rfl | rfl <;> rfl) (by rcases hr with rfl | rfl <;> rfl)
  rw [Tree.firstToken?_eq_head?, ← hretold.yield, ← Tree.firstToken?_eq_head?] at hstart
  cases hretold.retells with
  | @same _ _ _ ps' => exact ⟨_, _, ps', rfl, .inl rfl, fun p hp => by simpa using hfind p hp, hstart⟩
  | @call _ _ ps' => exact ⟨_, _, ps', rfl, .inr ⟨rfl, rfl⟩, fun p hp => by simpa using hfind p hp, hstart⟩

theorem encloses_call (hr : rule = .serviceCall ∨ rule = .mutation)
    (hf : Formed Token.Sound g .plain (.node rule line front)) (hno : ∀ p ∈ front, p.isA .block = false) :
    Encloses (k + 1) (k + 1) (k + 1) (Comes e ⟨rule, line, front, []⟩ l) (Remakes ⟨rule, line, front, []⟩ l)
      fun ts => statement e (.node rule line (front ++ [.node .block l ts])) := by
  have hnode : front.any Tree.isNode = true := by
    cases hf with
    | node content _ _ =>
      rcases hr with rfl | rfl
      · cases content with
        | serviceCall path _ _ _ =>
          obtain ⟨_, _, rfl⟩ := Tree.isA_iff.1 path
          rfl
      · cases content with
        | mutation value _ _ =>
          obtain ⟨_, _, _, rfl, -⟩ := Tree.fits_iff.1 value
          rfl
  simp only [statement_call hr, value_snoc hr hnode, bind_assoc, pure_bind, blockOf_cut hno]
  refine .bindLeft ((Env.Sees.refl e []).value _) (returns_call hr hf hno) fun out hout => ?_
  obtain ⟨rule', line', front', hout, hrule, hno', hstart⟩ := hout
  have hdeclare : ∀ ts, declareOutput (snoc (.node .block l ts) out.1) out.2 = declareOutput out.1 out.2 := by
    intro ts
    have hnames : outputNames (front' ++ [.node .block l ts]) = outputNames (front' ++ []) := outputNames_cut
    rw [List.append_nil] at hnames
    simp only [declareOutput, hout, snoc, line?_cut hstart, Tree.parts, hnames]
  simp only [hdeclare]
  simp only [hout, snoc, putFirst_cut hno']
  refine .bindAny (mirrors_declareOutput _ _) fun _ => ?_
  refine encloses_inOwnScope _ ⟨⟨rule', line', front', []⟩, rfl, hrule, ?_⟩ (comes_self ?_)
  all_goals rcases hr with rfl | rfl <;> simp

/-! ## Rows of branches -/

/-- What is made of a row around a block: as many parts in front of the one with the block. -/
def RemakesRow (n : Nat) (shape : (List Tree → Tree) → Prop) (close : List Tree → List Tree) : Prop :=
  ∃ front part back, (close = fun ts => front ++ part ts :: back) ∧ front.length = n ∧ shape part

/-- The same for a row of one part. -/
def RemakesOne (shape : (List Tree → Tree) → Prop) (close : List Tree → List Tree) : Prop :=
  ∃ part, (close = fun ts => [part ts]) ∧ shape part

/-- A row of parts that are checked one after the other, each for itself. -/
structure PartByPart (row : List Tree → Check (List Tree)) : Prop where
  nil : row [] = pure []
  cons : ∀ t, ∃ step : Check Tree, ∀ ts,
    row (t :: ts) = step >>= fun first => row ts >>= fun rest => pure (first :: rest)
  mirrors : ∀ k ts, Mirrors k [] [] (row ts) (row ts)

namespace PartByPart

variable {row : List Tree → Check (List Tree)}

/-- The first part is checked like a row of its own. -/
theorem first (h : PartByPart row) (t : Tree) :
    (∀ ts, row (t :: ts) = row [t] >>= fun first => row ts >>= fun rest => pure (first ++ rest)) ∧
      Returns (row [t]) fun made _ => made.length = 1 := by
  obtain ⟨step, hstep⟩ := h.cons t
  refine ⟨fun ts => ?_, ?_⟩
  · rw [hstep ts, hstep []]
    simp only [h.nil, bind_assoc, pure_bind, List.cons_append, List.nil_append]
  · rw [hstep [], h.nil]
    simp only [pure_bind]
    exact returns_bind fun _ => returns_pure fun _ => rfl

/-- If the check of one part encloses a block, the check of the row does. -/
theorem encloses {part : List Tree → Tree} {shape : (List Tree → Tree) → Prop} (hrow : PartByPart row)
    (h : Encloses k m k entry (RemakesOne shape) fun ts => row [part ts]) :
    Encloses k m k entry (RemakesRow front.length shape) fun ts => row (front ++ part ts :: back) := by
  induction front with
  | nil =>
    have hcons := fun ts => (hrow.first (part ts)).1 back
    simp only [List.nil_append, hcons]
    refine h.bindRight (fun first rest => first ++ rest) (hrow.mirrors k back) (fun _ _ _ => rfl) ?_
    rintro _ ⟨part', rfl, hpart⟩
    exact fun _ rest _ _ => ⟨[], part', rest, rfl, rfl, hpart⟩
  | cons t front ih =>
    obtain ⟨hcons, hone⟩ := hrow.first t
    have hcons := fun ts => hcons (front ++ part ts :: back)
    simp only [List.cons_append, hcons]
    refine .bindLeft (hrow.mirrors k [t]) hone fun first hfirst => ih.map ?_
    rintro _ ⟨front', part', back', rfl, hlength, hpart⟩
    exact ⟨first ++ front', part', back', by simp, by simp [hfirst, hlength, Nat.add_comm], hpart⟩

end PartByPart

theorem blocksMirror (ps : List Tree) : BlocksMirror [] [] ps :=
  fun q _ => (treeMirrors [] [] q).list

theorem branch_partByPart (e : Env) : PartByPart (branch e) where
  nil := by rw [branch]
  cons t := by
    cases t with
    | token u => exact ⟨pure (.token u), fun ts => by rw [branch, pure_bind]⟩
    | node r l ps =>
      by_cases hr : r = .block
      · subst hr
        exact ⟨inOwnScope (statements e .open ps) >>= fun body => pure (.node .block l body),
          fun ts => by rw [branch]; simp only [bind_assoc, pure_bind]⟩
      · exact ⟨condition e (.node r l ps), fun ts => branch_other hr⟩
  mirrors k ts := (blocksMirror ts).branch (.refl e [])

theorem branches_partByPart (e : Env) : PartByPart (branches e) where
  nil := by rw [branches]
  cons t := by
    cases t with
    | token u => exact ⟨pure (.token u), fun ts => by rw [branches, pure_bind]⟩
    | node r l ps =>
      by_cases hb : r = .block
      · subst hb
        exact ⟨inOwnScope (statements e .open ps) >>= fun body => pure (.node .block l body),
          fun ts => by rw [branches]; simp only [bind_assoc, pure_bind]⟩
      by_cases he : r = .elifBlock
      · subst he
        exact ⟨branch e ps >>= fun inside => pure (.node .elifBlock l inside),
          fun ts => by rw [branches]; simp only [bind_assoc, pure_bind]⟩
      by_cases hl : r = .elseBlock
      · subst hl
        exact ⟨blockOf e ps >>= fun body => pure (.node .elseBlock l (Tree.putFirst .block body ps)),
          fun ts => by rw [branches]; simp only [bind_assoc, pure_bind]⟩
      exact ⟨condition e (.node r l ps), fun ts => branches_other hb he hl⟩
  mirrors k ts := (blocksMirror ts).branches (fun q _ => blocksMirror q.parts) (.refl e [])

theorem handlers_partByPart (e : Env) : PartByPart (handlers e) where
  nil := by rw [handlers]
  cons t := by
    cases t with
    | token u => exact ⟨pure (.token u), fun ts => rfl⟩
    | node r l ps =>
      by_cases hb : r = .block
      · subst hb
        exact ⟨inOwnScope (statements e .open ps) >>= fun body => pure (.node .block l body),
          fun ts => by rw [handlers]; simp only [bind_assoc, pure_bind]⟩
      by_cases hc : r = .catchBlock
      · subst hc
        exact ⟨push >>= fun _ => declareOutput (.node .catchBlock l ps) .anyObject >>= fun _ =>
            bodyOf e ps >>= fun body => pop >>= fun _ => pure (.node .catchBlock l (Tree.putFirst .block body ps)),
          fun ts => by rw [handlers]; simp only [bind_assoc, pure_bind]⟩
      by_cases hf : r = .finallyBlock
      · subst hf
        exact ⟨blockOf e ps >>= fun body => pure (.node .finallyBlock l (Tree.putFirst .block body ps)),
          fun ts => by rw [handlers]; simp only [bind_assoc, pure_bind]⟩
      exact ⟨pure (.node r l ps), fun ts => by rw [handlers_other hb hc hf, pure_bind]⟩
  mirrors k ts := (blocksMirror ts).handlers (fun q _ => blocksMirror q.parts) (.refl e [])

/-! ## Branches -/

/-- The check of the parts of a statement with branches. -/
inductive ChecksRow (e : Env) : Rule → (List Tree → Check (List Tree)) → Prop where
  | ifBlock : ChecksRow e .ifBlock (branches e)
  | tryBlock : ChecksRow e .tryBlock (handlers e)

theorem ChecksRow.partByPart {row : List Tree → Check (List Tree)} (h : ChecksRow e rule row) : PartByPart row := by
  cases h with
  | ifBlock => exact branches_partByPart e
  | tryBlock => exact handlers_partByPart e

theorem ChecksRow.statement {row : List Tree → Check (List Tree)} (h : ChecksRow e rule row) :
    statement e (.node rule line ps) = row ps >>= fun ps => pure (.node rule line ps) := by
  cases h <;> rw [Check.statement]

/-- What is made of a frame that is kept but for its block. -/
theorem remakes_self (f : Frame) : Remakes f l fun ts => f.around (.node .block l ts) :=
  ⟨f, rfl, .inl rfl, fun _ => rfl⟩

/-- What is made of a block in a row. -/
def RemakesBlock (l : Option Coord) (part : List Tree → Tree) : Prop := part = fun ts => .node .block l ts

/-- A block among the parts of a statement with branches, or of an `else if`. -/
theorem encloses_block {row : List Tree → Check (List Tree)} (hrow : PartByPart row) (he : ∀ s, entry e s)
    (hblock : ∀ ts, row [.node .block l ts] =
      inOwnScope (statements e .open ts) >>= fun made => pure [.node .block l made]) :
    Encloses k k k entry (RemakesRow front.length (RemakesBlock l))
      fun ts => row (front ++ .node .block l ts :: back) := by
  refine hrow.encloses ?_
  simp only [hblock]
  exact encloses_inOwnScope (fun made => [Tree.node .block l made]) ⟨_, rfl, rfl⟩ he

/-- A branch that is a block with something in front of it. -/
theorem encloses_blockOf {rule : Rule} {shape : (List Tree → α) → Prop} (put : Tree → α) (he : ∀ s, entry e s)
    (hno : ∀ p ∈ front, p.isA .block = false)
    (hs : shape fun made => put (.node rule line (front ++ .node .block l made :: back))) :
    Encloses k k k entry shape fun ts => blockOf e (front ++ .node .block l ts :: back) >>= fun body =>
      pure (put (.node rule line (Tree.putFirst .block body (front ++ .node .block l ts :: back)))) := by
  simp only [blockOf_cut hno, bind_assoc, pure_bind, putFirst_cut hno]
  exact encloses_inOwnScope (fun made => put (.node rule line (front ++ .node .block l made :: back))) hs he

/-- A branch of an `if` or a `try` encloses its block. -/
theorem encloses_branch {row : List Tree → Check (List Tree)} (hrow : ChecksRow e rule row)
    (hr : rule.Branches f.rule) (hf : f.OwnsBlock g) :
    Encloses k k k (Comes e f l) (RemakesOne (Remakes f l)) fun ts => row [f.around (.node .block l ts)] := by
  obtain ⟨rule', line, front, back⟩ := f
  have hno := hf.noBlock
  have hstart := hf.start
  have hself : RemakesOne (Remakes ⟨rule', line, front, back⟩ l) fun made =>
      [.node rule' line (front ++ .node .block l made :: back)] := ⟨_, rfl, remakes_self _⟩
  dsimp only at hno hstart hr
  cases hr with
  | elifBlock =>
    cases hrow
    have hrun : ∀ ts, branches e [.node .elifBlock line (front ++ .node .block l ts :: back)] =
        branch e (front ++ .node .block l ts :: back) >>= fun inside => pure [.node .elifBlock line inside] := by
      intro ts
      rw [branches]
      simp only [branches, pure_bind]
    have hinside : Encloses k k k (Comes e ⟨.elifBlock, line, front, back⟩ l)
        (RemakesRow front.length (RemakesBlock l)) fun ts => branch e (front ++ .node .block l ts :: back) :=
      encloses_block (branch_partByPart e) (comes_self (by simp)) fun ts => by
        rw [branch]
        simp only [branch, pure_bind]
    simp only [Frame.around, hrun]
    refine hinside.map ?_
    rintro _ ⟨front', _, back', rfl, -, rfl⟩
    exact ⟨_, rfl, ⟨.elifBlock, line, front', back'⟩, rfl, .inl rfl, by simp⟩
  | elseBlock =>
    cases hrow
    have hrun : ∀ ts, branches e [.node .elseBlock line (front ++ .node .block l ts :: back)] =
        blockOf e (front ++ .node .block l ts :: back) >>= fun body => pure [.node .elseBlock line
          (Tree.putFirst .block body (front ++ .node .block l ts :: back))] := by
      intro ts
      rw [branches]
      simp only [branches, pure_bind]
    simp only [Frame.around, hrun]
    exact encloses_blockOf (fun t => [t]) (comes_self (by simp)) hno hself
  | catchBlock =>
    cases hrow
    have hrun : ∀ ts, handlers e [.node .catchBlock line (front ++ .node .block l ts :: back)] =
        (push >>= fun _ => declareOutput (.node .catchBlock line (front ++ .node .block l [] :: back)) .anyObject) >>=
          fun _ => statements e .open ts >>= fun made => pop >>= fun _ =>
          pure [.node .catchBlock line (front ++ .node .block l made :: back)] := by
      intro ts
      rw [handlers]
      simp only [handlers, declareOutput, line?_cut hstart, Tree.parts, outputNames_cut, bodyOf_cut hno, bind_assoc,
        pure_bind, putFirst_cut hno]
    simp only [Frame.around, hrun]
    exact .of (fun _ => e) (fun _ made => [.node .catchBlock line (front ++ .node .block l made :: back)])
      (reflects_push.bind fun _ => mirrors_declareOutput _ _) (fun _ _ s _ => ⟨comes_self (by simp) s, hself⟩) fun _ => rfl
  | finallyBlock =>
    cases hrow
    have hrun : ∀ ts, handlers e [.node .finallyBlock line (front ++ .node .block l ts :: back)] =
        blockOf e (front ++ .node .block l ts :: back) >>= fun body => pure [.node .finallyBlock line
          (Tree.putFirst .block body (front ++ .node .block l ts :: back))] := by
      intro ts
      rw [handlers]
      simp only [handlers, pure_bind]
    simp only [Frame.around, hrun]
    exact encloses_blockOf (fun t => [t]) (comes_self (by simp)) hno hself

end StoryLang.Check
