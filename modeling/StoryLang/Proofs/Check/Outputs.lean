/-
What a call in a list of statements makes known.

The names that its record lists are declared in the scope of the list, so that
they are variables wherever checking comes to behind the call: a path that
starts with one of them is checked as what it holds, and listening to one of
them uses no service. A call whose value is assigned keeps its names to itself.
-/
import StoryLang.Proofs.Check.Known.Statement
import StoryLang.Proofs.Check.Sight.Statement
import StoryLang.Proofs.Check.Stays
import StoryLang.Proofs.Fault
import StoryLang.Proofs.Script.Stands
import StoryLang.Story.Basic

namespace StoryLang

/-- Putting a node back does not change the first node of another rule. -/
theorem Tree.find?_putFirst {rule other : Rule} {new : Option Tree} (hn : ∀ t ∈ new, t.isA rule = true)
    (h : rule ≠ other) (ps : List Tree) :
    (putFirst rule new ps).find? (·.isA other) = ps.find? (·.isA other) := by
  induction ps with
  | nil => rfl
  | cons p ps ih =>
    cases new with
    | none => rfl
    | some n =>
      cases hp : p.isA rule with
      | true => simp [putFirst, hp, isA_ne hp h, isA_ne (hn n rfl) h]
      | false => simp [putFirst, hp, List.find?_cons, ih]

/-- A call in front of an `if` with a block. -/
def Tree.callInFront (fits : Tree → Bool) : Tree → Bool
  | .node .start none [call, .node .ifBlock _ [_, _, .node .block _ _]] => fits call
  | _ => false

namespace Check

variable {e : Env} {s s' : State} {t t' : Tree} {ts us : List Tree} {p q : Place} {n : String}

/-! ## The outputs stay -/

/-- Only a node for outputs is one after it was checked, and then it is as it was. -/
def OutputAlike (t t' : Tree) : Prop :=
  t'.isA .output = t.isA .output ∧ (t.isA .output = true → t' = t)

theorem OutputAlike.refl (t : Tree) : OutputAlike t t := ⟨rfl, fun _ => rfl⟩

/-- Neither is a node for outputs. -/
theorem OutputAlike.other (h : t.isA .output = false) (h' : t'.isA .output = false) : OutputAlike t t' where
  left := h'.trans h.symm
  right hout := by
    rw [h] at hout
    cases hout

/-- Both rows have the same outputs. -/
def OutputsAlike (ts ts' : List Tree) : Prop :=
  ts'.find? (·.isA .output) = ts.find? (·.isA .output)

theorem OutputsAlike.trans {vs : List Tree} (h : OutputsAlike ts us) (h' : OutputsAlike us vs) :
    OutputsAlike ts vs :=
  Eq.trans h' h

theorem OutputsAlike.cons (h : OutputAlike t t') (hs : OutputsAlike ts us) :
    OutputsAlike (t :: ts) (t' :: us) := by
  unfold OutputsAlike at hs ⊢
  rw [List.find?_cons, List.find?_cons, h.1, hs]
  split
  · rw [h.2 ‹_›]
  · rfl

theorem gives_argumentsOf (e : Env) (ts : List Tree) :
    Gives (fun out => ∀ t ∈ out.1, t.isA .arguments = true) (argumentsOf e ts) := by
  induction ts with
  | nil => exact gives_pure fun t ht => by cases ht
  | cons t ts ih =>
    cases t with
    | token u => exact ih
    | node rule line ps =>
      by_cases hr : rule = .arguments
      · subst hr
        unfold argumentsOf
        refine .after fun out => gives_pure ?_
        rintro _ ⟨⟩
        rfl
      · rw [argumentsOf_other hr]
        exact ih

theorem gives_blockOf (e : Env) (ts : List Tree) :
    Gives (fun body => ∀ t ∈ body, t.isA .block = true) (blockOf e ts) := by
  induction ts with
  | nil => exact gives_pure fun t ht => by cases ht
  | cons t ts ih =>
    cases t with
    | token u => exact ih
    | node rule line ps =>
      by_cases hr : rule = .block
      · subst hr
        unfold blockOf
        refine .after fun out => gives_pure ?_
        rintro _ ⟨⟩
        rfl
      · rw [blockOf_other hr]
        exact ih

theorem gives_links (e : Env) (ty : Ty) (ts : List Tree) :
    Gives (fun out => OutputsAlike ts out.1) (links e ty ts) := by
  induction ts generalizing ty with
  | nil => exact gives_pure rfl
  | cons t ts ih =>
    cases t with
    | token u =>
      unfold links
      exact (ih ty).bind fun out hout => gives_pure (.cons (.refl _) hout)
    | node rule line ps =>
      by_cases hr : rule = .mutationFragment
      · subst hr
        unfold links
        refine .after fun _ => .after fun ty => ?_
        exact (ih ty).bind fun out hout => gives_pure (.cons (.other rfl rfl) hout)
      · rw [links_other hr]
        exact (ih ty).bind fun out hout => gives_pure (.cons (.refl _) hout)

/-- What goes into the link of a mutation is no output. -/
theorem outputsAlike_asMutation (subject : Tree) (ts : List Tree) :
    OutputsAlike (subject :: ts) (asMutation subject ts) := by
  have hfilter : (ts.filter (!inLink ·)).find? (·.isA .output) = ts.find? (·.isA .output) := by
    rw [List.find?_filter]
    congr 1
    funext t
    cases hout : t.isA .output with
    | false => simp
    | true =>
      have hargs := Tree.isA_ne hout (show Rule.output ≠ .arguments by simp)
      obtain ⟨_, _, rfl⟩ := Tree.isA_iff.1 hout
      simp [inLink, hargs, Tree.isNode]
  have hlink : Tree.isA .output (.of .mutationFragment (ts.filter inLink)) = false := rfl
  unfold OutputsAlike asMutation
  rw [List.find?_cons, List.find?_cons, List.find?_cons, hlink, hfilter]

theorem outputsAlike_arguments {given : Option Tree} (h : ∀ t ∈ given, t.isA .arguments = true)
    (ts : List Tree) : OutputsAlike ts (Tree.putFirst .arguments given ts) :=
  Tree.find?_putFirst h (by simp) ts

theorem gives_value (e : Env) (t : Tree) : Gives (fun out => OutputAlike t out.1) (value e t) := by
  cases t with
  | token u => exact gives_pure (.other rfl rfl)
  | node rule line ps =>
    cases rule with
    | list | map | expressionStatement | mutation =>
      unfold value
      exact .after fun _ => gives_pure (.other rfl rfl)
    | binaryExpression | unaryExpression | cast | functionCall =>
      unfold value
      exact .after fun _ => .after fun _ => gives_pure (.other rfl rfl)
    | path =>
      unfold value
      split
      · exact gives_pure (.other rfl rfl)
      · refine .after fun found => ?_
        split
        · exact .after fun _ => gives_pure (.other rfl rfl)
        · exact .after fun _ => gives_pure (.other rfl rfl)
    | serviceCall =>
      unfold value
      split
      · exact gives_pure (.other rfl rfl)
      · split
        · exact gives_pure (.other rfl rfl)
        · dsimp only
          refine .after fun found => ?_
          split
          · split
            · exact .after fun _ => .after fun _ => gives_pure (.other rfl rfl)
            · exact .after fun _ => .after fun _ => gives_pure (.other rfl rfl)
          · split
            · exact .after fun _ => gives_pure (.other rfl rfl)
            · exact .after fun _ => gives_pure (.other rfl rfl)
    | _ => exact gives_pure (.refl _)

theorem gives_mutation (e : Env) (ts : List Tree) :
    Gives (fun out => OutputsAlike ts out.1) (mutation e ts) := by
  induction ts with
  | nil => exact gives_pure rfl
  | cons t ts ih =>
    cases t with
    | token u =>
      unfold mutation
      exact ih.bind fun out hout => gives_pure (.cons (.refl _) hout)
    | node rule line ps =>
      unfold mutation
      refine (gives_value e _).bind fun first hfirst => ?_
      exact (gives_links e first.2 ts).bind fun out hout => gives_pure (.cons hfirst hout)

theorem gives_callAsMutation (e : Env) (ts : List Tree) :
    Gives (fun out => OutputsAlike ts out.1) (callAsMutation e ts) := by
  cases ts with
  | nil => exact gives_pure rfl
  | cons t ts =>
    cases t with
    | token u =>
      unfold callAsMutation
      refine (gives_links e .any ts).bind fun out hout => gives_pure ?_
      exact (OutputsAlike.cons (.refl _) hout).trans (outputsAlike_asMutation _ _)
    | node rule line ps =>
      unfold callAsMutation
      refine (gives_value e _).bind fun first hfirst => ?_
      refine (gives_argumentsOf e ts).bind fun given hgiven => .after fun ty => ?_
      refine (gives_links e ty ts).bind fun out hout => gives_pure ?_
      have hput := outputsAlike_arguments hgiven out.1
      exact (OutputsAlike.cons hfirst (hout.trans hput)).trans (outputsAlike_asMutation _ _)

/-- A call stays a call or becomes a mutation, and a mutation stays one, with the same outputs. -/
theorem gives_called {rule : Rule} {line : Option Coord} {ps : List Tree}
    (hr : rule = .serviceCall ∨ rule = .mutation) :
    Gives (fun out => ∃ rule' line' ps', out.1 = .node rule' line' ps' ∧
      (rule' = .serviceCall ∨ rule' = .mutation) ∧ OutputsAlike ps ps') (value e (.node rule line ps)) := by
  have given : ∀ {f : Option Tree × List Supplied → Check Ty},
      Gives (fun out : Tree × Ty => ∃ rule' line' ps', out.1 = .node rule' line' ps' ∧
        (rule' = .serviceCall ∨ rule' = .mutation) ∧ OutputsAlike ps ps')
        (argumentsOf e ps >>= fun given => f given >>= fun ty =>
          pure (.node .serviceCall line (Tree.putFirst .arguments given.1 ps), ty)) :=
    (gives_argumentsOf e ps).bind fun given hgiven => .after fun ty =>
      gives_pure ⟨_, _, _, rfl, .inl rfl, outputsAlike_arguments hgiven ps⟩
  rcases hr with rfl | rfl
  · unfold value
    split
    · exact gives_pure ⟨_, _, _, rfl, .inl rfl, rfl⟩
    · split
      · exact gives_pure ⟨_, _, _, rfl, .inl rfl, rfl⟩
      · dsimp only
        refine .after fun found => ?_
        split
        · split
          · exact .after fun _ => given (f := fun _ => pure .any)
          · exact given
        · split
          · exact given (f := fun _ => pure .any)
          · refine (gives_callAsMutation e ps).bind fun out hout => ?_
            exact gives_pure ⟨_, _, _, rfl, .inr rfl, hout⟩
  · unfold value
    exact (gives_mutation e ps).bind fun out hout => gives_pure ⟨_, _, _, rfl, .inr rfl, hout⟩

/-! ## The outputs are declared -/

/-- The names that are declared are in the scope on top. -/
theorem declareAll_top {line : Option Coord} {names : List Token} {tys : List Ty} {u : Unit}
    (h : declareAll line names tys s = .ok (u, s')) :
    ∀ name ∈ names, (s'.scopes.top.get? name.literal).isSome = true := by
  induction names generalizing s tys with
  | nil => exact List.forall_mem_nil _
  | cons first names ih =>
    obtain ⟨_, t, hfirst, h⟩ := bind_ok_iff.1 h
    have hgrow := keeps_declareAll (T := growing) t u s' h
    have hin : (t.scopes.top.get? first.literal).isSome = true := by
      unfold declare at hfirst
      split at hfirst
      · rename_i scopes hscopes
        obtain ⟨-, rfl⟩ := Prod.mk.inj (Except.ok.inj hfirst)
        have hnew : scopes.top.get? first.literal = some _ := (Scopes.top_declare hscopes).2
        simp [hnew]
      · rename_i existing hexisting
        obtain ⟨-, rfl⟩ := Prod.mk.inj (Except.ok.inj hfirst)
        have hfound : s.scopes.top.get? first.literal = some existing := Scopes.top_declare_error hexisting
        simp [hfound]
    rintro name (_ | ⟨_, hm⟩)
    · exact hgrow.top _ hin
    · exact ih h name hm

/-- A call in a list of statements declares its outputs in the scope of the list, and its tree has
the same outputs afterwards. -/
theorem statement_called {rule : Rule} {line : Option Coord} {ps : List Tree}
    (hr : rule = .serviceCall ∨ rule = .mutation)
    (h : statement e (.node rule line ps) s = .ok (t', s')) :
    (∃ rule' line' ps', t' = .node rule' line' ps' ∧ (rule' = .serviceCall ∨ rule' = .mutation) ∧
      OutputsAlike ps ps') ∧
    ∀ name ∈ outputNames ps, (s'.scopes.top.get? name.literal).isSome = true := by
  rw [statement_call hr] at h
  obtain ⟨out, u, hvalue, h⟩ := bind_ok_iff.1 h
  obtain ⟨rule', line', ps', hout, hr', halike⟩ := gives_called hr s out u hvalue
  obtain ⟨t, ty⟩ := out
  obtain rfl : t = .node rule' line' ps' := hout
  obtain ⟨_, v, hdeclare, h⟩ := bind_ok_iff.1 h
  obtain ⟨body, w, hbody, h⟩ := bind_ok_iff.1 h
  obtain ⟨rfl, rfl⟩ := Prod.mk.inj (Except.ok.inj h)
  have hput : OutputsAlike ps' (Tree.putFirst .block body ps') :=
    Tree.find?_putFirst (gives_blockOf e ps v body w hbody) (by simp) ps'
  refine ⟨⟨rule', line', _, rfl, hr', halike.trans hput⟩, fun name hm => ?_⟩
  have hnames : outputNames ps' = outputNames ps := by
    unfold outputNames
    rw [halike]
  have hgrow : Keeps growing.toReporting (blockOf e ps) := (BodyKeeps.of fun p _ => treeKeeps roots_any p trivial).blockOf e
  exact (hgrow v body w hbody).top _ (declareAll_top hdeclare name (hnames ▸ hm))

/-- The record of a call lists the outputs of its tree. -/
theorem recordOf_called {rule : Rule} {own : Option Coord} {ps : List Tree} {line : Coord} {r : Record}
    (hr : rule = .serviceCall ∨ rule = .mutation)
    (h : Script.recordOf line (.node rule own ps) = .ok r) : r.output = Script.outputNames ps := by
  rcases hr with rfl | rfl
  · obtain ⟨service, -, h⟩ := ok_of_bind h
    obtain ⟨args, -, h⟩ := ok_of_bind h
    exact Except.ok.inj h ▸ rfl
  · obtain ⟨subject, -, h⟩ := ok_of_bind h
    obtain ⟨links, -, h⟩ := ok_of_bind h
    exact Except.ok.inj h ▸ rfl

/-! ## Assignments -/

theorem Logs.scopes {α : Type} {codes : Code → Bool} {r : Option Registry} {x : Check α} {v : α}
    (h : Logs codes r x) (hx : x s = .ok (v, s')) : s'.scopes = s.scopes := by
  have h := h s
  rw [hx] at h
  exact h.1.1

/-- Checking a value leaves the scopes as they are. -/
theorem value_scopes {out : Tree × Ty} (h : value e t s = .ok (out, s')) : s'.scopes = s.scopes := by
  have hmirror := (Env.Sees.refl e s.scopes.inner).value t _ _ _ s s (.refl s (show s.scopes.inner = [] ++ s.scopes.inner from rfl))
  rw [h] at hmirror
  cases hmirror with
  | ok hm =>
    obtain ⟨top, htop, hscopes, -⟩ := hm.2.scopes
    obtain rfl := List.length_eq_zero_iff.1 htop
    exact hscopes

theorem nodeValue_scopes {i : Nat} {ps : List Tree} {out : Option Tree × Ty}
    (h : nodeValue e i ps s = .ok (out, s')) : s'.scopes = s.scopes := by
  unfold nodeValue at h
  cases ht : (ps.filter Tree.isNode)[i]? with
  | none =>
    rw [ht] at h
    obtain ⟨-, rfl⟩ := Prod.mk.inj (Except.ok.inj h)
    rfl
  | some t =>
    rw [ht] at h
    obtain ⟨made, u, hvalue, h⟩ := bind_ok_iff.1 h
    obtain ⟨-, rfl⟩ := Prod.mk.inj (Except.ok.inj h)
    exact value_scopes hvalue

/-- Only the name that is declared becomes known. -/
theorem knows_of_declare {name : String} {ty : Ty} {line : Option Coord} {place : Position} {u : Unit}
    (h : declare name ty line place s = .ok (u, s')) (hn : e.Knows s'.scopes n) :
    e.Knows s.scopes n ∨ n = name := by
  unfold declare at h
  split at h
  · rename_i scopes hscopes
    obtain ⟨-, rfl⟩ := Prod.mk.inj (Except.ok.inj h)
    exact hn.of_declare hscopes
  · have hlogs : ∀ existing : Binding,
        Logs Code.ofStory none (report .alreadyDeclared [name, existing.lineText] (some place)) :=
      fun _ => reports_report rfl
    exact .inl ((hlogs _).scopes h ▸ hn)

/-- By an assignment only the name that is assigned to becomes known, whatever its value lists. -/
theorem Place.Passes.assigned {own : Option Coord} {ps : List Tree}
    (h : p.Passes (.node .assignment own ps) q) (hn : q.Knows n) :
    p.Knows n ∨ ∃ path name, ps.find? Tree.isNode = some path ∧ path.firstToken? = some name ∧ name.literal = n := by
  obtain ⟨s, t', s', hs, hx, rfl⟩ := h
  rw [Place.Knows, ← hs]
  unfold statement at hx
  obtain ⟨made, u, hassigned, hx⟩ := bind_ok_iff.1 hx
  obtain ⟨-, rfl⟩ := Prod.mk.inj (Except.ok.inj hx)
  obtain ⟨source, v, hsource, hassigned⟩ := bind_ok_iff.1 hassigned
  rw [← nodeValue_scopes hsource]
  dsimp only at hassigned
  rw [find?_putNode_succ] at hassigned
  cases hpath : ps.find? Tree.isNode with
  | none =>
    rw [hpath] at hassigned
    obtain ⟨-, rfl⟩ := Prod.mk.inj (Except.ok.inj hassigned)
    exact .inl hn
  | some path =>
    rw [hpath] at hassigned
    dsimp only at hassigned
    cases hroot : path.firstToken? with
    | none =>
      rw [hroot] at hassigned
      obtain ⟨-, rfl⟩ := Prod.mk.inj (Except.ok.inj hassigned)
      exact .inl hn
    | some name =>
      rw [hroot] at hassigned
      dsimp only at hassigned
      split at hassigned
      · -- a part of a variable is checked as a value
        obtain ⟨target, w, htarget, hassigned⟩ := bind_ok_iff.1 hassigned
        obtain ⟨_, w', hfits, hassigned⟩ := bind_ok_iff.1 hassigned
        obtain ⟨-, rfl⟩ := Prod.mk.inj (Except.ok.inj hassigned)
        rw [← value_scopes htarget, ← (reports_assignable (r := none)).scopes hfits]
        exact .inl hn
      · obtain ⟨found, w, hlook, hassigned⟩ := bind_ok_iff.1 hassigned
        have hlook : v = w := (Prod.mk.inj (Except.ok.inj hlook)).2
        subst hlook
        cases found with
        | some binding =>
          obtain ⟨_, w, hfits, hassigned⟩ := bind_ok_iff.1 hassigned
          obtain ⟨-, rfl⟩ := Prod.mk.inj (Except.ok.inj hassigned)
          rw [← (reports_assignable (r := none)).scopes hfits]
          exact .inl hn
        | none =>
          obtain ⟨u', w, hdeclare, hassigned⟩ := bind_ok_iff.1 hassigned
          obtain ⟨-, rfl⟩ := Prod.mk.inj (Except.ok.inj hassigned)
          exact (knows_of_declare hdeclare hn).imp_right fun hn => ⟨path, name, rfl, hroot, hn.symm⟩

/-! ## What is known is no service -/

/-- A path that starts with a known name is checked as what the name holds. -/
theorem value_known {line : Option Coord} {ps : List Tree} {root : Token} {b : Binding}
    (hroot : Tree.firstTokenOf? ps = some root) (hb : e.found s.scopes root.literal = some b) :
    value e (.node .path line ps) s =
      (fragments e b.ty ps >>= fun out => pure (.node .path line out.1, out.2)) s := by
  have hlook : lookup e root.literal s = .ok (some b, s) := by rw [lookup_eq, hb]
  unfold value
  simp only [hroot, Bind.bind, StateT.bind, Except.bind, hlook]

/-- Listening to a known name notes no service. -/
theorem listening_known {root : Token} {event : Option Token} {supplied : List Supplied} {ty : Ty}
    {b : Binding} (hb : e.found s.scopes root.literal = some b)
    (h : listening e root event supplied s = .ok (ty, s')) : s'.services = s.services := by
  rw [listening_eq] at h
  obtain ⟨found, t, hlook, h⟩ := bind_ok_iff.1 h
  rw [lookup_eq, hb] at hlook
  obtain ⟨rfl, rfl⟩ := Prod.mk.inj (Except.ok.inj hlook)
  have hquiet := @reports_heard e root event supplied b.ty s
  have h : heard e root event supplied (some b.ty) s = .ok (ty, s') := h
  rw [h] at hquiet
  exact hquiet.1.2

/-- Where the statements of a story are checked. -/
def Place.start (features : Features) (registry : Option Registry) (functions : NameMap Signature)
    (root : Scope) : Place :=
  ⟨{ features, registry, functions, body := none }, (Scopes.ofRoot root).push⟩

/-- Wherever a story has a call in a list of statements, each name that the record of the call
lists is a variable wherever checking comes to behind it, save in the body of a function that
does not see what is around it. A path that starts with the name is checked as what the name
holds, so that the name is not reported, and listening to it notes no service. -/
theorem outputs_known {features : Features} {registry : Option Registry}
    {functions : NameMap Signature} {root : Scope} {trees rest : List Tree} {call call' : Tree}
    (hp : Reaches (fun _ _ => True) (.start features registry functions root) trees p (call :: rest))
    (hc : call.isA .serviceCall = true ∨ call.isA .mutation = true) (hs : s.scopes = p.scopes)
    (h : statement p.env call s = .ok (call', s')) {line : Coord} {r : Record}
    (hr : Script.recordOf line call' = .ok r) (hn : n ∈ r.output)
    (hq : Reaches Place.SeenIn ⟨p.env, s'.scopes⟩ rest q us) :
    ∃ b, q.env.found q.scopes n = some b ∧ ∀ v : State, v.scopes = q.scopes → ∀ name : Token, name.literal = n →
      (∀ own ps, Tree.firstTokenOf? ps = some name → value q.env (.node .path own ps) v =
        (fragments q.env b.ty ps >>= fun out => pure (.node .path own out.1, out.2)) v) ∧
      ∀ event supplied ty v', listening q.env name event supplied v = .ok (ty, v') →
        v'.services = v.services := by
  obtain ⟨rule, own, ps, rfl, hrule⟩ : ∃ rule own ps, call = .node rule own ps ∧
      (rule = .serviceCall ∨ rule = .mutation) := by
    rcases hc with hc | hc
    · obtain ⟨own, ps, rfl⟩ := Tree.isA_iff.1 hc
      exact ⟨_, own, ps, rfl, .inl rfl⟩
    · obtain ⟨own, ps, rfl⟩ := Tree.isA_iff.1 hc
      exact ⟨_, own, ps, rfl, .inr rfl⟩
  obtain ⟨⟨rule', own', ps', rfl, hrule', halike⟩, hdeclared⟩ := statement_called hrule h
  -- the name is one that the call declares
  have hout : r.output = Script.outputNames ps := by
    rw [recordOf_called hrule' hr, Script.outputNames, Script.outputNames, halike]
  rw [hout, outputNames_eq] at hn
  obtain ⟨name, hname, rfl⟩ := List.mem_map.1 hn
  -- so it is known behind the call, and from there on
  have hstart : (Place.start features registry functions root).Opened := fun _ hbody => by cases hbody
  have hpassed : p.Passes (.node rule own ps) ⟨p.env, s'.scopes⟩ := ⟨s, _, s', hs, h, rfl⟩
  have hopened := hpassed.opened (hp.opened hstart)
  have hknown := hq.knows (hopened.knows (hdeclared name hname))
  obtain ⟨b, hb⟩ := Option.isSome_iff_exists.1 hknown
  refine ⟨b, hb, fun v hv name' hn' => ⟨fun own ps hroot => ?_, fun event supplied ty v' hlisten => ?_⟩⟩
  · exact value_known hroot (by rw [hv, hn', hb])
  · exact listening_known (by rw [hv, hn', hb]) hlisten

/-- The output of a call is read in a block behind it. -/
theorem outputs_known_block : ∃ (trees rest body : List Tree) (call call' : Tree) (p q : Place)
    (s s' : State) (r : Record),
    (Story.unnamed "s c as a\nif true\n    x = a\n").tree .standard true = .ok (.of .start trees) ∧
    Reaches (fun _ _ => True) (.start .off none .empty .empty) trees p (call :: rest) ∧
    s.scopes = p.scopes ∧ statement p.env call s = .ok (call', s') ∧
    Script.recordOf ⟨1, 0⟩ call' = .ok r ∧ "a" ∈ r.output ∧
    Reaches Place.SeenIn ⟨p.env, s'.scopes⟩ rest q body ∧ q.scopes.depth ≠ p.scopes.depth ∧
    ∃ b, q.env.found q.scopes "a" = some b := by
  let p := Place.start .off none .empty .empty
  let s : State := ⟨p.scopes, [], .empty⟩
  have h : ((Story.unnamed "s c as a\nif true\n    x = a\n").tree .standard true).toOption.any (fun t =>
      t.callInFront fun call => call.isA .serviceCall && (statement p.env call s).toOption.any fun out =>
        (Script.recordOf ⟨1, 0⟩ out.1).toOption.any fun r => r.output.contains "a") = true := by
    decide +kernel
  obtain ⟨t, ht, h⟩ := (Option.any_eq_true _ _).1 h
  rw [toOption_eq_some] at ht
  unfold Tree.callInFront at h
  split at h
  · rename_i call line word condition l body
    obtain ⟨hcall, h⟩ := Bool.and_eq_true_iff.1 h
    obtain ⟨⟨call', s'⟩, hstatement, h⟩ := (Option.any_eq_true _ _).1 h
    obtain ⟨r, hr, h⟩ := (Option.any_eq_true _ _).1 h
    rw [toOption_eq_some] at hstatement hr
    have hn : "a" ∈ r.output := by simpa using h
    let q : Place := ⟨p.env, s'.scopes.push⟩
    have hq : Reaches Place.SeenIn ⟨p.env, s'.scopes⟩ [.node .ifBlock line [word, condition, .node .block l body]] q body :=
      .inside (List.mem_cons_of_mem _ (List.mem_cons_of_mem _ List.mem_cons_self)) (fun hf => by cases hf)
        ⟨s', p.env.body, { s' with scopes := s'.scopes.push }, rfl, rfl, rfl⟩ .here
    obtain ⟨b, hb, -⟩ := outputs_known (p := p) .here (.inl hcall) rfl hstatement hr hn hq
    refine ⟨_, _, body, call, call', p, q, s, s', r, ht, .here, rfl, hstatement, hr, hn, hq, ?_, b, hb⟩
    have hlength : p.scopes.inner.length = s'.scopes.inner.length :=
      (keeps_statement growing p.env call s call' s' hstatement).length
    simp only [q, Scopes.depth, Scopes.push, List.length_cons]
    omega
  · cases h

/-- What a call lists whose value is assigned is unknown behind the assignment. -/
theorem outputs_unknown : ∃ c r,
    ((Story.unnamed "x = s c as a\n").compile .standard).compiled = some c ∧
    c.script.records = [r] ∧ "a" ∈ r.output ∧
    ((Story.unnamed "x = s c as a\ny = a\n").compile .standard).errors.map (fun d => (d.code, d.text)) =
      [(.unknownVariable, "Unknown variable `a`")] := by
  have hc : ((Story.unnamed "x = s c as a\n").compile .standard).compiled.map (fun c =>
      c.script.records.map (·.output)) = some [["a"]] := by
    decide +kernel
  obtain ⟨c, hc, hrecords⟩ := Option.map_eq_some_iff.1 hc
  obtain ⟨r, rest, hrs, hr, hrest⟩ := List.map_eq_cons_iff.1 hrecords
  obtain rfl := List.map_eq_nil_iff.1 hrest
  exact ⟨c, r, hc, hrs, by rw [hr]; exact List.mem_cons_self, by decide +kernel⟩

end Check

end StoryLang
