/-
What a script names is not empty.

A name of a story has letters, and so has the text of a type. So the names in
the values of a plain tree are not empty, nor are those that its records say
something of.
-/
import StoryLang.Proofs.Script.Concise
import StoryLang.Proofs.Script.Record

namespace StoryLang

variable {P : Token → Prop} {g : Grammar} {t : Tree} {ps : List Tree}

/-- Every token in the tree that is no string has a text. -/
def Tree.Spelt (t : Tree) : Prop := ∀ u ∈ t.yield, u.kind ≠ .string → u.literal ≠ ""

theorem Tree.Spelt.part (h : t.Spelt) {p : Tree} (hp : p ∈ t.parts) : p.Spelt := by
  cases t with
  | token u => cases hp
  | node rule line ps => exact fun u hu => h u (by rw [yield]; exact mem_yieldAll hp hu)

theorem Tree.Spelt.token {u : Token} (h : (Tree.token u).Spelt) (hu : u.kind ≠ .string) :
    u.literal ≠ "" :=
  h u (by simp [yield]) hu

namespace Value

mutual

theorem named_ofTypes : ∀ t : Tree, (ofTypes t).Named
  | .token _ => trivial
  | .node _ _ ps => allNamed_ofTypesParts ps

theorem allNamed_ofTypesParts : ∀ ps : List Tree, AllNamed (ofTypesParts ps)
  | [] => trivial
  | .token _ :: ts => allNamed_ofTypesParts ts
  | .node r l ps :: ts => ⟨named_ofTypes (.node r l ps), allNamed_ofTypesParts ts⟩

end

theorem named_ofNumber {u : Token} {v : Value} (h : ofNumber u = .ok v) : v.Named := by
  unfold ofNumber at h
  split at h
  · cases hn : Text.signed64? u.literal.toList with
    | none => simp [hn] at h
    | some n =>
      rw [hn] at h
      exact Except.ok.inj h ▸ trivial
  · cases hx : Binary64.literal? u.literal.toList with
    | none => simp [hx] at h
    | some x =>
      rw [hx] at h
      exact Except.ok.inj h ▸ trivial

theorem ofFirst_named (h : ∀ p ∈ ps, ∀ v, ofTree p = .ok v → v.Named) :
    ∀ n vs, ofFirst n ps = .ok vs → AllNamed vs := by
  induction ps with
  | nil =>
    intro n vs hv
    cases n <;> exact Except.ok.inj hv ▸ trivial
  | cons p ps ih =>
    simp only [List.forall_mem_cons] at h
    intro n vs hv
    cases p with
    | token u => exact ih h.2 n vs (by simpa [ofFirst] using hv)
    | node r l inner =>
      cases n with
      | zero => exact Except.ok.inj hv ▸ trivial
      | succ n =>
        unfold ofFirst at hv
        obtain ⟨v, hfirst, hv⟩ := ok_of_bind hv
        obtain ⟨rest, hrest, hv⟩ := ok_of_bind hv
        obtain rfl := Except.ok.inj hv
        exact ⟨h.1 v hfirst, ih h.2 n rest hrest⟩

theorem ofNode_named (h : ∀ p ∈ ps, ∀ v, ofTree p = .ok v → v.Named) :
    ∀ d v, ofNode d ps = .ok v → v.Named := by
  induction ps with
  | nil => exact fun d v hv => by cases hv
  | cons p ps ih =>
    simp only [List.forall_mem_cons] at h
    cases p with
    | token u => exact ih h.2
    | node r l inner => exact fun _ => h.1

/-- The values of a tree and of its parts name something. -/
structure Names (t : Tree) : Prop where
  value : ∀ v, ofTree t = .ok v → v.Named
  firsts : ∀ n vs, ofFirst n t.parts = .ok vs → AllNamed vs
  node : ∀ d v, ofNode d t.parts = .ok v → v.Named

theorem ofEntries_named (h : ∀ p ∈ ps, Names p) :
    ∀ vs, ofEntries ps = .ok vs → AllNamed vs := by
  induction ps with
  | nil => exact fun vs hv => Except.ok.inj hv ▸ trivial
  | cons p ps ih =>
    simp only [List.forall_mem_cons] at h
    intro vs hv
    cases p with
    | token u => exact ih h.2 vs (by simpa [ofEntries] using hv)
    | node r l inner =>
      unfold ofEntries at hv
      split at hv
      · cases hv
      · obtain ⟨pair, hpair, hv⟩ := ok_of_bind hv
        have hnamed := h.1.firsts 2 pair hpair
        split at hv
        · obtain ⟨rest, hrest, hv⟩ := ok_of_bind hv
          obtain rfl := Except.ok.inj hv
          exact ⟨⟨hnamed.1, hnamed.2.1⟩, ih h.2 rest hrest⟩
        · cases hv

theorem ofPathParts_named (ht : ∀ u, .token u ∈ ps → u.literal ≠ "") (hs : ∀ p ∈ ps, p.Spelt)
    (h : ∀ p ∈ ps, Names p) : ∀ vs, ofPathParts ps = .ok vs → AllNamed vs := by
  induction ps with
  | nil => exact fun vs hv => Except.ok.inj hv ▸ trivial
  | cons p ps ih =>
    simp only [List.forall_mem_cons] at h hs
    have ih := ih (fun u hu => ht u (by simp [hu])) hs.2 h.2
    intro vs hv
    cases p with
    | token u =>
      obtain ⟨rest, hrest, hv⟩ := ok_of_bind hv
      obtain rfl := Except.ok.inj hv
      exact ⟨ht u (by simp), ih rest hrest⟩
    | node r l inner =>
      have others : ∀ part : Value, part.Named → (do return part :: (← ofPathParts ps)) = .ok vs →
          AllNamed vs := by
        intro part hpart hv
        obtain ⟨rest, hrest, hv⟩ := ok_of_bind hv
        obtain rfl := Except.ok.inj hv
        exact ⟨hpart, ih rest hrest⟩
      unfold ofPathParts at hv
      dsimp only at hv
      split at hv
      · rename_i field hfield
        obtain ⟨p, hp, hfield'⟩ := List.mem_filterMap.1 (List.mem_of_find?_eq_some hfield)
        have hkind : field.kind = .name := by simpa using List.find?_some hfield
        obtain rfl : p = .token field := by
          cases p <;> simp_all [Tree.asToken?]
        have hne : field.literal ≠ "" := (hs.1.part hp).token (by simp [hkind])
        exact others (.name field.literal) hne hv
      · obtain ⟨part, hpart, hv⟩ := ok_of_bind hv
        exact others part (h.1.node _ part hpart) hv

/-- The first token of a path is a name. -/
theorem ofPath_named (hf : Formed P g .plain t) (ht : t.isA .path = true) (hs : t.Spelt)
    (h : ∀ p ∈ t.parts, Names p) :
    ∀ vs, ofPathParts t.parts = .ok vs → vs ≠ [] ∧ AllNamed vs := by
  obtain ⟨line, ps, rfl⟩ := Tree.isA_iff.1 ht
  cases hf with
  | node content own parts =>
    cases content with
    | @path _ root fs kind each =>
      intro vs hv
      refine ⟨?_, ofPathParts_named (fun u hu => ?_) (fun p hp => hs.part hp) h vs hv⟩
      · obtain ⟨rest, -, hv⟩ := ok_of_bind hv
        exact Except.ok.inj hv ▸ List.cons_ne_nil _ _
      · rcases List.mem_cons.1 hu with hu | hu
        · obtain rfl := Tree.token.inj hu
          exact (hs.part (p := .token u) (by simp [Tree.parts])).token (by simp [kind])
        · cases each _ hu

theorem names_of_formed (h : Formed P g .plain t) : t.Spelt → Names t := by
  induction h with
  | token u =>
    exact fun _ => ⟨fun v hv => (by cases hv), ofFirst_named (by simp [Tree.parts]),
      ofNode_named (by simp [Tree.parts])⟩
  | @node rule line ps content own parts ih =>
    intro hs
    have ih : ∀ p ∈ ps, Names p := fun p hp => ih p hp (hs.part hp)
    have hfirsts := ofFirst_named fun p hp => (ih p hp).value
    have hnode := ofNode_named fun p hp => (ih p hp).value
    refine ⟨fun v hv => ?_, hfirsts, hnode⟩
    cases rule with
    | path =>
      obtain ⟨vs, hvs, hv⟩ := ok_of_bind hv
      obtain rfl := Except.ok.inj hv
      exact (ofPath_named (.node content own parts) rfl hs ih vs hvs).2
    | number =>
      obtain ⟨u, -, hv⟩ := ok_of_bind hv
      exact named_ofNumber hv
    | list =>
      obtain ⟨vs, hvs, hv⟩ := ok_of_bind hv
      obtain rfl := Except.ok.inj hv
      exact hfirsts _ vs hvs
    | map =>
      obtain ⟨vs, hvs, hv⟩ := ok_of_bind hv
      obtain rfl := Except.ok.inj hv
      exact ofEntries_named ih vs hvs
    | binaryExpression =>
      obtain ⟨_, -, hv⟩ := ok_of_bind hv
      obtain ⟨vs, hvs, hv⟩ := ok_of_bind hv
      obtain ⟨_, -, hv⟩ := ok_of_bind hv
      obtain rfl := Except.ok.inj hv
      exact hfirsts _ vs hvs
    | unaryExpression =>
      obtain ⟨operator, -, hv⟩ := ok_of_bind hv
      split at hv
      · cases hv
      · obtain ⟨vs, hvs, hv⟩ := ok_of_bind hv
        obtain rfl := Except.ok.inj hv
        exact hfirsts _ vs hvs
    | cast =>
      obtain ⟨types, -, hv⟩ := ok_of_bind hv
      obtain ⟨v, hvs, hv⟩ := ok_of_bind hv
      obtain rfl := Except.ok.inj hv
      exact ⟨named_ofTypes types, hnode _ v hvs⟩
    | expressionStatement => exact hnode _ v hv
    | string | boolean =>
      obtain ⟨u, -, hv⟩ := ok_of_bind hv
      exact Except.ok.inj hv ▸ trivial
    | null => exact Except.ok.inj hv ▸ trivial
    | _ => cases hv

theorem allNamed_mapM {f : Tree → Except Fault Value} {ts : List Tree}
    (h : ∀ t ∈ ts, ∀ v, f t = .ok v → v.Named) : ∀ vs, ts.mapM f = .ok vs → AllNamed vs := by
  induction ts with
  | nil => exact fun vs hv => Except.ok.inj hv ▸ trivial
  | cons t ts ih =>
    simp only [List.forall_mem_cons] at h
    intro vs hv
    rw [List.mapM_cons] at hv
    obtain ⟨v, hfirst, hv⟩ := ok_of_bind hv
    obtain ⟨rest, hrest, hv⟩ := ok_of_bind hv
    obtain rfl := Except.ok.inj hv
    exact ⟨h.1 v hfirst, ih h.2 rest hrest⟩

/-- A plain tree in which what is no string has a text. -/
structure Legible (P : Token → Prop) (g : Grammar) (t : Tree) : Prop where
  formed : Formed P g .plain t
  spelt : t.Spelt

namespace Legible

variable {P : Token → Prop} {g : Grammar} {t : Tree} {ps : List Tree}

theorem names (h : Legible P g t) : Names t := names_of_formed h.formed h.spelt

theorem part (h : Legible P g t) {p : Tree} (hp : p ∈ t.parts) : Legible P g p := by
  refine ⟨?_, h.spelt.part hp⟩
  cases h.formed with
  | token u => cases hp
  | node _ _ parts => exact parts p hp

theorem find (h : ∀ p ∈ ps, Legible P g p) {q : Tree → Bool} {t : Tree} (hf : ps.find? q = some t) :
    Legible P g t :=
  h t (List.mem_of_find?_eq_some hf)

end Legible

theorem ofArguments_named (h : ∀ p ∈ ps, Legible P g p) :
    ∀ vs, ofArguments ps = .ok vs → AllNamed vs := by
  unfold ofArguments
  split
  · rename_i given hgiven
    have hgiven := Legible.find h hgiven
    refine allNamed_mapM fun t ht v hv => ?_
    have ht := hgiven.part (List.mem_filter.1 ht).1
    unfold ofArgument at hv
    split at hv
    · rename_i called value _ hvalue
      obtain ⟨v, hv', hv⟩ := ok_of_bind hv
      obtain rfl := Except.ok.inj hv
      have hmem := List.mem_of_getElem? hvalue
      exact (ht.part (List.mem_filter.1 hmem).1).names.value v hv'
    · cases hv
  · exact fun vs hv => Except.ok.inj hv ▸ trivial

theorem ofMutation_named (h : Legible P g t) {v : Value} (hv : ofMutation t = .ok v) : v.Named := by
  obtain ⟨called, -, hv⟩ := ok_of_bind hv
  obtain ⟨vs, hvs, hv⟩ := ok_of_bind hv
  obtain rfl := Except.ok.inj hv
  exact ofArguments_named (fun p hp => h.part hp) vs hvs

end Value

namespace Script

open Value (Legible AllNamed)

/-! ## Records -/

theorem nameIn?_ne (h : ∀ p ∈ ps, p.Spelt) : nameIn? ps ≠ some "" := by
  intro hn
  obtain ⟨u, hu, hl⟩ := Option.map_eq_some_iff.1 hn
  have hkind : u.kind = .name := by simpa using List.find?_some hu
  obtain ⟨p, hp, hu⟩ := List.mem_filterMap.1 (List.mem_of_find?_eq_some hu)
  obtain rfl : p = .token u := by
    cases p <;> simp_all [Tree.asToken?]
  exact (h _ hp).token (by simp [hkind]) hl

theorem outputNames_ne (h : ∀ p ∈ ps, p.Spelt) : "" ∉ outputNames ps := by
  unfold outputNames
  split
  · rename_i output houtput
    have ho := h output (List.mem_of_find?_eq_some houtput)
    intro hm
    obtain ⟨u, hu, hl⟩ := List.mem_map.1 hm
    obtain ⟨hu, hkind⟩ := List.mem_filter.1 hu
    obtain ⟨p, hp, hpu⟩ := List.mem_filterMap.1 hu
    obtain rfl : p = .token u := by
      cases p <;> simp_all [Tree.asToken?]
    have hkind : u.kind = .name := by simpa using hkind
    exact (ho.part hp).token (by simp [hkind]) hl
  · simp

/-- The name that a path starts with. -/
theorem firstToken_ne (h : Legible P g t) (ht : t.isA .path = true) : t.firstToken?.map (·.literal) ≠ some "" := by
  obtain ⟨line, ps, rfl⟩ := Tree.isA_iff.1 ht
  cases h.formed with
  | node content own parts =>
    cases content with
    | @path _ root fs kind each =>
      have hroot := (h.part (p := .token root) (by simp [Tree.parts])).spelt.token (by simp [kind])
      simpa [Tree.firstToken?, Tree.firstTokenOf?] using hroot

/-- The text of a type starts with its name. -/
theorem typesText_ne (h : Legible P g t) (ht : t.isA .types = true) : Value.typesText t ≠ "" := by
  obtain ⟨line, ps, rfl⟩ := Tree.isA_iff.1 ht
  cases h.formed with
  | node content own parts =>
    cases content with
    | @types _ w inner word each =>
      have hw := (h.part (p := .token w) (by simp [Tree.parts])).spelt.token word
      have hfirst : Tree.firstTokenOf? (.token w :: inner) = some w := by
        simp [Tree.firstTokenOf?, Tree.firstToken?]
      unfold Value.typesText
      rw [hfirst]
      dsimp only [Option.map_some, Option.getD_some]
      split
      · exact hw
      · simp [hw]

theorem returnsText_ne (h : ∀ p ∈ ps, Legible P g p) : "" ∉ returnsText ps := by
  unfold returnsText
  split
  · rename_i types htypes
    obtain ⟨returns, hreturns, htypes⟩ := Option.bind_eq_some_iff.1 htypes
    have ht := Legible.find (fun p hp => (Legible.find h hreturns).part hp) htypes
    simpa using (typesText_ne ht (List.find?_some htypes)).symm
  · simp

/-- What a statement evaluates says something of all that it fills in. -/
theorem fill_full {r r' : Record} {v : Tree} (hr : r.Full) (h : Legible P g v) (hv : fill r v = .ok r') :
    r'.Full := by
  unfold fill at hv
  have hparts : ∀ p ∈ v.parts, Legible P g p := fun p hp => h.part hp
  have hspelt : ∀ p ∈ v.parts, p.Spelt := fun p hp => (hparts p hp).spelt
  split at hv
  · obtain ⟨service, hservice, hv⟩ := ok_of_bind hv
    obtain ⟨vs, hvs, hv⟩ := ok_of_bind hv
    obtain rfl := Except.ok.inj hv
    obtain ⟨path, hpath, hfirst⟩ := Option.bind_eq_some_iff.1 (some_of_orDefect hservice)
    have hservice := firstToken_ne (Legible.find hparts hpath) (List.find?_some hpath)
    rw [hfirst] at hservice
    exact { hr with
      container := hservice, command := nameIn?_ne hspelt, output := outputNames_ne hspelt
      args := Value.ofArguments_named hparts vs hvs }
  · obtain ⟨subject, hsubject, hv⟩ := ok_of_bind hv
    obtain ⟨vs, hvs, hv⟩ := ok_of_bind hv
    obtain rfl := Except.ok.inj hv
    have hlinks := Value.allNamed_mapM (fun f hf v hv => Value.ofMutation_named
      (hparts f (List.mem_filter.1 hf).1) hv) vs hvs
    exact { hr with
      args := ⟨h.names.node _ subject hsubject, hlinks⟩, output := outputNames_ne hspelt }
  · obtain ⟨called, hcalled, hv⟩ := ok_of_bind hv
    obtain ⟨vs, hvs, hv⟩ := ok_of_bind hv
    obtain rfl := Except.ok.inj hv
    exact { hr with
      function := some_of_orDefect hcalled ▸ nameIn?_ne hspelt
      args := Value.ofArguments_named hparts vs hvs }
  all_goals
    obtain ⟨u, hu, hv⟩ := ok_of_bind hv
    obtain rfl := Except.ok.inj hv
    exact { hr with args := ⟨h.names.value u hu, trivial⟩ }

theorem parameter_named {v : Value} (hv : parameter t = .ok v) : v.Named := by
  unfold parameter at hv
  split at hv
  · rename_i types _ _
    exact Except.ok.inj hv ▸ Value.named_ofTypes types
  · cases hv

theorem full_bare (method : Method) (line : Coord) : (Record.bare method line).Full where
  container := nofun
  command := nofun
  target := nofun
  function := nofun
  args := trivial
  output := by simp [Record.bare]
  source := nofun

/-- A record of a method, its arguments and the names that it gives. -/
theorem full_saying {method : Method} {line : Coord} {args : List Value} {output : List String}
    (ha : AllNamed args) (ho : "" ∉ output) : ({ Record.bare method line with args, output }).Full :=
  { full_bare method line with args := ha, output := ho }

theorem recordOf_full {line : Coord} {r : Record} (h : Legible P g t) (hr : recordOf line t = .ok r) :
    r.Full := by
  cases t with
  | token u => cases hr
  | node rule own ps =>
    have hparts : ∀ p ∈ ps, Legible P g p := fun p hp => h.part hp
    have hspelt : ∀ p ∈ ps, p.Spelt := fun p hp => (hparts p hp).spelt
    have none : "" ∉ ([] : List String) := by simp
    have one : ∀ {d : Defect} {f : Value → Record},
        Value.ofNode d ps >>= (fun v => pure (f v)) = .ok r → (∀ v, v.Named → (f v).Full) → r.Full := by
      intro d f hr hf
      obtain ⟨v, hv, hr⟩ := ok_of_bind hr
      exact Except.ok.inj hr ▸ hf v (h.names.node d v hv)
    unfold recordOf at hr
    cases rule with
    | assignment =>
      simp only [Tree.rule?] at hr
      split at hr
      · rename_i target value htarget hvalue
        obtain ⟨vs, hvs, hr⟩ := ok_of_bind hr
        have hpath : target.isA .path = true := by
          cases h.formed with
          | node content _ _ =>
            cases content with
            | @assignment _ path sign v isPath _ =>
              obtain ⟨line, inner, rfl⟩ := Tree.isA_iff.1 isPath
              exact Option.some.inj htarget ▸ isPath
        have htarget := hparts target (List.mem_filter.1 (List.mem_of_getElem? htarget)).1
        have hvalue := hparts value (List.mem_filter.1 (List.mem_of_getElem? hvalue)).1
        have hvs := Value.ofPath_named htarget.formed hpath htarget.spelt
          (fun p hp => (htarget.part hp).names) vs hvs
        have htarget : ({ Record.bare .expression line with target := some vs }).Full :=
          { full_bare .expression line with target := fun _ h => Option.some.inj h ▸ hvs }
        exact fill_full htarget hvalue hr
      · cases hr
    | serviceCall | mutation | functionCall => exact fill_full (full_bare _ _) h hr
    | expressionStatement =>
      obtain ⟨v, hv, hr⟩ := ok_of_bind hr
      obtain rfl := Except.ok.inj hr
      exact full_saying ⟨h.names.value v hv, trivial⟩ none
    | ifBlock | elifBlock | whileBlock => exact one hr fun v hv => full_saying ⟨hv, trivial⟩ none
    | foreachBlock => exact one hr fun v hv => full_saying ⟨hv, trivial⟩ (outputNames_ne hspelt)
    | elseBlock | tryBlock | breakStatement | continueStatement =>
      obtain rfl := Except.ok.inj hr
      exact full_bare _ _
    | catchBlock | finallyBlock =>
      obtain rfl := Except.ok.inj hr
      exact full_saying trivial (outputNames_ne hspelt)
    | functionBlock =>
      obtain ⟨name, hname, hr⟩ := ok_of_bind hr
      obtain ⟨vs, hvs, hr⟩ := ok_of_bind hr
      obtain rfl := Except.ok.inj hr
      exact { full_bare .function line with
        function := some_of_orDefect hname ▸ nameIn?_ne hspelt
        args := Value.allNamed_mapM (fun _ _ _ hv => parameter_named hv) vs hvs
        output := returnsText_ne hparts }
    | whenBlock =>
      obtain ⟨target, htarget, hr⟩ := ok_of_bind hr
      obtain ⟨vs, hvs, hr⟩ := ok_of_bind hr
      obtain rfl := Except.ok.inj hr
      have hpath := some_of_orDefect htarget
      exact { full_bare .whenMethod line with
        container := firstToken_ne (Legible.find hparts hpath) (List.find?_some hpath)
        command := nameIn?_ne hspelt
        args := Value.ofArguments_named hparts vs hvs
        output := outputNames_ne hspelt }
    | returnStatement | throwStatement =>
      obtain ⟨vs, hvs, hr⟩ := ok_of_bind hr
      obtain rfl := Except.ok.inj hr
      exact full_saying (h.names.firsts 1 vs hvs) none
    | importStatement =>
      simp only [Tree.rule?] at hr
      split at hr
      · rename_i path name hpath hname
        obtain ⟨v, hv, hr⟩ := ok_of_bind hr
        obtain rfl := Except.ok.inj hr
        have hpath := hparts path (List.mem_filter.1 (List.mem_of_getElem? hpath)).1
        have hname : "" ≠ name := fun hn => nameIn?_ne hspelt (hn ▸ hname)
        exact full_saying ⟨hpath.names.value v hv, trivial⟩ (by simpa using hname)
      · cases hr
    | _ => cases hr

/-- Every record of a row is of one of its statements or of one further in, so what goes for
the parts of a tree goes for it. -/
theorem Written.each {Q : Tree → Prop} (hQ : ∀ t, Q t → ∀ p ∈ t.parts, Q p) {parent : Option Coord}
    {ts : List Tree} {rs : List Record} (h : Written parent ts rs) :
    (∀ t ∈ ts, Q t) → ∀ r ∈ rs, ∃ t, Q t ∧ Describes r t := by
  induction h with
  | nil => exact fun _ _ hr => by cases hr
  | @cons parent t r body branches rest ts describes place inside behind others ih ih' ih'' =>
    intro hts
    obtain ⟨ht, hts⟩ := List.forall_mem_cons.1 hts
    have hblock : ∀ p ∈ blockOf t.parts, Q p := by
      unfold blockOf
      cases hb : t.parts.find? (·.isA .block) with
      | none => simp
      | some b => exact hQ b (hQ t ht b (List.mem_of_find?_eq_some hb))
    have hbranches : ∀ p ∈ branchesOf t, Q p := by
      cases t with
      | token u => simp [branchesOf]
      | node rule own ps => exact fun p hp => hQ _ ht p (List.mem_filter.1 hp).1
    simp only [List.forall_mem_cons, List.forall_mem_append]
    exact ⟨⟨t, ht, describes⟩, ih hblock, ih' hbranches, ih'' hts⟩

/-- The records of plain statements say something of all that they have, if their lines do. -/
theorem Written.full {parent : Option Coord} {ts : List Tree} {rs : List Record} (h : Written parent ts rs)
    (hts : ∀ t ∈ ts, Legible P g t) {r : Record} (hr : r ∈ rs) (hs : r.source ≠ some "") : r.Full := by
  obtain ⟨t, ht, line, r₀, hrecord, hb⟩ := h.each (fun t ht p hp => ht.part hp) hts r hr
  have hbare : (bareOf r₀).Full := { recordOf_full ht hrecord with source := nofun }
  rw [← hb] at hbare
  exact { hbare with source := hs }

end Script

end StoryLang
