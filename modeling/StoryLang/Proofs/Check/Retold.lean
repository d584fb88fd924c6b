/-
What checking makes of a tree.

Checking gives a plain tree back as it was, save that a call of a service may
have become a mutation. So the tree stays plain, and its outline stays the same.
Such a call and the mutation have the same tokens in the same order: a name and
arguments behind the subject become its link.
-/
import StoryLang.Check.Value
import StoryLang.Proofs.Tree.Alike
import StoryLang.Proofs.Tree.Blocks
import StoryLang.Proofs.Tree.Outline

namespace StoryLang.Check

/-- What a node may have become. -/
inductive Retells : Tree → Tree → Prop where
  | token {t} : Retells (.token t) (.token t)
  | same {rule line ps ps'} : Retells (.node rule line ps) (.node rule line ps')
  | call {line ps ps'} : Retells (.node .serviceCall line ps) (.node .mutation line ps')

/-- A tree as checking gives it back. -/
structure Retold (g : Grammar) (t t' : Tree) : Prop where
  formed : Formed Token.Sound g .plain t'
  retells : Retells t t'
  start : t.isA .block = false → t'.startLine? = t.startLine?
  outline : (Tree.stationsAll (t.isA .block) t'.parts).map Tree.heading =
    (Tree.stationsAll (t.isA .block) t.parts).map Tree.heading
  filled : t.Filled → t'.Filled
  yield : t'.yield = t.yield
  listens : t'.listensTo? = t.listensTo?

variable {g : Grammar} {t t' t'' : Tree} {rule : Rule} {line : Option Coord} {ps ps' : List Tree}

namespace Retells

theorem refl (t : Tree) : Retells t t := by
  cases t
  · exact .token
  · exact .same

theorem trans (h : Retells t t') (h' : Retells t' t'') : Retells t t'' := by
  cases h <;> cases h' <;> first | exact .token | exact .same | exact .call

theorem settled (h : Retells t t') : Settled .plain t t' := by
  cases h with
  | token => exact ⟨⟨fun _ h => h, fun _ h => h, fun h => h, fun h => h⟩, fun h => h⟩
  | same =>
    refine ⟨⟨by simp, fun _ h => ?_, fun h => ?_, fun h => ?_⟩, fun h => ?_⟩ <;>
      simpa [Tree.isA, Tree.fits, Tree.isCall, Tree.rule?] using h
  | call =>
    refine ⟨⟨by simp, fun hr h => ?_, fun h => ?_, fun h => ?_⟩, fun h => ?_⟩
    · obtain rfl : Rule.serviceCall = _ := by simpa [Tree.isA, Tree.rule?] using h
      simp [Rule.stays, Rule.isCall] at hr
    · simp [Tree.fits, Tree.rule?, Rule.isValue] at h
    · exact .inr rfl
    · simp [Tree.fits, Tree.rule?, Rule.isValue] at h

theorem own (h : Retells t t') : t'.ownLine? = t.ownLine? := by
  cases h <;> rfl

theorem isNode (h : Retells t t') : t'.isNode = t.isNode := by
  cases h <;> rfl

theorem statement (h : Retells t t') : t'.isStatement = t.isStatement := by
  cases h <;> rfl

/-- A part that is neither a call nor a mutation is one of the same rule. -/
theorem isA_eq {r : Rule} (h : Retells t t') (hr : r.stays = true) : t'.isA r = t.isA r := by
  cases h with
  | token | same => rfl
  | call =>
    have : r.isCall = false := by
      simp only [Rule.stays, Bool.and_eq_true, Bool.not_eq_eq_eq_not, Bool.not_true] at hr
      exact hr.1
    have h1 : Rule.serviceCall ≠ r := by rintro rfl; simp [Rule.isCall] at this
    have h2 : Rule.mutation ≠ r := by rintro rfl; simp [Rule.isCall] at this
    simp [Tree.isA, Tree.rule?, h1, h2]

end Retells

namespace Retold

theorem refl (h : Formed Token.Sound g .plain t) : Retold g t t :=
  ⟨h, .refl t, fun _ => rfl, rfl, id, rfl, rfl⟩

theorem isBlock_eq (h : Retold g t t') : t'.isA .block = t.isA .block := h.retells.isA_eq rfl

theorem trans (h : Retold g t t') (h' : Retold g t' t'') : Retold g t t'' where
  formed := h'.formed
  retells := h.retells.trans h'.retells
  start hb := (h'.start (h.isBlock_eq.trans hb)).trans (h.start hb)
  outline := by
    have ho := h'.outline
    rw [h.isBlock_eq] at ho
    exact ho.trans h.outline
  filled hf := h'.filled (h.filled hf)
  yield := h'.yield.trans h.yield
  listens := h'.listens.trans h.listens

theorem line? (h : Retold g t t') (hb : t.isA .block = false) : t'.line? = t.line? :=
  Tree.line?_of_startLine? h.retells.own (h.start hb)

theorem heading (h : Retold g t t') (hb : t.isA .block = false) : t'.heading = t.heading :=
  Tree.heading_eq (h.line? hb) h.listens

theorem stations (h : Retold g t t') :
    (Tree.stations false t').map Tree.heading = (Tree.stations false t).map Tree.heading := by
  have ho := h.outline
  have hh := h.heading
  cases h.retells with
  | token => rfl
  | call => simp [Tree.stations_node, Rule.isBranch]
  | @same rule line ps ps' =>
    by_cases hblock : rule = .block
    · subst hblock
      simpa [Tree.stations_node, Rule.isBranch, Tree.isA, Tree.rule?, Tree.parts] using ho
    · have hb : (Tree.node rule line ps).isA .block = false := by
        simp [Tree.isA, Tree.rule?, hblock]
      by_cases hbranch : rule.isBranch = true
      · rw [hb] at ho
        simpa [Tree.stations_node, hbranch, hh hb, Tree.parts] using ho
      · simp [Tree.stations_node, hbranch, hblock]

/-- The same for a tree in a list of statements. -/
theorem stations_listed (h : Retold g t t') (ht : t.isStatement = true) :
    (Tree.stations true t').map Tree.heading = (Tree.stations true t).map Tree.heading := by
  have hb := Tree.isStatement_isA (r := .block) ht rfl
  have hnode := Tree.isNode_of_isStatement ht
  have ho := h.outline
  rw [hb] at ho
  rw [Tree.stations_listed hnode, Tree.stations_listed (h.retells.isNode.trans hnode),
    List.map_cons, List.map_cons, h.heading hb, ho]

theorem stationsAll (h : List.Forall₂ (Retold g) ps ps') :
    (Tree.stationsAll false ps').map Tree.heading = (Tree.stationsAll false ps).map Tree.heading := by
  induction h with
  | nil => rfl
  | cons h _ ih => simp [h.stations, ih]

theorem stationsAll_listed (h : List.Forall₂ (Retold g) ps ps')
    (hs : ∀ p ∈ ps, p.isStatement = true) :
    (Tree.stationsAll true ps').map Tree.heading = (Tree.stationsAll true ps).map Tree.heading := by
  induction h with
  | nil => rfl
  | cons h _ ih =>
    simp only [List.forall_mem_cons] at hs
    simp [h.stations_listed hs.1, ih hs.2]

theorem row_refl (h : ∀ p ∈ ps, Formed Token.Sound g .plain p) : List.Forall₂ (Retold g) ps ps :=
  List.forall₂_same.2 fun p hp => refl (h p hp)

theorem filledAll (h : List.Forall₂ (Retold g) ps ps') (hf : Tree.FilledAll ps) :
    Tree.FilledAll ps' :=
  Tree.filledAll_iff.2 (forall₂_each h (Tree.filledAll_iff.1 hf) fun _ _ h => h.filled)

theorem yieldAll (h : List.Forall₂ (Retold g) ps ps') : Tree.yieldAll ps' = Tree.yieldAll ps := by
  induction h with
  | nil => rfl
  | cons h _ ih => rw [Tree.yieldAll, Tree.yieldAll, h.yield, ih]

theorem filled_node (h : List.Forall₂ (Retold g) ps ps') (hf : (Tree.node rule line ps).Filled) :
    (Tree.node rule line ps').Filled := by
  obtain ⟨hne, hps⟩ := Tree.filled_node.1 hf
  refine Tree.filled_node.2 ⟨fun hr hnil => hne hr ?_, filledAll h hps⟩
  subst hnil
  cases h
  rfl

/-- The first path of a row starts with the same token. -/
theorem path_first (h : List.Forall₂ (Retold g) ps ps') :
    (ps'.find? (·.isA .path)).bind Tree.firstToken? = (ps.find? (·.isA .path)).bind Tree.firstToken? := by
  induction h with
  | nil => rfl
  | @cons p p' ps ps' h _ ih =>
    have hp : p'.isA .path = p.isA .path := h.retells.isA_eq rfl
    cases hpath : p.isA .path
    · simpa [List.find?_cons, hp, hpath] using ih
    · simp [hp, hpath, Tree.firstToken?_eq_head?, h.yield]

theorem listensTo?_node (h : List.Forall₂ (Retold g) ps ps') :
    (Tree.node rule line ps').listensTo? = (Tree.node rule line ps).listensTo? := by
  by_cases hr : rule = .whenBlock
  · subst hr
    exact path_first h
  · rw [Tree.listensTo?, Tree.listensTo?, Tree.target?_of_rule hr, Tree.target?_of_rule hr]

/-- A node with its parts checked one by one. -/
theorem node (hf : Formed Token.Sound g .plain (.node rule line ps)) (h : List.Forall₂ (Retold g) ps ps') :
    Retold g (.node rule line ps) (.node rule line ps') := by
  cases hf with
  | node content own parts =>
    have hparts : ∀ p ∈ ps', Formed Token.Sound g .plain p :=
      forall₂_each h (p := fun _ => True) (by simp) fun _ _ h _ => h.formed
    by_cases hb : rule = .block
    · subst hb
      cases content with
      | block each =>
        have heach : ∀ p ∈ ps', p.isStatement = true :=
          forall₂_each h each fun _ _ h ht => h.retells.statement.trans ht
        exact ⟨.node (.block heach) (by simp) hparts, .same, by simp [Tree.isA, Tree.rule?],
          by simpa [Tree.isA, Tree.rule?, Tree.parts] using stationsAll_listed h each, filled_node h, yieldAll h,
          listensTo?_node h⟩
    · have hcontent := content.settled hb (by simp) (h.imp fun _ _ h => h.retells.settled)
      refine ⟨.node hcontent (by simp) hparts, .same, fun _ => ?_, ?_, filled_node h, yieldAll h,
        listensTo?_node h⟩
      · exact content.startLine parts hb (h.imp fun _ _ h => h.start)
      · simpa [Tree.isA, Tree.rule?, Tree.parts, hb] using stationsAll h

/-- A call of a service that turned out to be a mutation. -/
theorem toMutation {subject subject' given given' : Tree} {command : Token} {extra : List Tree}
    (hf : Formed Token.Sound g .plain (.node .serviceCall line (subject :: .token command :: given :: extra)))
    (hs : Retold g subject subject') (hg : Retold g given given') :
    Retold g (.node .serviceCall line (subject :: .token command :: given :: extra))
      (.node .mutation line
        (subject' :: .of .mutationFragment [.token command, given'] :: extra)) := by
  cases hf with
  | node content own parts =>
    cases content with
    | serviceCall path named arguments extras =>
      simp only [List.forall_mem_cons] at parts
      have hfits := hs.retells.settled.value (Tree.fits_of_isA path rfl)
      have harguments := hg.retells.settled.isA rfl arguments
      have hlink : Formed Token.Sound g .plain (.of .mutationFragment [.token command, given']) :=
        .of (.link named harguments) (by simp [Formed.token, hg.formed])
      refine ⟨.node (.mutation hfits rfl extras) (by simp) ?_, .call, fun _ => ?_, ?_, fun hf => ?_, ?_, rfl⟩
      · exact List.forall_mem_cons.2 ⟨hs.formed, List.forall_mem_cons.2 ⟨hlink, parts.2.2.2⟩⟩
      · obtain ⟨u, hu⟩ := Option.isSome_iff_exists.1
          (parts.1.hasToken (Tree.isA_ne path (by simp)) (Tree.isA_ne path (by simp)))
        have hstart := hs.start (Tree.isA_ne path (by simp))
        simp only [Tree.startLine?, hu, Option.map_some, Option.map_eq_some_iff] at hstart
        obtain ⟨u', hu', hl⟩ := hstart
        simp [Tree.startLine?, Tree.firstToken?, Tree.firstTokenOf?, hu, hu', hl]
      · simp [Tree.isA, Tree.rule?, Tree.parts, Tree.stations_fits hfits,
          Tree.stations_other path ⟨by simp, rfl⟩, Tree.stations_other arguments ⟨by simp, rfl⟩,
          Tree.stations_node, Rule.isBranch]
      · simp only [Tree.filled_node, reduceCtorEq, or_self, false_imp_iff, true_and,
          Tree.filledAll_cons, Tree.filled_token, Tree.filledAll_nil, and_true, Tree.of] at hf ⊢
        exact ⟨hs.filled hf.1, hg.filled hf.2.1, hf.2.2⟩
      · simp [Tree.yield, Tree.yieldAll, hs.yield, hg.yield]

end Retold

/-! ## Parts that are put back -/

/-- What checking gives back for the first part of a rule, if there is one. -/
def Found (g : Grammar) (rule : Rule) (ps : List Tree) (new : Option Tree) : Prop :=
  match ps.find? (·.isA rule) with
  | none => new = none
  | some t => ∃ t', new = some t' ∧ Retold g t t'

theorem Found.skip {p : Tree} {new : Option Tree} (hp : p.isA rule = false)
    (h : Found g rule ps new) : Found g rule (p :: ps) new := by
  simpa [Found, hp] using h

theorem Found.here {p p' : Tree} (hp : p.isA rule = true) (h : Retold g p p') :
    Found g rule (p :: ps) (some p') := by
  simpa [Found, hp] using h

theorem Found.put {new : Option Tree} (h : Found g rule ps new)
    (hf : ∀ p ∈ ps, Formed Token.Sound g .plain p) : List.Forall₂ (Retold g) ps (Tree.putFirst rule new ps) := by
  induction ps with
  | nil => exact .nil
  | cons p ps ih =>
    simp only [List.forall_mem_cons] at hf
    by_cases hp : p.isA rule = true
    · obtain ⟨p', rfl, hp'⟩ : ∃ t', new = some t' ∧ Retold g p t' := by simpa [Found, hp] using h
      simpa [Tree.putFirst, hp] using List.Forall₂.cons hp' (Retold.row_refl hf.2)
    · have h : Found g rule ps new := by simpa [Found, hp] using h
      cases new with
      | none => exact Retold.row_refl (by simpa using hf)
      | some n => simpa [Tree.putFirst, hp] using List.Forall₂.cons (.refl hf.1) (ih h hf.2)

/-- Putting a part back does not change which part is the first of another rule. -/
theorem Found.find?_put (other : Rule) {new : Option Tree} (h : Found g rule ps new)
    (hr : rule.stays = true) (hother : other ≠ rule) :
    (Tree.putFirst rule new ps).find? (·.isA other) = ps.find? (·.isA other) := by
  induction ps with
  | nil => rfl
  | cons p ps ih =>
    by_cases hp : p.isA rule = true
    · obtain ⟨p', rfl, hp'⟩ : ∃ t', new = some t' ∧ Retold g p t' := by simpa [Found, hp] using h
      have hq := hp'.retells.settled.isA hr hp
      simp [Tree.putFirst, hp, Tree.isA_ne hp hother.symm, Tree.isA_ne hq hother.symm]
    · have h : Found g rule ps new := by simpa [Found, hp] using h
      cases new with
      | none => rfl
      | some n => simp [Tree.putFirst, hp, List.find?_cons, ih h]

end StoryLang.Check

/-! ## Which calls have turned -/

namespace StoryLang.Check

/-- Trees that differ in calls of services only, which are mutations in the second one. -/
inductive Turned : Tree → Tree → Prop where
  | token {u} : Turned (.token u) (.token u)
  | node {rule line ps ps'} (parts : List.Forall₂ Turned ps ps') :
    Turned (.node rule line ps) (.node rule line ps')
  | call {line subject subject' command given given' extra extra'} (first : Turned subject subject')
      (arguments : Turned given given') (others : List.Forall₂ Turned extra extra') :
    Turned (.node .serviceCall line (subject :: .token command :: given :: extra))
      (.node .mutation line (subject' :: .of .mutationFragment [.token command, given'] :: extra'))

/-- Rows of such trees. -/
abbrev TurnedAll (ps ps' : List Tree) : Prop := List.Forall₂ Turned ps ps'

mutual

theorem Turned.refl : ∀ t : Tree, Turned t t
  | .token _ => .token
  | .node _ _ ps => .node (TurnedAll.refl ps)

theorem TurnedAll.refl : ∀ ps : List Tree, TurnedAll ps ps
  | [] => .nil
  | p :: ps => .cons (Turned.refl p) (TurnedAll.refl ps)

end

mutual

/-- The tokens stay, in their order. -/
theorem Turned.yield : ∀ t t' : Tree, Turned t t' → t'.yield = t.yield
  | .token _, _, .token => rfl
  | .node _ _ ps, .node _ _ ps', .node parts => TurnedAll.yieldAll ps ps' parts
  | .node _ _ (subject :: _ :: given :: extra), .node _ _ (subject' :: .node _ _ [_, given'] :: extra'),
    .call first arguments others => by
    simp [Tree.yield, Tree.yieldAll, Turned.yield subject subject' first,
      Turned.yield given given' arguments, TurnedAll.yieldAll extra extra' others]

theorem TurnedAll.yieldAll : ∀ ps ps' : List Tree, TurnedAll ps ps' →
    Tree.yieldAll ps' = Tree.yieldAll ps
  | [], _, .nil => rfl
  | p :: ps, p' :: ps', .cons first rest => by
    rw [Tree.yieldAll, Tree.yieldAll, Turned.yield p p' first, TurnedAll.yieldAll ps ps' rest]

end

mutual

/-- The functions of a tree stay functions, in their order. -/
theorem Turned.functions : ∀ t t' : Tree, Turned t t' →
    TurnedAll (t.walk.filter (·.isA .functionBlock)) (t'.walk.filter (·.isA .functionBlock))
  | .token _, _, .token => .nil
  | .node rule line ps, .node _ _ ps', .node parts => by
    have hps := TurnedAll.functions ps ps' parts
    have hrule : (Tree.node rule line ps').isA .functionBlock = (Tree.node rule line ps).isA .functionBlock := rfl
    rw [Tree.walk, Tree.walk, List.filter_cons, List.filter_cons, hrule]
    split
    · exact .cons (.node parts) hps
    · exact hps
  | .node _ _ (subject :: _ :: given :: extra), .node _ _ (subject' :: .node _ _ [_, given'] :: extra'),
    .call first arguments others => by
    have hsubject := Turned.functions subject subject' first
    have hgiven := Turned.functions given given' arguments
    have hextra := TurnedAll.functions extra extra' others
    simpa [Tree.walk, Tree.walkAll, Tree.isA, Tree.rule?] using
      List.rel_append hsubject (List.rel_append hgiven hextra)

theorem TurnedAll.functions : ∀ ps ps' : List Tree, TurnedAll ps ps' →
    TurnedAll ((Tree.walkAll ps).filter (·.isA .functionBlock))
      ((Tree.walkAll ps').filter (·.isA .functionBlock))
  | [], _, .nil => .nil
  | p :: ps, p' :: ps', .cons first rest => by
    rw [Tree.walkAll, Tree.walkAll, List.filter_append, List.filter_append]
    exact List.rel_append (Turned.functions p p' first) (TurnedAll.functions ps ps' rest)

end

variable {rule : Rule} {line : Option Coord} {t t' : Tree} {ps ps' : List Tree}

namespace Turned

theorem firstToken? (h : Turned t t') : t'.firstToken? = t.firstToken? := by
  rw [Tree.firstToken?_eq_head?, Tree.firstToken?_eq_head?, Turned.yield t t' h]

theorem position? (h : Turned t t') : t'.position? = t.position? := by
  rw [Tree.position?, Tree.position?, h.firstToken?]

theorem line? (h : Turned t t') : t'.line? = t.line? := by
  have hown : t'.ownLine? = t.ownLine? := by cases h <;> rfl
  rw [Tree.line?, Tree.line?, hown, h.firstToken?]

theorem isNode (h : Turned t t') : t'.isNode = t.isNode := by
  cases h <;> rfl

/-- What a node has turned into is a node. -/
theorem node_iff (h : Turned (.node rule line ps) t') : ∃ rule' ps', t' = .node rule' line ps' := by
  cases h with
  | node => exact ⟨_, _, rfl⟩
  | call => exact ⟨_, _, rfl⟩

/-- A node that is no call of a service stays one of its rule. -/
theorem of_node (h : Turned (.node rule line ps) t') (hr : rule ≠ .serviceCall) :
    ∃ ps', t' = .node rule line ps' ∧ TurnedAll ps ps' := by
  cases h with
  | node parts => exact ⟨_, rfl, parts⟩
  | call => exact absurd rfl hr

theorem rule_eq {rule' : Rule} {line' : Option Coord}
    (h : Turned (.node rule line ps) (.node rule' line' ps')) :
    rule' = rule ∨ rule = .serviceCall ∧ rule' = .mutation := by
  cases h with
  | node => exact .inl rfl
  | call => exact .inr ⟨rfl, rfl⟩

/-- What is of another rule does not turn into a node of one that stays. -/
theorem rule_ne {rule' r : Rule} {line' : Option Coord}
    (h : Turned (.node rule line ps) (.node rule' line' ps')) (hr : r.stays = true) (hne : rule ≠ r) :
    rule' ≠ r := by
  obtain rfl | ⟨-, rfl⟩ := h.rule_eq
  · exact hne
  · rintro rfl
    cases hr

theorem isA (h : Turned t t') (hr : rule.stays = true) : t'.isA rule = t.isA rule := by
  cases h with
  | token => rfl
  | node => rfl
  | call => cases rule <;> simp_all [Tree.isA, Tree.rule?, Rule.stays, Rule.isCall]

end Turned

namespace TurnedAll

theorem tokensOf (h : TurnedAll ps ps') : tokensOf ps' = tokensOf ps := by
  induction h with
  | nil => rfl
  | @cons p p' ps ps' h _ ih =>
    have hp : p'.asToken? = p.asToken? := by cases h <;> rfl
    rw [Check.tokensOf, Check.tokensOf, List.filterMap_cons, List.filterMap_cons, hp]
    rw [Check.tokensOf, Check.tokensOf] at ih
    rw [ih]

theorem nameOf? (h : TurnedAll ps ps') : nameOf? ps' = nameOf? ps := by
  rw [Check.nameOf?, Check.nameOf?, h.tokensOf]

theorem firstTokenOf? (h : TurnedAll ps ps') : Tree.firstTokenOf? ps' = Tree.firstTokenOf? ps :=
  (Turned.node h : Turned (.of .start ps) (.of .start ps')).firstToken?

/-- The first parts of a rule have turned into one another. -/
theorem find? (h : TurnedAll ps ps') (hr : rule.stays = true) :
    Option.Rel Turned (ps.find? (·.isA rule)) (ps'.find? (·.isA rule)) := by
  induction h with
  | nil => exact .none
  | @cons p p' ps ps' h _ ih =>
    have hp : p'.isA rule = p.isA rule := h.isA hr
    cases hrule : p.isA rule with
    | true => simpa [hp, hrule] using Option.Rel.some h
    | false => simpa [hp, hrule] using ih

theorem any_isA (h : TurnedAll ps ps') (hr : rule.stays = true) :
    ps'.any (·.isA rule) = ps.any (·.isA rule) := by
  induction h with
  | nil => rfl
  | cons h _ ih => simp only [List.any_cons, ih, h.isA hr]

/-- A part that was checked is put back. -/
theorem putFirst {new : Option Tree} (h : Option.Rel Turned (ps.find? (·.isA rule)) new) :
    TurnedAll ps (Tree.putFirst rule new ps) := by
  induction ps with
  | nil => exact .nil
  | cons p ps ih =>
    cases hrule : p.isA rule with
    | true =>
      simp only [List.find?_cons, hrule] at h
      cases h with
      | some h => simpa [Tree.putFirst, hrule] using List.Forall₂.cons h (TurnedAll.refl ps)
    | false =>
      simp only [List.find?_cons, hrule] at h
      cases new with
      | none => exact TurnedAll.refl _
      | some n => simpa [Tree.putFirst, hrule] using List.Forall₂.cons (Turned.refl p) (ih h)

end TurnedAll

/-! ## Types stay as they are -/

/-- Where no part can turn into another one, the row stays. -/
theorem TurnedAll.eq_of (h : TurnedAll ps ps') (heq : ∀ p ∈ ps, ∀ p', Turned p p' → p' = p) : ps' = ps := by
  induction h with
  | nil => rfl
  | @cons p p' ps ps' h _ ih =>
    simp only [List.forall_mem_cons] at heq
    rw [heq.1 p' h, ih heq.2]

/-- What is written of a type has no calls in it. -/
theorem Turned.eq_of_types {P : Token → Prop} {g : Grammar} {stage : Stage} (hf : Formed P g stage t)
    (ht : t.isA .types = true) (h : Turned t t') : t' = t := by
  induction hf generalizing t' with
  | token u => cases ht
  | @node rule line ps content own parts ih =>
    obtain rfl : rule = .types := by simpa [Tree.isA, Tree.rule?] using ht
    obtain ⟨ps', rfl, hps⟩ := h.of_node (by simp)
    cases content with
    | types word each =>
      obtain _ | ⟨_ | _, hps⟩ := hps
      simp only [List.forall_mem_cons] at ih
      rw [TurnedAll.eq_of hps fun p hp p' hp' => ih.2 p hp (each p hp) hp']

/-- What a function declares has only types in it. -/
theorem Turned.eq_of_declared {P : Token → Prop} {g : Grammar} {stage : Stage} (hf : Formed P g stage t)
    (ht : t.isA .parameter = true ∨ t.isA .returns = true) (h : Turned t t') : t' = t := by
  have hone {u : Token} {type : Tree} {ps' : List Tree} (hf : Formed P g stage type)
      (ht : type.isA .types = true) (h : TurnedAll [.token u, type] ps') : ps' = [.token u, type] := by
    obtain _ | ⟨_ | _, _ | ⟨htype, _ | _⟩⟩ := h
    rw [htype.eq_of_types hf ht]
  rcases ht with ht | ht
  all_goals
    obtain ⟨l, ps, rfl⟩ := Tree.isA_iff.1 ht
    obtain ⟨ps', rfl, hps⟩ := h.of_node (by simp)
    obtain _ | ⟨content, -, parts⟩ := hf
    cases content
    rw [hone (parts _ (by simp)) ‹_› hps]

/-- The nodes of a rule stay where none of them can turn into another one. -/
theorem TurnedAll.filter_eq (h : TurnedAll ps ps') (hr : rule.stays = true)
    (heq : ∀ p ∈ ps, p.isA rule = true → ∀ p', Turned p p' → p' = p) :
    ps'.filter (·.isA rule) = ps.filter (·.isA rule) := by
  induction h with
  | nil => rfl
  | @cons p p' ps ps' h _ ih =>
    simp only [List.forall_mem_cons] at heq
    have hp : p'.isA rule = p.isA rule := h.isA hr
    cases hrule : p.isA rule with
    | true =>
      obtain rfl := heq.1 hrule p' h
      rw [List.filter_cons_of_pos hrule, List.filter_cons_of_pos hrule, ih heq.2]
    | false => simp only [List.filter_cons, hp, hrule, ih heq.2, Bool.false_eq_true, if_false]

/-- What a function declares stays. -/
theorem TurnedAll.declared {P : Token → Prop} {g : Grammar} {stage : Stage} (h : TurnedAll ps ps')
    (hf : ∀ p ∈ ps, Formed P g stage p) :
    ps'.filter (·.isA .parameter) = ps.filter (·.isA .parameter) ∧
      ps'.find? (·.isA .returns) = ps.find? (·.isA .returns) := by
  refine ⟨h.filter_eq rfl fun p hp ht p' hp' => hp'.eq_of_declared (hf p hp) (.inl ht), ?_⟩
  rw [← List.head?_filter, ← List.head?_filter,
    h.filter_eq rfl fun p hp ht p' hp' => hp'.eq_of_declared (hf p hp) (.inr ht)]

/-! ## Parts that are put back -/

theorem putFirst_front {ts : List Tree} {new : Option Tree} (front : List Tree)
    (h : ∀ p ∈ front, p.isA rule = false) :
    Tree.putFirst rule new (front ++ ts) = front ++ Tree.putFirst rule new ts := by
  cases new with
  | none => cases front <;> cases ts <;> simp [Tree.putFirst]
  | some n =>
    induction front with
    | nil => rfl
    | cons p front ih =>
      simp only [List.forall_mem_cons] at h
      simp [Tree.putFirst, h.1, ih h.2]

theorem putFirst_here {p n : Tree} {ts : List Tree} (hp : p.isA rule = true) :
    Tree.putFirst rule (some n) (p :: ts) = n :: ts := by
  simp [Tree.putFirst, hp]

/-- The part that was put back is the first one of its rule. -/
theorem find?_putFirst {new : Option Tree} (h : Option.Rel Turned (ps.find? (·.isA rule)) new)
    (hr : rule.stays = true) : (Tree.putFirst rule new ps).find? (·.isA rule) = new := by
  induction ps with
  | nil =>
    cases h
    rfl
  | cons p ps ih =>
    cases hrule : p.isA rule with
    | true =>
      simp only [List.find?_cons, hrule] at h
      cases h with
      | some h => simp [Tree.putFirst, hrule, h.isA hr]
    | false =>
      simp only [List.find?_cons, hrule] at h
      cases new with
      | none =>
        cases hf : ps.find? (·.isA rule) with
        | none => simp [Tree.putFirst, hrule, hf]
        | some => simp [hf] at h
      | some n => simpa [Tree.putFirst, hrule] using ih h

theorem putFirst_found {new : Option Tree} (h : ps.find? (·.isA rule) = new) :
    Tree.putFirst rule new ps = ps := by
  induction ps with
  | nil => rfl
  | cons p ps ih =>
    cases hrule : p.isA rule with
    | true =>
      simp only [List.find?_cons, hrule] at h
      subst h
      simp [Tree.putFirst, hrule]
    | false =>
      simp only [List.find?_cons, hrule] at h
      cases new with
      | none => rfl
      | some n => simp [Tree.putFirst, hrule, ih h]

end StoryLang.Check
