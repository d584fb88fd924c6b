/-
Stories that say the same are written as the same script.

No record has the text of a keyword in it, save that of a type and the line of
the story that it is for.
-/
import StoryLang.Proofs.Check.Known.Statement
import StoryLang.Proofs.Respell.Checking
import StoryLang.Script.OfTree

namespace StoryLang

open StoryLang.Tree (Like LikeAll SameText Worded Heads)

variable {P : Token → Prop} {g : Grammar} {t t' : Tree} {ps ps' : List Tree} {r : Rule}
  {line : Option Coord}

theorem formed_parts (h : Formed P g .plain t) : ∀ p ∈ t.parts, Formed P g .plain p := by
  cases h with
  | token => simp [Tree.parts]
  | node _ _ parts => exact parts

namespace Value

/-! ## Types -/

mutual

theorem ofTypes_same : ∀ t t' : Tree, t.Same t' → t.isA .types = true → ofTypes t' = ofTypes t
  | .token _, _, _, ht => by simp [Tree.isA, Tree.rule?] at ht
  | .node r l ps, .node _ _ ps', .node row parts, ht => by
    obtain rfl : r = .types := by simpa [Tree.isA, Tree.rule?] using ht
    obtain ⟨u, ts, u', ts', rfl, rfl, hu⟩ := row.head (.inl rfl)
    have hu : u'.literal = u.literal := hu
    have hts := ofTypesParts_same ts ts' (by cases parts; assumption) (row.types rfl)
    simp only [ofTypes, ofTypesParts, Tree.firstTokenOf?, Tree.firstToken?, Option.some_or,
      Option.map_some, hu, hts]

theorem ofTypesParts_same : ∀ ps ps' : List Tree, LikeAll Token.Same Worded ps ps' →
    (∀ p ∈ ps, p.isA .types = true) → ofTypesParts ps' = ofTypesParts ps
  | [], _, .nil, _ => rfl
  | .token _ :: _, _, _, h => by simp [Tree.isA, Tree.rule?] at h
  | .node r l ps :: ts, .node _ _ ps' :: ts', .cons first rest, h => by
    have hfirst := ofTypes_same (.node r l ps) _ first (h _ List.mem_cons_self)
    have hrest := ofTypesParts_same ts ts' rest fun p hp => h p (List.mem_cons_of_mem _ hp)
    cases first
    simp only [ofTypesParts, hfirst, hrest]

end

mutual

theorem typesText_same : ∀ t t' : Tree, t.Same t' → t.isA .types = true → typesText t' = typesText t
  | .token _, _, _, ht => by simp [Tree.isA, Tree.rule?] at ht
  | .node r l ps, .node _ _ ps', .node row parts, ht => by
    obtain rfl : r = .types := by simpa [Tree.isA, Tree.rule?] using ht
    obtain ⟨u, ts, u', ts', rfl, rfl, hu⟩ := row.head (.inl rfl)
    have hu : u'.literal = u.literal := hu
    have hts := typesTexts_same ts ts' (by cases parts; assumption) (row.types rfl)
    simp only [typesText, typesTexts, Tree.firstTokenOf?, Tree.firstToken?, Option.some_or,
      Option.map_some, hu, hts]

theorem typesTexts_same : ∀ ps ps' : List Tree, LikeAll Token.Same Worded ps ps' →
    (∀ p ∈ ps, p.isA .types = true) → typesTexts ps' = typesTexts ps
  | [], _, .nil, _ => rfl
  | .token _ :: _, _, _, h => by simp [Tree.isA, Tree.rule?] at h
  | .node r l ps :: ts, .node _ _ ps' :: ts', .cons first rest, h => by
    have hfirst := typesText_same (.node r l ps) _ first (h _ List.mem_cons_self)
    have hrest := typesTexts_same ts ts' rest fun p hp => h p (List.mem_cons_of_mem _ hp)
    cases first
    simp only [typesTexts, hfirst, hrest]

end

/-! ## Values -/

/-- Rows of parts have the same values, whichever way they are read. -/
structure RowRead (ps ps' : List Tree) : Prop where
  first : ∀ n, ofFirst n ps' = ofFirst n ps
  node : ∀ d, ofNode d ps' = ofNode d ps
  entries : ofEntries ps' = ofEntries ps
  parts : (∀ p ∈ ps, p.isA .pathFragment = true) → ofPathParts ps' = ofPathParts ps

/-- A tree and one that says the same have the same value. -/
structure ValueRead (t : Tree) : Prop where
  value : ∀ t', t.Same t' → ofTree t' = ofTree t
  rows : ∀ ps', LikeAll Token.Same Worded t.parts ps' → RowRead t.parts ps'

theorem nodeCount_same (h : LikeAll Token.Same Worded ps ps') : nodeCount ps' = nodeCount ps :=
  (rel_filter h Like.isNode).length_eq.symm

theorem operator_same (h : LikeAll Token.Same Worded ps ps') :
    Option.Rel Token.Same (operator? ps) (operator? ps') :=
  rel_head? (LikeAll.tokens h)

theorem RowRead.nil : RowRead [] [] :=
  ⟨fun _ => rfl, fun _ => rfl, rfl, fun _ => rfl⟩

theorem RowRead.token {u u' : Token} (h : RowRead ps ps') :
    RowRead (.token u :: ps) (.token u' :: ps') where
  first n := by
    unfold ofFirst
    exact h.first n
  node d := by
    unfold ofNode
    exact h.node d
  entries := by
    unfold ofEntries
    exact h.entries
  parts hf := nomatch (List.forall_mem_cons.1 hf).1

theorem RowRead.node' {qs qs' : List Tree} (ht : ValueRead (.node r line qs)) (row : Worded r qs qs')
    (hq : LikeAll Token.Same Worded qs qs') (h : RowRead ps ps') :
    RowRead (.node r line qs :: ps) (.node r line qs' :: ps') where
  first n := by
    cases n with
    | zero => rfl
    | succ n =>
      unfold ofFirst
      rw [ht.value _ (.node row hq), h.first]
  node d := by
    unfold ofNode
    exact ht.value _ (.node row hq)
  entries := by
    have hfirst : ofFirst 2 qs' = ofFirst 2 qs := (ht.rows _ hq).first 2
    unfold ofEntries
    rw [nodeCount_same hq, hfirst, h.entries]
  parts hf := by
    have hname := Check.nameOf_same hq
    unfold Check.nameOf? Check.tokensOf at hname
    unfold ofPathParts
    rw [h.parts (List.forall_mem_cons.1 hf).2, (ht.rows _ hq).node]
    generalize (qs.filterMap Tree.asToken?).find? (·.kind = .name) = name,
      (qs'.filterMap Tree.asToken?).find? (·.kind = .name) = name' at hname
    cases hname with
    | none => rfl
    | @some u u' hu =>
      have hu : u'.literal = u.literal := hu
      dsimp only
      rw [hu]

theorem RowRead.of (h : ∀ p ∈ ps, ValueRead p) (hp : LikeAll Token.Same Worded ps ps') :
    RowRead ps ps' := by
  induction hp with
  | nil => exact .nil
  | cons hfirst _ ih =>
    obtain ⟨hown, hs⟩ := List.forall_mem_cons.1 h
    cases hfirst with
    | token => exact (ih hs).token
    | node row parts => exact .node' hown row parts (ih hs)

theorem orDefect_some {α β : Type} (d : Defect) (a : α) (f : α → Except Fault β) :
    (orDefect d (some a) >>= f) = f a := rfl

/-- What is made of the only token of a row depends on its kind and, if it is a number, its text. -/
theorem onlyToken_same (h : LikeAll Token.Same Worded ps ps') :
    Option.Rel Token.Same (onlyToken? ps) (onlyToken? ps') := by
  cases h with
  | nil => exact .none
  | cons hfirst hrest =>
    cases hrest with
    | nil =>
      cases hfirst with
      | token hu => exact .some hu
      | node => exact .none
    | cons => cases hfirst <;> exact .none

theorem pathParts_same (hf : ∀ p ∈ ps, ValueRead p) (hc : Content P g .plain .path ps)
    (h : LikeAll Token.Same Worded ps ps') : ofPathParts ps' = ofPathParts ps := by
  cases hc with
  | @path _ root fs kind each =>
    cases h with
    | cons hfirst hrest =>
      cases hfirst with
      | @token _ root' hu =>
        have hroot : root'.literal = root.literal := Check.sameText_of_name hu kind
        have hfs := (RowRead.of (fun p hp => hf p (List.mem_cons_of_mem _ hp)) hrest).parts each
        simp only [ofPathParts, hroot, hfs]

theorem value_read (h : Formed P g .plain t) : ValueRead t := by
  induction h with
  | token u =>
    refine ⟨fun t' ht => ?_, fun ps' hp => ?_⟩
    · cases ht
      rfl
    · cases hp
      exact .nil
  | @node rule line ps content own parts ih =>
    refine ⟨fun t' ht => ?_, fun ps' hp => .of ih hp⟩
    cases ht with
    | @node _ _ _ ps' row hp =>
    have rows : RowRead ps ps' := .of ih hp
    cases rule with
    | number =>
      cases content with
      | @number _ u kind =>
        cases hp with
        | cons hfirst hrest =>
          cases hrest
          cases hfirst with
          | @token _ u' hu =>
            have hk := hu.kind
            have hl : u'.literal = u.literal := by
              refine hu.literal ?_ ?_ <;> rcases kind with kind | kind <;> simp [kind]
            show ofNumber u' = ofNumber u
            unfold ofNumber
            rw [hk, hl]
    | string =>
      cases content with
      | @string _ u kind =>
        obtain ⟨v, _, v', vs, he, rfl, hu⟩ := row.head (.inr rfl)
        obtain rfl := Tree.token.inj (List.cons.inj he).1
        have hu : v'.literal = u.literal := hu
        cases hp with
        | cons _ hrest =>
          cases hrest
          show Except.ok (ofString v') = Except.ok (ofString u)
          unfold ofString
          rw [hu]
    | boolean =>
      have honly := onlyToken_same hp
      unfold ofTree
      generalize onlyToken? ps = only, onlyToken? ps' = only' at honly
      cases honly with
      | none => rfl
      | some hu => simp only [orDefect_some, hu.kind]
    | null => rfl
    | list =>
      unfold ofTree
      rw [← hp.length_eq, rows.first]
    | map =>
      unfold ofTree
      rw [rows.entries]
    | path => simp only [ofTree, pathParts_same ih content hp]
    | binaryExpression =>
      have hop := operator_same hp
      unfold ofTree
      rw [← hp.length_eq, rows.first]
      generalize operator? ps = op, operator? ps' = op' at hop
      cases hop with
      | none => rfl
      | some hu => simp only [orDefect_some, hu.kind]
    | unaryExpression =>
      have hop := operator_same hp
      unfold ofTree
      rw [nodeCount_same hp, rows.first]
      generalize operator? ps = op, operator? ps' = op' at hop
      cases hop with
      | none => rfl
      | some hu => simp only [orDefect_some, hu.kind]
    | cast =>
      unfold ofTree
      rw [rows.node]
      rcases Check.find_same hp .types with ⟨hn, hn'⟩ | ⟨types, types', hn, hn', ht, hu⟩
      · rw [hn, hn']
      · rw [hn, hn', orDefect_some, orDefect_some, ofTypes_same _ _ hu ht]
    | expressionStatement => exact rows.node _
    | _ => rfl

/-! ## Arguments and mutations -/

theorem ofTree_same (hf : Formed P g .plain t) (h : t.Same t') : ofTree t' = ofTree t :=
  (value_read hf).value _ h

theorem row_read (hf : ∀ p ∈ ps, Formed P g .plain p) (h : LikeAll Token.Same Worded ps ps') :
    RowRead ps ps' :=
  .of (fun p hp => value_read (hf p hp)) h

theorem mapM_same {β : Type} {f : Tree → Except Fault β} (h : LikeAll Token.Same Worded ps ps')
    (hf : ∀ p ∈ ps, ∀ p', p.Same p' → f p' = f p) : ps'.mapM f = ps.mapM f := by
  induction h with
  | nil => rfl
  | cons hp _ ih =>
    rw [List.mapM_cons, List.mapM_cons, hf _ List.mem_cons_self _ hp,
      ih fun p hm => hf p (List.mem_cons_of_mem _ hm)]

/-- The nodes at a place among the parts. -/
theorem node_same (hf : ∀ p ∈ t.parts, Formed P g .plain p) (h : t.Same t') (i : Nat) :
    (t.node? i = none ∧ t'.node? i = none) ∨
      ∃ v v', t.node? i = some v ∧ t'.node? i = some v' ∧ Formed P g .plain v ∧ v.Same v' := by
  rcases rel_cases (h.node? i) with hn | ⟨v, v', hn, hn', hv⟩
  · exact .inl hn
  · exact .inr ⟨v, v', hn, hn', hf v (List.mem_of_mem_filter (List.mem_of_getElem? hn)), hv⟩

theorem ofArgument_same (hf : Formed P g .plain t) (h : t.Same t') (ht : t.isA .argument = true) :
    ofArgument t' = ofArgument t := by
  obtain ⟨u, u', hu, hu', hsame⟩ := Check.firstToken_of_isA h ht rfl
  have hsame : u'.literal = u.literal := hsame
  unfold ofArgument
  rcases node_same (formed_parts hf) h 0 with ⟨hn, hn'⟩ | ⟨v, v', hn, hn', hv, hlike⟩
  · simp only [hu, hu', hn, hn']
  · simp only [hu, hu', hn, hn', hsame, ofTree_same hv hlike]

theorem ofArguments_same (hf : ∀ p ∈ ps, Formed P g .plain p) (h : LikeAll Token.Same Worded ps ps') :
    ofArguments ps' = ofArguments ps := by
  unfold ofArguments
  rcases Check.find_same h .arguments with ⟨hn, hn'⟩ | ⟨given, given', hn, hn', ht, hlike⟩
  · simp only [hn, hn']
  · simp only [hn, hn']
    have hgiven := hf given (List.mem_of_find?_eq_some hn)
    obtain ⟨line, qs, rfl⟩ := Tree.isA_iff.1 ht
    refine mapM_same (rel_filter hlike.parts Like.isNode) fun p hp p' hs => ?_
    have hmem : p ∈ qs := List.mem_of_mem_filter hp
    cases hgiven with
    | node content _ parts =>
      cases content with
      | arguments each => exact ofArgument_same (parts p hmem) hs (each p hmem)

theorem ofMutation_same (hf : Formed P g .plain t) (h : t.Same t') : ofMutation t' = ofMutation t := by
  have hname : Option.Rel SameText (t.token? .name) (t'.token? .name) := Check.nameOf_same h.parts
  unfold ofMutation
  rw [ofArguments_same (formed_parts hf) h.parts]
  rcases rel_cases hname with ⟨hn, hn'⟩ | ⟨u, u', hn, hn', hu⟩
  · rw [hn, hn']
  · have hu : u'.literal = u.literal := hu
    rw [hn, hn', orDefect_some, orDefect_some, hu]

end Value

namespace Script

open Value (ofTree_same row_read mapM_same ofArguments_same node_same)

/-! ## Records -/

theorem nameIn_same (h : LikeAll Token.Same Worded ps ps') : nameIn? ps' = nameIn? ps := by
  have hname := Check.nameOf_same h
  unfold nameIn?
  unfold Check.nameOf? Check.tokensOf at hname
  rcases rel_cases hname with ⟨hn, hn'⟩ | ⟨u, u', hn, hn', hu⟩
  · rw [hn, hn']
  · have hu : u'.literal = u.literal := hu
    rw [hn, hn', Option.map_some, Option.map_some, hu]

theorem texts_same {us us' : List Token} (h : List.Forall₂ SameText us us') :
    us'.map (·.literal) = us.map (·.literal) := by
  induction h with
  | nil => rfl
  | @cons u u' _ _ hu _ ih =>
    have hu : u'.literal = u.literal := hu
    rw [List.map_cons, List.map_cons, hu, ih]

theorem outputNames_same (h : LikeAll Token.Same Worded ps ps') : outputNames ps' = outputNames ps := by
  rw [Check.outputNames_eq, Check.outputNames_eq, texts_same (Check.outputNames_same h)]

theorem parameter_same (h : t.Same t') (ht : t.isA .parameter = true) : parameter t' = parameter t := by
  obtain ⟨u, u', hu, hu', hsame⟩ := Check.firstToken_of_isA h ht rfl
  have hsame : u'.literal = u.literal := hsame
  unfold parameter Tree.find?
  rcases Check.find_same h.parts .types with ⟨hn, hn'⟩ | ⟨types, types', hn, hn', htypes, hlike⟩
  · simp only [hu, hu', hn, hn']
  · simp only [hu, hu', hn, hn', hsame, Value.ofTypes_same _ _ hlike htypes]

theorem returnsText_same (h : LikeAll Token.Same Worded ps ps') : returnsText ps' = returnsText ps := by
  have htypes := Check.returnTypes_same h
  have hmem := @Check.isA_returnTypes ps
  unfold returnsText
  unfold Check.returnTypes at htypes hmem
  rcases rel_cases htypes with ⟨hn, hn'⟩ | ⟨types, types', hn, hn', hlike⟩
  · rw [hn, hn']
  · simp only [hn, hn', Value.typesText_same _ _ hlike (hmem _ hn)]

/-- The name that the first path among the parts starts with. -/
theorem pathName_same (h : t.Same t') : Option.Rel SameText ((t.find? .path).bind Tree.firstToken?)
    ((t'.find? .path).bind Tree.firstToken?) := by
  unfold Tree.find?
  rcases Check.find_same h.parts .path with ⟨hn, hn'⟩ | ⟨path, path', hn, hn', hpath, hlike⟩
  · rw [hn, hn']
    exact .none
  · obtain ⟨u, u', hu, hu', hsame⟩ := Check.firstToken_of_isA hlike hpath rfl
    rw [hn, hn', Option.bind_some, Option.bind_some, hu, hu']
    exact .some hsame

theorem fill_same (r : Record) (hf : Formed P g .plain t) (h : t.Same t') : fill r t' = fill r t := by
  have hparts := formed_parts hf
  have harguments := ofArguments_same hparts h.parts
  have hname := nameIn_same h.parts
  have houtput := outputNames_same h.parts
  have hvalue := ofTree_same hf h
  have hnode := (row_read hparts h.parts).node (.noOperandOf .mutation)
  have hlinks : (t'.findAll .mutationFragment).mapM Value.ofMutation =
      (t.findAll .mutationFragment).mapM Value.ofMutation :=
    mapM_same (h.findAll _) fun p hp _ hs =>
      Value.ofMutation_same (hparts p (List.mem_of_mem_filter hp)) hs
  unfold fill
  rw [h.rule?, harguments, hname, houtput, hvalue, hnode, hlinks]
  split
  · rcases rel_cases (pathName_same h) with ⟨hn, hn'⟩ | ⟨u, u', hn, hn', hu⟩
    · rw [hn, hn']
    · have hu : u'.literal = u.literal := hu
      simp only [hn, hn', Value.orDefect_some, hu]
  all_goals rfl

/-- What is assigned to is a path. -/
theorem target_parts (hf : Formed P g .plain t) (ht : t.rule? = some .assignment) {target : Tree}
    (hn : t.node? 0 = some target) : Content P g .plain .path target.parts := by
  cases hf with
  | token => cases ht
  | @node rule line ps content _ parts =>
    obtain rfl : rule = .assignment := Option.some.inj ht
    cases content with
    | assignment path _ =>
      obtain ⟨_, qs, rfl⟩ := Tree.isA_iff.1 path
      obtain rfl : Tree.node .path _ qs = target := Option.some.inj hn
      cases parts _ List.mem_cons_self with
      | node content _ _ => exact content

theorem recordOf_same (line : Coord) (hf : Formed P g .plain t) (h : t.Same t') :
    recordOf line t' = recordOf line t := by
  have hparts := formed_parts hf
  have harguments := ofArguments_same hparts h.parts
  have hname := nameIn_same h.parts
  have houtput := outputNames_same h.parts
  have hvalue := ofTree_same hf h
  have hrows := row_read hparts h.parts
  have hreturns := returnsText_same h.parts
  have hparameters : (t'.findAll .parameter).mapM parameter = (t.findAll .parameter).mapM parameter :=
    mapM_same (h.findAll _) fun p hp _ hs => parameter_same hs (List.mem_filter.1 hp).2
  unfold recordOf
  simp only [h.rule?, harguments, hname, houtput, hvalue, hrows.first, hrows.node, hreturns,
    hparameters, fill_same _ hf h]
  cases hr : t.rule? with
  | none => rfl
  | some rule =>
    cases rule with
    | assignment =>
      rcases node_same hparts h 0 with ⟨hn, hn'⟩ | ⟨target, target', hn, hn', htarget, hlike⟩
      · simp only [hn, hn']
      rcases node_same hparts h 1 with ⟨hv, hv'⟩ | ⟨v, v', hv, hv', hvalue, hsame⟩
      · simp only [hn, hn', hv, hv']
      · have hpath := Value.pathParts_same (fun p hp => Value.value_read (formed_parts htarget p hp))
          (target_parts hf hr hn) hlike.parts
        simp only [hn, hn', hv, hv', hpath, fill_same _ hvalue hsame]
    | whenBlock =>
      unfold Tree.find?
      rcases Check.find_same h.parts .path with ⟨hn, hn'⟩ | ⟨path, path', hn, hn', hpath, hlike⟩
      · simp only [hn, hn']
      · obtain ⟨u, u', hu, hu', hsame⟩ := Check.firstToken_of_isA hlike hpath rfl
        have hsame : u'.literal = u.literal := hsame
        simp only [hn, hn', Value.orDefect_some, hu, hu', Option.map_some, hsame]
    | importStatement =>
      rcases node_same hparts h 0 with ⟨hn, hn'⟩ | ⟨path, path', hn, hn', hpath, hlike⟩
      · simp only [hn, hn']
      · simp only [hn, hn']
        cases nameIn? t.parts with
        | none => rfl
        | some name => simp only [ofTree_same hpath hlike]
    | _ => rfl

/-! ## Coordinates -/

theorem firstLine_same (h : LikeAll Token.Same Worded ps ps') : firstLine? ps' = firstLine? ps := by
  unfold firstLine?
  rcases rel_cases (rel_find? h Like.isNode) with ⟨hn, hn'⟩ | ⟨t, t', hn, hn', ht⟩
  · rw [hn, hn']
  · rw [hn, hn', Option.bind_some, Option.bind_some, Check.line_same ht]

theorem enterOf_same (h : LikeAll Token.Same Worded ps ps') : enterOf ps' = enterOf ps := by
  unfold enterOf
  rcases Check.find_same h .block with ⟨hn, hn'⟩ | ⟨block, block', hn, hn', -, hlike⟩
  · rw [hn, hn']
  · rw [hn, hn', Option.bind_some, Option.bind_some, firstLine_same hlike.parts]

theorem isOneOf_same (rules : List Rule) (t t' : Tree) (h : t.Same t') :
    isOneOf rules t' = isOneOf rules t := by
  unfold isOneOf
  simp only [Like.isA _ _ _ h]

theorem nextOf_same (rules : List Rule) (after : Option Coord) (h : LikeAll Token.Same Worded ps ps') :
    nextOf rules after ps' = nextOf rules after ps := by
  unfold nextOf
  rcases rel_cases (rel_find? h (isOneOf_same rules)) with ⟨hn, hn'⟩ | ⟨t, t', hn, hn', ht⟩
  · rw [hn, hn']
  · rw [hn, hn', Option.bind_some, Option.bind_some, Check.line_same ht]

theorem exitOf_same (rule : Rule) (after : Option Coord) (h : LikeAll Token.Same Worded ps ps') :
    exitOf rule after ps' = exitOf rule after ps := by
  unfold exitOf
  rw [nextOf_same _ _ h]

end Script

/-! ## Scripts -/

/-- The record without the line of the story that it is for. -/
def Record.unsourced (r : Record) : Record := { r with source := none }

/-- The script without the lines of the story. -/
def Script.unsourced (s : Script) : Script := { s with records := s.records.map Record.unsourced }

namespace Script

variable {source source' : String} {x x' : Except Fault Script} {s s' : Script}

/-- The results are the same but for the lines of the story. -/
def Agree (x x' : Except Fault Script) : Prop := x'.map unsourced = x.map unsourced

theorem Agree.ok (h : s'.unsourced = s.unsourced) : Agree (.ok s) (.ok s') :=
  congrArg Except.ok h

theorem Agree.bind {f f' : Script → Except Fault Script} (h : Agree x x')
    (hf : ∀ s s', s'.unsourced = s.unsourced → Agree (f s) (f' s')) : Agree (x >>= f) (x' >>= f') := by
  cases x with
  | error fault =>
    cases x' with
    | error fault' =>
      obtain rfl : fault' = fault := Except.error.inj h
      rfl
    | ok s' => cases h
  | ok s =>
    cases x' with
    | error fault' => cases h
    | ok s' => exact hf s s' (Except.ok.inj h)

theorem insertRecord_unsourced (r : Record) (rs : List Record) :
    insertRecord r.unsourced (rs.map Record.unsourced) =
      (insertRecord r rs).map (·.map Record.unsourced) := by
  induction rs with
  | nil => rfl
  | cons other rs ih =>
    have hline (r : Record) : r.unsourced.line = r.line := rfl
    simp only [List.map_cons, insertRecord, hline, ih]
    split
    · rfl
    · split
      · rfl
      · cases insertRecord r rs <;> rfl

theorem map_add (source : String) (s : Script) (r : Record) :
    (add source s r).map unsourced = s.unsourced.insert r.unsourced := by
  have hrecords := insertRecord_unsourced { r with source := sourceOf source r.line } s.records
  have hline : r.unsourced.line = r.line := rfl
  unfold add insert
  rw [show s.unsourced.records = s.records.map Record.unsourced from rfl]
  rw [show r.unsourced = ({ r with source := sourceOf source r.line } : Record).unsourced from rfl,
    hrecords]
  cases insertRecord { r with source := sourceOf source r.line } s.records <;> rfl

theorem agree_add (r : Record) (h : s'.unsourced = s.unsourced) :
    Agree (add source s r) (add source' s' r) := by
  rw [Agree, map_add, map_add, h]

/-- Rows of statements are written the same. -/
structure RowWritten (source source' : String) (ps ps' : List Tree) : Prop where
  statements : ∀ place {s s'}, s'.unsourced = s.unsourced →
    Agree (ofStatements source place s ps) (ofStatements source' place s' ps')
  body : ∀ place {s s'}, s'.unsourced = s.unsourced →
    Agree (ofBody source place s ps) (ofBody source' place s' ps')
  continuations : ∀ rules place {s s'}, s'.unsourced = s.unsourced →
    Agree (ofContinuations source rules place s ps) (ofContinuations source' rules place s' ps')

/-- A statement and one that says the same are written the same. -/
structure TreeWritten (source source' : String) (t : Tree) : Prop where
  statement : ∀ place t' {s s'}, t.Same t' → s'.unsourced = s.unsourced →
    Agree (ofStatement source place s t) (ofStatement source' place s' t')
  rows : ∀ ps', LikeAll Token.Same Worded t.parts ps' → RowWritten source source' t.parts ps'

theorem RowWritten.nil : RowWritten source source' [] [] :=
  ⟨fun _ _ _ h => .ok h, fun _ _ _ h => .ok h, fun _ _ _ _ h => .ok h⟩

theorem RowWritten.token {u u' : Token} (h : RowWritten source source' ps ps') :
    RowWritten source source' (.token u :: ps) (.token u' :: ps') where
  statements place _ _ hs := by
    unfold ofStatements
    exact h.statements place hs
  body place _ _ hs := by
    unfold ofBody
    exact h.body place hs
  continuations rules place _ _ hs := by
    unfold ofContinuations
    exact h.continuations rules place hs

theorem agree_orDefect {d : Defect} {c : Option Coord} {f f' : Coord → Except Fault Script}
    (h : ∀ line, Agree (f line) (f' line)) :
    Agree (Value.orDefect d c >>= f) (Value.orDefect d c >>= f') := by
  cases c with
  | none => rfl
  | some line => exact h line

theorem agree_record {y : Except Fault Record} {f f' : Record → Except Fault Script}
    (h : ∀ r, Agree (f r) (f' r)) : Agree (y >>= f) (y >>= f') := by
  cases y with
  | error => rfl
  | ok r => exact h r

theorem RowWritten.node {qs qs' : List Tree} (hf : Formed P g .plain (.node r line qs))
    (ht : TreeWritten source source' (.node r line qs)) (row : Worded r qs qs')
    (hq : LikeAll Token.Same Worded qs qs') (hp : LikeAll Token.Same Worded ps ps')
    (h : RowWritten source source' ps ps') :
    RowWritten source source' (.node r line qs :: ps) (.node r line qs' :: ps') where
  statements place _ _ hs := by
    unfold ofStatements
    rw [firstLine_same hp]
    exact (ht.statement _ _ (.node row hq) hs).bind fun _ _ hs => h.statements place hs
  body place _ _ hs := by
    by_cases hr : r = .block
    · subst hr
      unfold ofBody
      exact (ht.rows _ hq).statements place hs
    · have hskip : ∀ source s inner others,
          ofBody source place s (.node r line inner :: others) = ofBody source place s others := by
        intro source s inner others
        cases r <;> first | exact absurd rfl hr | rfl
      rw [hskip, hskip]
      exact h.body place hs
  continuations rules place _ _ hs := by
    have hsame : (Tree.node r line qs).Same (.node r line qs') := .node row hq
    unfold ofContinuations
    dsimp only
    rw [isOneOf_same rules _ _ hsame, Check.line_same hsame, nextOf_same _ _ hp, enterOf_same hq]
    split
    · refine agree_orDefect fun own => ?_
      rw [recordOf_same own hf hsame]
      refine agree_record fun r => (agree_add _ hs).bind fun _ _ hs => ?_
      refine ((ht.rows _ hq).body _ hs).bind fun _ _ hs => h.continuations rules place hs
    · exact h.continuations rules place hs

theorem RowWritten.of (hf : ∀ p ∈ ps, Formed P g .plain p)
    (h : ∀ p ∈ ps, TreeWritten source source' p) (hp : LikeAll Token.Same Worded ps ps') :
    RowWritten source source' ps ps' := by
  induction hp with
  | nil => exact .nil
  | cons hfirst hrest ih =>
    obtain ⟨hformed, hfs⟩ := List.forall_mem_cons.1 hf
    obtain ⟨hown, hs⟩ := List.forall_mem_cons.1 h
    cases hfirst with
    | token => exact (ih hfs hs).token
    | node row parts => exact .node hformed hown row parts hrest (ih hfs hs)

theorem tree_written (source source' : String) (h : Formed P g .plain t) :
    TreeWritten source source' t := by
  induction h with
  | token u =>
    refine ⟨fun place t' _ _ ht hs => ?_, fun ps' hp => ?_⟩
    · cases ht
      exact .ok hs
    · cases hp
      exact .nil
  | @node rule line ps content own parts ih =>
    refine ⟨fun place t' s s' ht hs => ?_, fun ps' hp => .of parts ih hp⟩
    have hf : Formed P g .plain (.node rule line ps) := .node content own parts
    have hline := Check.line_same ht
    have hrecord := fun own => recordOf_same own hf ht
    cases ht with
    | @node _ _ _ ps' row hp =>
    have rows : RowWritten source source' ps ps' := .of parts ih hp
    unfold ofStatement
    dsimp only
    rw [hline, exitOf_same _ _ hp, enterOf_same hp]
    refine agree_orDefect fun own => ?_
    split
    · rfl
    · rw [hrecord]
      refine agree_record fun r => ?_
      have hdeclare (name : String) : (s'.declare name own).unsourced = (s.declare name own).unsourced :=
        congrArg (·.declare name own) hs
      split
      · refine (agree_add _ ?_).bind fun _ _ hs =>
          (rows.body _ hs).bind fun _ _ hs => rows.continuations _ place hs
        split
        · exact hdeclare _
        · exact hs
      · refine agree_add _ ?_
        split
        · exact hdeclare _
        · exact hs

theorem linked_unsourced (rs : List Record) :
    (linked rs).map Record.unsourced = linked (rs.map Record.unsourced) := by
  fun_induction linked rs with
  | case1 => rfl
  | case2 r => rfl
  | case3 r r' rest ih =>
    simp only [List.map_cons] at ih ⊢
    rw [ih]
    rfl

/-- Trees that say the same are written as the same script. -/
theorem ofTree_agree (source source' : String) {left : List Tree} (hf : ∀ p ∈ left, Formed P g .plain p)
    (h : LikeAll Token.Same Worded left t'.parts) :
    Agree (ofTree source (.of .start left)) (ofTree source' t') := by
  have rows : RowWritten source source' left t'.parts :=
    .of hf (fun p hp => tree_written source source' (hf p hp)) h
  unfold ofTree
  refine (rows.statements _ rfl).bind fun s s' hs => .ok ?_
  have hrecords : s'.records.map Record.unsourced = s.records.map Record.unsourced :=
    congrArg Script.records hs
  have hfunctions : s'.unsourced.functions = s.unsourced.functions := by rw [hs]
  simp only [unsourced, linked_unsourced, hrecords] at hfunctions ⊢
  rw [hfunctions]

end Script

/-- The compiled story without the lines of the story and without its tree. -/
def CompiledStory.unsourced (c : CompiledStory) : CompiledStory :=
  { c with script := c.script.unsourced, tree := none }

theorem CompiledStory.entrypoint_same (h : t.Same t') : entrypointOf t' = entrypointOf t := by
  have hnodes := rel_filter (rel_filter h.parts Like.isNode) (p := (!·.isA .functionBlock))
    fun p p' hp => by rw [Like.isA _ _ _ hp]
  unfold entrypointOf Tree.nodes
  generalize (t.parts.filter Tree.isNode).filter (!·.isA .functionBlock) = ps,
    (t'.parts.filter Tree.isNode).filter (!·.isA .functionBlock) = ps' at hnodes
  induction hnodes with
  | nil => rfl
  | cons hp _ ih => rw [List.findSome?_cons, List.findSome?_cons, Check.line_same hp, ih]

/-- Trees that say the same are compiled to the same story. -/
theorem CompiledStory.ofTree_same {source : String} (source' : String) {left : List Tree}
    {services : List String} {c : CompiledStory} (hf : ∀ p ∈ left, Formed P g .plain p)
    (h : (Tree.of .start left).Same t') (hc : ofTree source (.of .start left) services = .ok c) :
    ∃ c', ofTree source' t' services = .ok c' ∧ c'.unsourced = c.unsourced := by
  obtain ⟨script, hs, hc⟩ := ok_of_bind hc
  obtain rfl := Except.ok.inj hc
  have hagree := Script.ofTree_agree source source' hf h.parts
  rw [hs, Script.Agree] at hagree
  unfold ofTree
  cases hs' : Script.ofTree source' t' with
  | error fault => simp [hs', Except.map] at hagree
  | ok script' =>
    rw [hs'] at hagree
    have hscript : script'.unsourced = script.unsourced := Except.ok.inj hagree
    refine ⟨_, rfl, ?_⟩
    simp only [unsourced, hscript, entrypoint_same h]

end StoryLang
