/-
The values and records of plain trees.

A call inside a value and every missing part are defects. A plain tree has
none of them, so the only thing that can be wrong with it is an operator that
no operation belongs to, and a grammar can be asked about that beforehand.

Plain statements have records, each at the coordinate of its statement. A record
describes its statement wherever that is. Behind it are the records of its
block, then those of its branches, and then those of what comes behind it in
its row.
-/
import StoryLang.Proofs.Script.Laid
import StoryLang.Proofs.Tree.Form
import StoryLang.Script.OfValue

/-! ## Values -/

namespace StoryLang

/-- Every operator between operands of the grammar has an operation. -/
def Grammar.KnowsOperators (g : Grammar) : Prop :=
  ∀ kind, (g.operators.between? kind).isSome → (Operation.between? kind).isSome

theorem Grammar.knowsOperators_builtIn : builtIn.KnowsOperators := by
  intro kind h
  obtain ⟨o, ho⟩ := Option.isSome_iff_exists.1 h
  have hkind : o.kind = kind := by simpa using List.find?_some ho
  have hmem := List.mem_of_find?_eq_some ho
  have hall : ∀ o ∈ builtIn.operators.between, (Operation.between? o.kind).isSome = true := by decide
  exact hkind ▸ hall o hmem

/-- The result is there and what it should be, unless an operator is unknown. -/
def Grammar.Gives {α : Type} (g : Grammar) (x : Except Fault α) (post : α → Prop) : Prop :=
  match x with
  | .ok a => post a
  | .error _ => ¬ g.KnowsOperators

namespace Grammar.Gives

variable {α β : Type} {g : Grammar} {x : Except Fault α} {post : α → Prop}

theorem ok {a : α} (h : post a) : g.Gives (.ok a) post := h

theorem mono {post' : α → Prop} (h : g.Gives x post) (hp : ∀ a, post a → post' a) :
    g.Gives x post' := by
  cases x with
  | ok a => exact hp a h
  | error f => exact h

theorem bind {f : α → Except Fault β} {post' : β → Prop} (h : g.Gives x post)
    (hf : ∀ a, post a → g.Gives (f a) post') : g.Gives (x >>= f) post' := by
  cases x with
  | ok a => exact hf a h
  | error e => exact h

/-- What is known of every result. -/
theorem also {post' : α → Prop} (h : g.Gives x post) (hp : ∀ a, x = .ok a → post' a) :
    g.Gives x fun a => post a ∧ post' a := by
  cases x with
  | ok a => exact ⟨h, hp a rfl⟩
  | error f => exact h

theorem mapM {f : α → Except Fault β} {as : List α} (h : ∀ a ∈ as, g.Gives (f a) fun _ => True) :
    g.Gives (as.mapM f) fun _ => True := by
  induction as with
  | nil => exact ok trivial
  | cons a as ih =>
    simp only [List.forall_mem_cons] at h
    rw [List.mapM_cons]
    exact h.1.bind fun _ _ => (ih h.2).bind fun _ _ => ok trivial

theorem orDefect {d : Defect} {o : Option α} {a : α} {f : α → Except Fault β} {post' : β → Prop}
    (ho : o = some a) (hf : g.Gives (f a) post') : g.Gives (Value.orDefect d o >>= f) post' := by
  subst ho
  exact hf

end Grammar.Gives

namespace Value

variable {g : Grammar} {t : Tree} {ps : List Tree}

/-- The tree has a value. -/
abbrev Has (g : Grammar) (t : Tree) : Prop := g.Gives (ofTree t) fun _ => True

theorem ofFirst_gives (h : ∀ p ∈ ps, p.isNode = true → Has g p) :
    ∀ n, g.Gives (ofFirst n ps) fun _ => True := by
  induction ps with
  | nil => intro n; cases n <;> exact .ok trivial
  | cons p ps ih =>
    intro n
    simp only [List.forall_mem_cons] at h
    cases p with
    | token u => simpa [ofFirst] using ih h.2 n
    | node r l inner =>
      cases n with
      | zero => exact .ok trivial
      | succ n =>
        unfold ofFirst
        exact (h.1 rfl).bind fun _ _ => (ih h.2 n).bind fun _ _ => .ok trivial

/-- A part of a path: its name, or the value of its index. -/
def ofPathPart (ps : List Tree) : Except Fault Value :=
  match (ps.filterMap Tree.asToken?).find? (·.kind = .name) with
  | some field => pure (.name field.literal)
  | none => ofNode .emptyIndex ps

theorem ofPathParts_node {rule : Rule} {line : Option Coord} {ts : List Tree} :
    ofPathParts (.node rule line ps :: ts) =
      ofPathPart ps >>= fun v => ofPathParts ts >>= fun vs => pure (v :: vs) := by
  rw [ofPathParts, ofPathPart]
  cases (ps.filterMap Tree.asToken?).find? (·.kind = .name) <;> rfl

/-- The parts of an entry of a map have a key and an item. -/
structure Keyed (g : Grammar) (ps : List Tree) : Prop where
  count : ¬ nodeCount ps < 2
  values : g.Gives (ofFirst 2 ps) fun vs => ∃ key item, vs = [key, item]

theorem ofPathParts_gives (h : ∀ p ∈ ps, p.isNode = true → g.Gives (ofPathPart p.parts) fun _ => True) :
    g.Gives (ofPathParts ps) fun _ => True := by
  induction ps with
  | nil => exact .ok trivial
  | cons p ps ih =>
    simp only [List.forall_mem_cons] at h
    cases p with
    | token u =>
      unfold ofPathParts
      exact (ih h.2).bind fun _ _ => .ok trivial
    | node r l inner =>
      rw [ofPathParts_node]
      exact (h.1 rfl).bind fun _ _ => (ih h.2).bind fun _ _ => .ok trivial

theorem ofEntries_gives (h : ∀ p ∈ ps, p.isNode = true → Keyed g p.parts) :
    g.Gives (ofEntries ps) fun _ => True := by
  induction ps with
  | nil => exact .ok trivial
  | cons p ps ih =>
    simp only [List.forall_mem_cons] at h
    cases p with
    | token u => simpa [ofEntries] using ih h.2
    | node r l inner =>
      have hkeyed : Keyed g inner := h.1 rfl
      unfold ofEntries
      rw [if_neg hkeyed.count]
      refine hkeyed.values.bind ?_
      rintro _ ⟨key, item, rfl⟩
      exact (ih h.2).bind fun _ _ => .ok trivial

theorem ofNumber_gives {u : Token} {line : Option Coord} (kind : u.kind = .int ∨ u.kind = .float)
    (sound : u.Sound) : Has g (.node .number line [.token u]) := by
  unfold Has ofTree
  refine .orDefect (a := u) rfl ?_
  unfold ofNumber
  rcases kind with kind | kind
  · obtain ⟨n, hn⟩ := Option.isSome_iff_exists.1 (sound.int kind)
    rw [if_pos kind, hn]
    exact .ok trivial
  · obtain ⟨x, hx⟩ := Option.isSome_iff_exists.1 (sound.float kind)
    rw [if_neg (by simp [kind]), hx]
    exact .ok trivial

/-- What a plain tree is worth, by what it is. -/
structure Valued (g : Grammar) (t : Tree) : Prop where
  value : t.fits .plain = true → Has g t
  item : t.isA .mapItem = true → Keyed g t.parts
  part : t.isA .pathFragment = true → g.Gives (ofPathPart t.parts) fun _ => True

/-- A node that is a value and neither an entry nor a part of a path. -/
theorem Valued.of {rule : Rule} {line : Option Coord}
    (hr : rule ≠ .mapItem ∧ rule ≠ .pathFragment)
    (h : rule.isValue = true → Has g (.node rule line ps)) : Valued g (.node rule line ps) where
  value hv := h (by simpa [Tree.fits, Tree.rule?] using hv)
  item hi := absurd (by simpa [Tree.isA, Tree.rule?] using hi) hr.1
  part hp := absurd (by simpa [Tree.isA, Tree.rule?] using hp) hr.2

theorem valued_of_formed (h : Formed Token.Sound g .plain t) : Valued g t := by
  induction h with
  | token u =>
    exact ⟨by simp [Tree.fits, Tree.rule?], by simp [Tree.isA, Tree.rule?],
      by simp [Tree.isA, Tree.rule?]⟩
  | @node rule line ps content own parts ih =>
    cases content with
    | number kind sound =>
      exact .of (by simp) fun _ => ofNumber_gives kind sound
    | string => exact .of (by simp) fun _ => .ok trivial
    | boolean => exact .of (by simp) fun _ => .ok trivial
    | null => exact .of (by simp) fun _ => .ok trivial
    | list each =>
      refine .of (by simp) fun _ => ?_
      unfold Has ofTree
      refine (ofFirst_gives (fun p hp hn => (ih p hp).value ?_) _).bind fun _ _ => .ok trivial
      simp only [List.cons_append, List.mem_cons, List.mem_append, List.not_mem_nil, or_false] at hp
      rcases hp with rfl | hp | rfl
      · simp [Tree.isNode] at hn
      · exact each p hp
      · simp [Tree.isNode] at hn
    | map each =>
      refine .of (by simp) fun _ => ?_
      unfold Has ofTree
      refine (ofEntries_gives fun p hp hn => (ih p hp).item ?_).bind fun _ _ => .ok trivial
      simp only [List.cons_append, List.mem_cons, List.mem_append, List.not_mem_nil, or_false] at hp
      rcases hp with rfl | hp | rfl
      · simp [Tree.isNode] at hn
      · exact each p hp
      · simp [Tree.isNode] at hn
    | @mapItem _ key item keyed value =>
      refine ⟨by simp [Tree.fits, Tree.rule?, Rule.isValue], fun _ => ?_, by simp [Tree.isA, Tree.rule?]⟩
      have hkey := (ih key (by simp)).value keyed
      have hitem := (ih item (by simp)).value value
      obtain ⟨_, _, _, rfl, -⟩ := Tree.fits_iff.1 keyed
      obtain ⟨_, _, _, rfl, -⟩ := Tree.fits_iff.1 value
      refine ⟨by simp [nodeCount, Tree.parts, Tree.isNode, List.filter_cons], ?_⟩
      unfold Tree.parts ofFirst
      refine hkey.bind fun k _ => @Grammar.Gives.bind _ _ _ _ (fun vs => ∃ v, vs = [v]) _ _ ?_ ?_
      · unfold ofFirst
        exact hitem.bind fun v _ => .ok ⟨v, rfl⟩
      · rintro _ ⟨v, rfl⟩
        exact .ok ⟨k, v, rfl⟩
    | @path _ root fs kind each =>
      refine .of (by simp) fun _ => ?_
      unfold Has ofTree
      refine (ofPathParts_gives fun p hp hn => (ih p hp).part ?_).bind fun _ _ => .ok trivial
      rcases List.mem_cons.1 hp with rfl | hp
      · simp [Tree.isNode] at hn
      · exact each p hp
    | @field _ dot name kind named =>
      refine ⟨by simp [Tree.fits, Tree.rule?, Rule.isValue], by simp [Tree.isA, Tree.rule?], fun _ => ?_⟩
      have hname : ([dot, name] : List Token).find? (·.kind = .name) = some name := by
        simp [kind, named]
      simp only [ofPathPart, Tree.parts, List.filterMap_cons, Tree.asToken?, List.filterMap_nil, hname]
      exact .ok trivial
    | @index _ opening v closing opens value closes =>
      refine ⟨by simp [Tree.fits, Tree.rule?, Rule.isValue], by simp [Tree.isA, Tree.rule?], fun _ => ?_⟩
      have hv := (ih v (by simp)).value value
      obtain ⟨_, _, _, rfl, -⟩ := Tree.fits_iff.1 value
      have hname : ([opening, closing] : List Token).find? (·.kind = .name) = none := by
        simp [opens, closes]
      simp only [ofPathPart, Tree.parts, List.filterMap_cons, Tree.asToken?, List.filterMap_nil, hname]
      exact hv
    | @unary _ sign v operand =>
      refine .of (by simp) fun _ => ?_
      have hv := (ih v (by simp)).value operand
      obtain ⟨_, _, _, rfl, -⟩ := Tree.fits_iff.1 operand
      unfold Has ofTree
      refine .orDefect (a := sign) rfl ?_
      rw [if_neg (by simp [nodeCount, Tree.isNode, List.filter_cons])]
      refine (ofFirst_gives (fun p hp hn => ?_) 1).bind fun _ _ => .ok trivial
      simp only [List.mem_cons, List.not_mem_nil, or_false] at hp
      rcases hp with rfl | rfl
      · simp [Tree.isNode] at hn
      · exact hv
    | @cast _ left word type value types =>
      refine .of (by simp) fun _ => ?_
      have hv := (ih left (by simp)).value value
      obtain ⟨_, _, _, rfl, -⟩ := Tree.fits_iff.1 value
      unfold Has ofTree
      refine .orDefect (a := type) ?_ ?_
      · have hl := Tree.fits_isA (r := .types) value ⟨rfl, rfl⟩
        rw [List.find?_cons_of_neg (by simp [hl]), List.find?_cons_of_neg (by simp [Tree.isA, Tree.rule?]),
          List.find?_cons_of_pos types]
      · unfold ofNode
        exact hv.bind fun _ _ => .ok trivial
    | @binary _ left sign right first operator second =>
      refine .of (by simp) fun _ => ?_
      have hl := (ih left (by simp)).value first
      have hr := (ih right (by simp)).value second
      obtain ⟨_, _, _, rfl, -⟩ := Tree.fits_iff.1 first
      unfold Has ofTree
      refine .orDefect (a := sign) rfl ?_
      refine (ofFirst_gives (fun p hp hn => ?_) _).bind fun operands _ => ?_
      · simp only [List.mem_cons, List.not_mem_nil, or_false] at hp
        rcases hp with rfl | rfl | rfl
        · exact hl
        · simp [Tree.isNode] at hn
        · exact hr
      · by_cases hg : g.KnowsOperators
        · have hop : (Operation.between? sign.kind).isSome := by
            rcases operator with h | h
            · exact hg _ h
            · rw [h]; rfl
          obtain ⟨operation, hop⟩ := Option.isSome_iff_exists.1 hop
          exact .orDefect hop (.ok trivial)
        · cases hop : Operation.between? sign.kind with
          | none => exact hg
          | some operation => exact .ok trivial
    | _ => exact .of (by simp) (by simp [Rule.isValue])

/-- The parts of a path. -/
theorem pathParts_gives (h : Formed Token.Sound g .plain t) (ht : t.isA .path = true) :
    g.Gives (ofPathParts t.parts) fun _ => True := by
  obtain ⟨line, ps, rfl⟩ := Tree.isA_iff.1 ht
  cases h with
  | node content own parts =>
    cases content with
    | path kind each =>
      refine ofPathParts_gives fun p hp hn => (valued_of_formed (parts p hp)).part ?_
      rcases List.mem_cons.1 hp with rfl | hp
      · simp [Tree.isNode] at hn
      · exact each p hp

end Value

end StoryLang

/-! ## Records -/

namespace StoryLang

variable {g : Grammar} {t : Tree} {ps : List Tree}

namespace Value

theorem ofArgument_gives (h : Formed Token.Sound g .plain t) (ha : t.isA .argument = true) :
    g.Gives (ofArgument t) fun _ => True := by
  obtain ⟨line, ps, rfl⟩ := Tree.isA_iff.1 ha
  cases h with
  | node content own parts =>
    cases content with
    | @argument _ name v named value =>
      have hv := (valued_of_formed (parts v (by simp))).value value
      have hnode : (Tree.node .argument line [.token name, v]).node? 0 = some v := by
        obtain ⟨_, _, _, rfl, -⟩ := Tree.fits_iff.1 value
        rfl
      unfold ofArgument
      simp only [Tree.firstToken?, Tree.firstTokenOf?, Option.some_or, hnode]
      exact hv.bind fun _ _ => .ok trivial

theorem ofArguments_gives (hf : ∀ p ∈ ps, Formed Token.Sound g .plain p) :
    g.Gives (ofArguments ps) fun _ => True := by
  unfold ofArguments
  split
  · rename_i given h
    have hg := hf given (List.mem_of_find?_eq_some h)
    obtain ⟨line, args, rfl⟩ := Tree.isA_iff.1 (List.find?_some h)
    cases hg with
    | node content own parts =>
      cases content with
      | arguments each =>
        refine .mapM fun a ha => ?_
        have hmem := (List.mem_filter.1 ha).1
        exact ofArgument_gives (parts a hmem) (each a hmem)
  · exact .ok trivial

theorem ofMutation_gives (h : Formed Token.Sound g .plain t) (ha : t.isA .mutationFragment = true) :
    g.Gives (ofMutation t) fun _ => True := by
  obtain ⟨line, ps, rfl⟩ := Tree.isA_iff.1 ha
  cases h with
  | node content own parts =>
    have hname : ∃ name, (Tree.node .mutationFragment line ps).token? .name = some name := by
      cases content with
      | @link _ name given named arguments =>
        exact ⟨name, by simp [Tree.token?, Tree.tokens, Tree.parts, Tree.asToken?, named]⟩
      | @furtherLink _ word name given kind named arguments =>
        exact ⟨name, by simp [Tree.token?, Tree.tokens, Tree.parts, Tree.asToken?, kind, named]⟩
    obtain ⟨name, hname⟩ := hname
    unfold ofMutation
    exact .orDefect hname ((ofArguments_gives parts).bind fun _ _ => .ok trivial)

theorem ofNode_gives {d : Defect} (front : List Token) {v : Tree} {rest : List Tree}
    (hv : Formed Token.Sound g .plain v) (hf : v.fits .plain = true) :
    g.Gives (ofNode d (front.map .token ++ v :: rest)) fun _ => True := by
  induction front with
  | nil =>
    have h := (valued_of_formed hv).value hf
    obtain ⟨_, _, _, rfl, -⟩ := Tree.fits_iff.1 hf
    exact h
  | cons u front ih => exact ih

end Value

namespace Script

open Value (ofNode_gives valued_of_formed)

/-- What a statement evaluates fills its record. -/
theorem fill_gives {r : Record} {v : Tree} (hv : Formed Token.Sound g .plain v)
    (hk : v.fits .plain = true ∨ v.isCall = true) :
    g.Gives (fill r v) fun r' => r'.line = r.line := by
  cases hv with
  | token u => simp [Tree.fits, Tree.isCall, Tree.rule?] at hk
  | @node rule line ps content own parts =>
    have hv : Formed Token.Sound g .plain (.node rule line ps) := .node content own parts
    unfold fill
    simp only [Tree.rule?]
    split
    · rename_i hr
      obtain rfl := Option.some.inj hr
      cases content with
      | @serviceCall _ subject command given extra path named arguments extras =>
        obtain ⟨pline, pps, rfl⟩ := Tree.isA_iff.1 path
        obtain ⟨root, hroot⟩ := Option.isSome_iff_exists.1
          ((parts (.node .path pline pps) (by simp)).hasToken rfl rfl)
        refine .orDefect (a := root) ?_ ?_
        · simp [Tree.find?, Tree.parts, Tree.isA, Tree.rule?, hroot]
        · exact (Value.ofArguments_gives parts).bind fun _ _ => .ok rfl
    · rename_i hr
      obtain rfl := Option.some.inj hr
      cases content with
      | @mutation subject link extra value linked extras =>
        refine (ofNode_gives [] (parts subject (by simp)) value).bind fun _ _ => ?_
        refine (Grammar.Gives.mapM fun f hf => ?_).bind fun _ _ => .ok rfl
        have hf := List.mem_filter.1 hf
        exact Value.ofMutation_gives (parts f hf.1) hf.2
    · rename_i hr
      obtain rfl := Option.some.inj hr
      cases content with
      | @functionCall _ name opening given closing named arguments =>
        refine .orDefect (a := name.literal) ?_ ?_
        · simp [nameIn?, Tree.parts, Tree.asToken?, named]
        · exact (Value.ofArguments_gives parts).bind fun _ _ => .ok rfl
    all_goals
      rename_i hr
      have hfits : (Tree.node rule line ps).fits .plain = true := by
        rcases hk with hk | hk
        · exact hk
        · cases rule <;> simp_all [Tree.isCall, Tree.rule?, Rule.isCall]
      exact ((valued_of_formed hv).value hfits).bind fun _ _ => .ok rfl

theorem nameIn?_isSome (ps : List Tree) {name : Token} (hm : .token name ∈ ps) (hk : name.kind = .name) :
    ∃ s, nameIn? ps = some s := by
  have h : ((ps.filterMap Tree.asToken?).find? (·.kind = .name)).isSome = true := by
    rw [List.find?_isSome]
    exact ⟨name, List.mem_filterMap.2 ⟨_, hm, rfl⟩, by simp [hk]⟩
  obtain ⟨u, hu⟩ := Option.isSome_iff_exists.1 h
  exact ⟨u.literal, by simp [nameIn?, hu]⟩

/-- A parameter of a function. -/
theorem parameter_gives (h : Formed Token.Sound g .plain t) (ht : t.isA .parameter = true) :
    g.Gives (parameter t) fun _ => True := by
  obtain ⟨line, ps, rfl⟩ := Tree.isA_iff.1 ht
  cases h with
  | node content own parts =>
    cases content with
    | @parameter _ name type types =>
      have hfind : (Tree.node .parameter line [.token name, type]).find? .types = some type := by
        rw [Tree.find?, Tree.parts, List.find?_cons_of_neg (by simp [Tree.isA, Tree.rule?]),
          List.find?_cons_of_pos types]
      unfold parameter
      rw [hfind]
      exact .ok trivial

/-- The value behind a `return` or a `throw`. -/
theorem ofFirst_value {word : Token} {v : Tree} (hv : Formed Token.Sound g .plain v)
    (hf : v.fits .plain = true) : g.Gives (Value.ofFirst 1 [.token word, v]) fun _ => True := by
  refine Value.ofFirst_gives (fun p hp hn => ?_) 1
  simp only [List.mem_cons, List.not_mem_nil, or_false] at hp
  rcases hp with rfl | rfl
  · simp [Tree.isNode] at hn
  · exact (valued_of_formed hv).value hf

theorem recordOf_gives {line : Coord} (h : Formed Token.Sound g .plain t)
    (ht : t.isStatement = true ∨ t.rule?.any Rule.isBranch = true) :
    g.Gives (recordOf line t) fun r => r.line = line := by
  have hf := h
  cases h with
  | token u => simp [Tree.isStatement, Tree.rule?] at ht
  | @node rule own ps content hown parts =>
    have one : ∀ {d : Defect} (front : List Token) {v : Tree} {rest : List Tree} {r : Value → Record},
        ps = front.map .token ++ v :: rest → v.fits .plain = true → (∀ a, (r a).line = line) →
          g.Gives (Value.ofNode d ps >>= fun a => pure (r a)) fun r => r.line = line := by
      rintro d front v rest r rfl hv hr
      exact (ofNode_gives front (parts v (by simp)) hv).bind fun a _ => .ok (hr a)
    cases content with
    | @assignment _ target sign v path value =>
      have hnodes : (Tree.node .assignment own [target, .token sign, v]).node? 0 = some target ∧
          (Tree.node .assignment own [target, .token sign, v]).node? 1 = some v := by
        obtain ⟨_, _, rfl⟩ := Tree.isA_iff.1 path
        cases v with
        | token u => simp [Tree.fits, Tree.isCall, Tree.rule?] at value
        | node => exact ⟨rfl, rfl⟩
      unfold recordOf
      simp only [Tree.rule?, hnodes]
      refine (Value.pathParts_gives (parts target (by simp)) path).bind fun _ _ => ?_
      exact fill_gives (parts v (by simp)) value
    | serviceCall | mutation | functionCall => exact fill_gives hf (.inr rfl)
    | expressionStatement value => exact one [] rfl value fun _ => rfl
    | @ifBlock _ word _ _ _ value => exact one [word] rfl value fun _ => rfl
    | @elifBlock _ elseWord ifWord _ _ value => exact one [elseWord, ifWord] rfl value fun _ => rfl
    | @foreachBlock _ word _ _ _ value => exact one [word] rfl value fun _ => rfl
    | @whileBlock _ word _ _ value => exact one [word] rfl value fun _ => rfl
    | elseBlock | tryBlock | catchBlock | catchAs | finallyBlock | breakOff | continueOn =>
      exact .ok rfl
    | @functionBlock _ word name declared body named each block =>
      obtain ⟨s, hs⟩ := nameIn?_isSome
        (.token word :: .token name :: declared ++ [body]) (by simp) named
      refine .orDefect hs ((Grammar.Gives.mapM fun p hp => ?_).bind fun _ _ => .ok rfl)
      have hp := List.mem_filter.1 hp
      exact parameter_gives (parts p hp.1) hp.2
    | @whenBlock _ word target event given body path arguments block
    | @whenAs _ word target event given names body path arguments output block =>
      refine .orDefect (a := target) ?_ ((Value.ofArguments_gives parts).bind fun _ _ => .ok rfl)
      rw [Tree.find?, Tree.parts, List.find?_cons_of_neg (by simp [Tree.isA, Tree.rule?]),
        List.find?_cons_of_pos path]
    | returnAlone | throwAlone => exact .ok rfl
    | returnValue value | throwValue value =>
      exact (ofFirst_value (parts _ (by simp)) value).bind fun _ _ => .ok rfl
    | @importFile _ word file asWord name value named =>
      obtain ⟨s, hs⟩ := nameIn?_isSome
        [.token word, file, .token asWord, .token name] (by simp) named
      have hnode : (Tree.node .importStatement own
          [.token word, file, .token asWord, .token name]).node? 0 = some file := by
        obtain ⟨_, _, _, rfl, -⟩ := Tree.fits_iff.1 value
        rfl
      unfold recordOf
      simp only [Tree.rule?, Tree.parts, hnode, hs]
      exact ((valued_of_formed (parts file (by simp))).value value).bind fun _ _ => .ok rfl
    | _ => simp [Tree.isStatement, Tree.rule?, Rule.isStatement, Rule.isBranch] at ht

/-! ## Records before their place is known -/

theorem some_of_orDefect {α : Type} {d : Defect} {o : Option α} {a : α} (h : Value.orDefect d o = .ok a) :
    o = some a := by
  cases o with
  | none => cases h
  | some b => exact congrArg some (Except.ok.inj h)

/-- What a record says before its place is known. -/
structure Fresh (rule : Rule) (r : Record) : Prop where
  enter : r.enter = none
  next : r.next = none
  block : r.method.hasBlock = true → rule.hasBlock = true ∧ rule ≠ .serviceCall
  function : r.method = .function → rule = .functionBlock
  listening : r.method = .whenMethod → rule = .whenBlock

/-- No method of a value takes a block. -/
theorem fill_fresh {rule : Rule} {r r' : Record} {v : Tree} (h : fill r v = .ok r') (he : r.enter = none) (hn : r.next = none) :
    Fresh rule r' := by
  unfold fill at h
  split at h
  · obtain ⟨_, -, h⟩ := ok_of_bind h
    obtain ⟨_, -, h⟩ := ok_of_bind h
    obtain rfl := Except.ok.inj h
    exact ⟨he, hn, nofun, nofun, nofun⟩
  · obtain ⟨_, -, h⟩ := ok_of_bind h
    obtain ⟨_, -, h⟩ := ok_of_bind h
    obtain rfl := Except.ok.inj h
    exact ⟨he, hn, nofun, nofun, nofun⟩
  · obtain ⟨_, -, h⟩ := ok_of_bind h
    obtain ⟨_, -, h⟩ := ok_of_bind h
    obtain rfl := Except.ok.inj h
    exact ⟨he, hn, nofun, nofun, nofun⟩
  all_goals
    obtain ⟨_, -, h⟩ := ok_of_bind h
    obtain rfl := Except.ok.inj h
    exact ⟨he, hn, nofun, nofun, nofun⟩

theorem recordOf_fresh {rule : Rule} {own : Option Coord} {line : Coord} {r : Record}
    (h : recordOf line (.node rule own ps) = .ok r) :
    Fresh rule r := by
  have one : ∀ {x : Except Fault Value} {f : Value → Record}, x >>= (fun a => pure (f a)) = .ok r →
      (∀ a, Fresh rule (f a)) → Fresh rule r := by
    intro x f h hf
    obtain ⟨a, -, h⟩ := ok_of_bind h
    obtain rfl := Except.ok.inj h
    exact hf a
  unfold recordOf at h
  cases rule with
  | assignment =>
    simp only [Tree.rule?] at h
    split at h
    · obtain ⟨_, -, h⟩ := ok_of_bind h
      exact fill_fresh h rfl rfl
    · cases h
  | serviceCall | mutation | functionCall => exact fill_fresh h rfl rfl
  | expressionStatement | ifBlock | elifBlock | foreachBlock | whileBlock =>
    exact one h fun _ => ⟨rfl, rfl, by simp [Record.bare, Method.hasBlock, Rule.hasBlock], by simp [Record.bare],
      by simp [Record.bare]⟩
  | elseBlock | tryBlock | catchBlock | finallyBlock | breakStatement | continueStatement =>
    obtain rfl := Except.ok.inj h
    exact ⟨rfl, rfl, by simp [Record.bare, Method.hasBlock, Rule.hasBlock], by simp [Record.bare],
      by simp [Record.bare]⟩
  | functionBlock | whenBlock =>
    obtain ⟨_, -, h⟩ := ok_of_bind h
    obtain ⟨_, -, h⟩ := ok_of_bind h
    obtain rfl := Except.ok.inj h
    exact ⟨rfl, rfl, by simp [Record.bare, Method.hasBlock, Rule.hasBlock], by simp [Record.bare],
      by simp [Record.bare]⟩
  | returnStatement | throwStatement =>
    obtain ⟨_, -, h⟩ := ok_of_bind h
    obtain rfl := Except.ok.inj h
    exact ⟨rfl, rfl, by simp [Record.bare, Method.hasBlock, Rule.hasBlock], by simp [Record.bare],
      by simp [Record.bare]⟩
  | importStatement =>
    simp only [Tree.rule?] at h
    split at h
    · exact one h fun _ => ⟨rfl, rfl, by simp [Record.bare, Method.hasBlock, Rule.hasBlock], by simp [Record.bare],
      by simp [Record.bare]⟩
    · cases h
  | _ => cases h

end Script

end StoryLang

namespace StoryLang.Script

/-! ## Which statement or branch each record is of -/

variable {parent : Option Coord} {t : Tree} {ts us : List Tree} {r : Record} {rs body rest : List Record}

/-- The statements of the first block of a row. -/
def blockOf (ps : List Tree) : List Tree := ((ps.find? (·.isA .block)).map Tree.parts).getD []

/-- The branches of an `if` and the handlers of a `try`. -/
def branchesOf : Tree → List Tree
  | .token _ => []
  | .node rule _ ps => ps.filter (isOneOf (continuations rule))

theorem branchesOf_eq_nil {rule : Rule} {own : Option Coord} {ps : List Tree}
    (h : continuations rule = []) : branchesOf (.node rule own ps) = [] := by
  simp [branchesOf, h, isOneOf]

theorem continuations_branch {rule : Rule} (h : rule.isBranch = true) : continuations rule = [] := by
  cases rule <;> first | rfl | exact absurd h (by decide)

/-- What a record says besides where it is and where it leads. -/
def bareOf (r : Record) : Record :=
  { r with enter := none, exit := none, parent := none, next := none, source := none }

/-- The record is that of the statement or branch. -/
def Describes (r : Record) (t : Tree) : Prop :=
  ∃ line r₀, recordOf line t = .ok r₀ ∧ bareOf r = bareOf r₀

theorem Describes.intro {line : Coord} (h : recordOf line t = .ok r) : Describes r t :=
  ⟨line, r, h, rfl⟩

theorem Describes.of_bare {r' : Record} (h : Describes r t) (hb : bareOf r' = bareOf r) :
    Describes r' t :=
  have ⟨line, r₀, hr, h⟩ := h
  ⟨line, r₀, hr, hb.trans h⟩

/-- The records of a row of statements or branches that is in the block of `parent`. -/
inductive Written : Option Coord → List Tree → List Record → Prop where
  | nil {parent : Option Coord} : Written parent [] []
  | cons {parent : Option Coord} {t : Tree} {r : Record} {body branches rest : List Record}
      {ts : List Tree} (describes : Describes r t) (place : r.parent = parent)
      (inside : Written (some r.line) (blockOf t.parts) body)
      (behind : Written parent (branchesOf t) branches) (others : Written parent ts rest) :
      Written parent (t :: ts) (r :: (body ++ (branches ++ rest)))

namespace Written

/-- A statement with its branches. -/
theorem statement {branches : List Record} (describes : Describes r t) (place : r.parent = parent)
    (inside : Written (some r.line) (blockOf t.parts) body)
    (behind : Written parent (branchesOf t) branches) :
    Written parent [t] (r :: (body ++ branches)) := by
  simpa using cons describes place inside behind .nil

/-- A branch, which has none of its own, with those behind it. -/
theorem branch (describes : Describes r t) (place : r.parent = parent) (hn : branchesOf t = [])
    (inside : Written (some r.line) (blockOf t.parts) body) (others : Written parent ts rest) :
    Written parent (t :: ts) (r :: (body ++ rest)) := by
  have behind : Written parent (branchesOf t) [] := by
    rw [hn]
    exact .nil
  exact cons describes place inside behind others

/-- A statement without a block. -/
theorem alone (describes : Describes r t) (place : r.parent = parent)
    (hb : blockOf t.parts = []) (hn : branchesOf t = []) : Written parent [t] [r] := by
  have inside : Written (some r.line) (blockOf t.parts) [] := by
    rw [hb]
    exact .nil
  exact branch describes place hn inside .nil

theorem append (h : Written parent ts rs) (h' : Written parent us rest) :
    Written parent (ts ++ us) (rs ++ rest) := by
  induction h with
  | nil => exact h'
  | cons describes place inside behind _ _ _ ih =>
    simpa using cons describes place inside behind (ih h')

/-- What comes after each record does not count. -/
theorem of_next {f : Record → Record} (hf : ∀ r, ∃ next, f r = { r with next })
    (h : Written parent ts (rs.map f)) : Written parent ts rs := by
  generalize hrs : rs.map f = rs' at h
  induction h generalizing rs with
  | nil =>
    obtain rfl := List.map_eq_nil_iff.1 hrs
    exact .nil
  | cons describes place inside behind others ih ih' ih'' =>
    obtain ⟨r, tail, rfl, rfl, htail⟩ := List.map_eq_cons_iff.1 hrs
    obtain ⟨body, tail, rfl, rfl, hrest⟩ := List.map_eq_append_iff.1 htail
    obtain ⟨branches, rest, rfl, rfl, rfl⟩ := List.map_eq_append_iff.1 hrest
    obtain ⟨next, hn⟩ := hf r
    rw [hn] at describes place ih
    exact .cons (describes.of_bare rfl) place (ih rfl) (ih' rfl) (ih'' rfl)

/-- Rows stay as they are when their records are linked. -/
theorem linked (h : Written parent ts rs) (hn : ∀ r ∈ rs, r.next = none) :
    Written parent ts (Script.linked rs) := by
  refine of_next (fun r => ⟨none, rfl⟩) ?_
  rwa [unlink_linked hn]

end Written

end StoryLang.Script
