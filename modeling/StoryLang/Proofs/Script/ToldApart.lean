/-
What the values of a story stand for, and how they are told apart.

`Means t v` says that a tree stands for a value, with one case for each way a
value can be written. The tree of a story stands for what is made of it, and
trees that stand for the same value are the same, up to the places of their
tokens and the spelling of numbers and strings.

What is written tells the value, and the value tells the tree: each rule has
a value of its own, the operator of an operation and the names of a path or a
type are in the value, and every other token is the only one of its kind.
What gets lost are the places of tokens, how a number was written, and which
characters of a string were written with a backslash.

Every value is written as an object with a tag of its own, only the names of a
path are bare texts and only the entries of a map are pairs, and an operation
is written by its name. So no two values are written in the same way.
-/
import Mathlib.Data.List.Forall2
import StoryLang.Proofs.Hoist.Code
import StoryLang.Proofs.Hoist.Normal
import StoryLang.Proofs.Script.Record
import StoryLang.Proofs.Token.Spelled
import StoryLang.Proofs.Tree.Like
import StoryLang.Proofs.Tree.Marks
import StoryLang.Script.Value
import StoryLang.Story.Basic

namespace StoryLang

namespace Value

mutual

/-- The tree stands for the value: a value of the story for its own, an entry of a map for its key
and item, and a type for its names. -/
inductive Means (g : Grammar) : Tree → Value → Prop where
  | int {u n} (kind : u.kind = .int) (value : ofNumber u = .ok (.int n)) :
    Means g (.of .number [.token u]) (.int n)
  | float {u x} (kind : u.kind = .float) (value : ofNumber u = .ok (.float x)) :
    Means g (.of .number [.token u]) (.float x)
  | string {u s} (kind : u.kind = .string) (value : ofString u = .string s) :
    Means g (.of .string [.token u]) (.string s)
  | boolean {u b} (kind : u.kind = .keyword .trueWord ∨ u.kind = .keyword .falseWord)
      (value : decide (u.kind = .keyword .trueWord) = b) :
    Means g (.of .boolean [.token u]) (.boolean b)
  | null {u} (kind : u.kind = .keyword .nullWord) : Means g (.of .null [.token u]) .null
  | list {opening ts closing vs} (opens : opening.kind = .symbol .leftBracket)
      (items : List.Forall₂ (Means g) ts vs) (closes : closing.kind = .symbol .rightBracket) :
    Means g (.of .list (.token opening :: ts ++ [.token closing])) (.list vs)
  | map {opening ts closing vs} (opens : opening.kind = .symbol .leftBrace)
      (items : List.Forall₂ (Means g) ts vs) (closes : closing.kind = .symbol .rightBrace) :
    Means g (.of .map (.token opening :: ts ++ [.token closing])) (.dict vs)
  | entry {key item v w} (keyed : Means g key v) (value : Means g item w) :
    Means g (.of .mapItem [key, item]) (.entry v w)
  | path {root ts s vs} (kind : root.kind = .name) (named : root.literal = s)
      (parts : List.Forall₂ (MeansPart g) ts vs) :
    Means g (.of .path (.token root :: ts)) (.path (.name s :: vs))
  | unary {sign t operation v} (operator : (g.operators.before? sign.kind).isSome)
      (does : Operation.before sign.kind = operation) (operand : Means g t v) :
    Means g (.of .unaryExpression [.token sign, t]) (.expression operation [v])
  | binary {left sign right operation v w} (does : Operation.between? sign.kind = some operation)
      (first : Means g left v) (second : Means g right w) :
    Means g (.of .binaryExpression [left, .token sign, right]) (.expression operation [v, w])
  | types {word ts s vs} (kind : word.kind = .keyword .functionWord ∨ word.kind = .name)
      (named : word.literal = s) (parts : List.Forall₂ (Means g) ts vs) :
    Means g (.of .types (.token word :: ts)) (.type s vs)
  | cast {t word type v w} (value : Means g t v) (kind : word.kind = .keyword .asWord)
      (types : Means g type w) : Means g (.of .cast [t, .token word, type]) (.cast w v)

/-- The part of a path stands for a name, or for the value of its index. -/
inductive MeansPart (g : Grammar) : Tree → Value → Prop where
  | field {dot name s} (kind : dot.kind = .symbol .dot) (named : name.kind = .name)
      (value : name.literal = s) : MeansPart g (.of .pathFragment [.token dot, .token name]) (.name s)
  | index {opening t closing v} (opens : opening.kind = .symbol .leftBracket) (value : Means g t v)
      (closes : closing.kind = .symbol .rightBracket) :
    MeansPart g (.of .pathFragment [.token opening, t, .token closing]) v

end

/-! ## What is made of a tree -/

/-- What is made of a node is what it stands for. -/
structure Told (g : Grammar) (t : Tree) : Prop where
  value : t.fits .read = true → ∀ v, ofTree t = .ok v → Means g t v
  entry : t.isA .mapItem = true → ∀ key item, ofFirst 2 t.parts = .ok [key, item] →
    Means g t (.entry key item)
  part : t.isA .pathFragment = true → ∀ v, ofPathPart t.parts = .ok v → MeansPart g t v
  types : t.isA .types = true → Means g t (ofTypes t)

variable {g : Grammar} {P : Token → Prop} {t : Tree} {ps items : List Tree} {closing : Token}

/-- A node that is no entry, no part of a path and no type. -/
theorem Told.of {rule : Rule} (hr : rule ≠ .mapItem ∧ rule ≠ .pathFragment ∧ rule ≠ .types)
    (h : ∀ v, rule.isValue = true → ofTree (.of rule ps) = .ok v → Means g (.of rule ps) v) :
    Told g (.of rule ps) where
  value hf v hv := by
    refine h v ?_ hv
    -- a call in a value is a defect
    cases rule <;> first | rfl | cases hv | cases hf
  entry hi := absurd (by simpa [Tree.isA, Tree.rule?] using hi) hr.1
  part hp := absurd (by simpa [Tree.isA, Tree.rule?] using hp) hr.2.1
  types ht := absurd (by simpa [Tree.isA, Tree.rule?] using ht) hr.2.2

theorem Told.token (u : Token) : Told g (.token u) where
  value hf := by cases hf
  entry hi := by cases hi
  part hp := by cases hp
  types ht := by cases ht

theorem Told.ofEntry (h : ∀ key item, ofFirst 2 ps = .ok [key, item] →
    Means g (.of .mapItem ps) (.entry key item)) : Told g (.of .mapItem ps) where
  value hf := by cases hf
  entry _ := h
  part hp := by cases hp
  types ht := by cases ht

theorem Told.ofPart (h : ∀ v, ofPathPart ps = .ok v → MeansPart g (.of .pathFragment ps) v) :
    Told g (.of .pathFragment ps) where
  value hf := by cases hf
  entry hi := by cases hi
  part _ := h
  types ht := by cases ht

theorem Told.ofTypes (h : Means g (.of .types ps) (Value.ofTypes (.of .types ps))) :
    Told g (.of .types ps) where
  value hf := by cases hf
  entry hi := by cases hi
  part hp := by cases hp
  types _ := h

/-- A row of values in front of a token. -/
theorem ofFirst_items {n : Nat} {vs : List Value} (hn : items.length ≤ n)
    (hf : ∀ p ∈ items, p.fits .read = true) (h : ∀ p ∈ items, Told g p)
    (hv : ofFirst n (items ++ [.token closing]) = .ok vs) : List.Forall₂ (Means g) items vs := by
  induction items generalizing n vs with
  | nil =>
    cases n <;> obtain rfl := Except.ok.inj hv <;> exact .nil
  | cons p items ih =>
    simp only [List.forall_mem_cons] at hf h
    obtain ⟨n, rfl⟩ : ∃ m, n = m + 1 := ⟨n - 1, by simp at hn; omega⟩
    cases p with
    | token u => cases hf.1
    | node r l inner =>
      obtain ⟨v, hfirst, hv⟩ := ok_of_bind hv
      obtain ⟨rest, hrest, hv⟩ := ok_of_bind hv
      obtain rfl := Except.ok.inj hv
      exact .cons (h.1.value hf.1 v hfirst) (ih (by simpa using hn) hf.2 h.2 hrest)

/-- The entries of a map in front of a token. -/
theorem ofEntries_items {vs : List Value} (hi : ∀ p ∈ items, p.isA .mapItem = true)
    (h : ∀ p ∈ items, Told g p) (hv : ofEntries (items ++ [.token closing]) = .ok vs) :
    List.Forall₂ (Means g) items vs := by
  induction items generalizing vs with
  | nil =>
    obtain rfl := Except.ok.inj hv
    exact .nil
  | cons p items ih =>
    simp only [List.forall_mem_cons] at hi h
    obtain ⟨line, inner, rfl⟩ := Tree.isA_iff.1 hi.1
    rw [List.cons_append] at hv
    unfold ofEntries at hv
    split at hv
    · cases hv
    · obtain ⟨pair, hpair, hv⟩ := ok_of_bind hv
      split at hv
      · obtain ⟨rest, hrest, hv⟩ := ok_of_bind hv
        obtain rfl := Except.ok.inj hv
        exact .cons (h.1.entry hi.1 _ _ hpair) (ih hi.2 h.2 hrest)
      · cases hv

/-- The fields and indexes of a path. -/
theorem ofPathParts_items {vs : List Value} (hi : ∀ p ∈ items, p.isA .pathFragment = true)
    (h : ∀ p ∈ items, Told g p) (hv : ofPathParts items = .ok vs) :
    List.Forall₂ (MeansPart g) items vs := by
  induction items generalizing vs with
  | nil =>
    obtain rfl := Except.ok.inj hv
    exact .nil
  | cons p items ih =>
    simp only [List.forall_mem_cons] at hi h
    obtain ⟨line, inner, rfl⟩ := Tree.isA_iff.1 hi.1
    obtain ⟨v, hfirst, hv⟩ : ∃ v, ofPathPart inner = .ok v ∧
        (do return v :: (← ofPathParts items)) = .ok vs := by
      unfold ofPathParts at hv
      unfold ofPathPart
      dsimp only at hv
      cases hname : (inner.filterMap Tree.asToken?).find? (·.kind = .name) with
      | some field =>
        rw [hname] at hv
        exact ⟨_, rfl, hv⟩
      | none =>
        rw [hname] at hv
        exact ok_of_bind hv
    obtain ⟨rest, hrest, hv⟩ := ok_of_bind hv
    obtain rfl := Except.ok.inj hv
    exact .cons (h.1.part hi.1 v hfirst) (ih hi.2 h.2 hrest)

theorem ofTypesParts_items (hi : ∀ p ∈ items, p.isA .types = true) (h : ∀ p ∈ items, Told g p) :
    List.Forall₂ (Means g) items (ofTypesParts items) := by
  induction items with
  | nil => exact .nil
  | cons p items ih =>
    simp only [List.forall_mem_cons] at hi h
    obtain ⟨line, inner, rfl⟩ := Tree.isA_iff.1 hi.1
    exact .cons (h.1.types hi.1) (ih hi.2 h.2)

theorem ofNumber_ok {u : Token} {v : Value} (h : ofNumber u = .ok v) :
    u.kind = .int ∧ (∃ n, v = .int n) ∨ u.kind ≠ .int ∧ ∃ x, v = .float x := by
  unfold ofNumber at h
  split at h
  · rename_i hk
    cases hn : Text.signed64? u.literal.toList with
    | none => simp [hn] at h
    | some n =>
      rw [hn] at h
      exact .inl ⟨hk, n, (Except.ok.inj h).symm⟩
  · rename_i hk
    cases hx : Binary64.literal? u.literal.toList with
    | none => simp [hx] at h
    | some x =>
      rw [hx] at h
      exact .inr ⟨hk, _, (Except.ok.inj h).symm⟩

/-- What is made of a tree that was read is what it stands for. -/
theorem told_of_formed (h : Formed P g .read t) : (∀ n ∈ t.walk, n.Marked g) → Told g t := by
  induction h with
  | token u =>
    exact fun _ => .token u
  | @node rule line ps content own parts ih =>
    intro hm
    obtain rfl := own rfl
    rw [Tree.forall_mem_walk] at hm
    have ih : ∀ p ∈ ps, Told g p := fun p hp => ih p hp (hm.2 p hp)
    have hm : (Tree.of rule ps).Marked g := hm.1
    cases content with
    | @number _ u kind =>
      refine .of (by simp) fun v _ hv => ?_
      have hv : ofNumber u = .ok v := hv
      rcases ofNumber_ok hv with ⟨hk, n, rfl⟩ | ⟨hk, x, rfl⟩
      · exact .int hk hv
      · exact .float (kind.resolve_left hk) hv
    | string kind =>
      refine .of (by simp) fun v _ hv => ?_
      obtain rfl := Except.ok.inj hv
      exact .string kind rfl
    | boolean =>
      refine .of (by simp) fun v _ hv => ?_
      obtain rfl := Except.ok.inj hv
      exact .boolean (by simpa [Tree.Marked] using hm) rfl
    | null =>
      refine .of (by simp) fun v _ hv => ?_
      obtain rfl := Except.ok.inj hv
      exact .null (by simpa [Tree.Marked] using hm)
    | @list _ opening items closing each =>
      refine .of (by simp) fun v _ hv => ?_
      obtain ⟨vs, hvs, hv⟩ := ok_of_bind hv
      obtain rfl := Except.ok.inj hv
      obtain ⟨opens, closes⟩ : opening.kind = _ ∧ closing.kind = _ := by simpa [Tree.Marked] using hm
      have hlen : items.length ≤ (.token opening :: items ++ [.token closing] : List Tree).length := by
        simp only [List.cons_append, List.length_cons, List.length_append]
        omega
      exact .list opens (ofFirst_items hlen each (fun p hp => ih p (by simp [hp])) hvs) closes
    | @map _ opening items closing each =>
      refine .of (by simp) fun v _ hv => ?_
      obtain ⟨vs, hvs, hv⟩ := ok_of_bind hv
      obtain rfl := Except.ok.inj hv
      obtain ⟨opens, closes⟩ : opening.kind = _ ∧ closing.kind = _ := by simpa [Tree.Marked] using hm
      exact .map opens (ofEntries_items each (fun p hp => ih p (by simp [hp])) hvs) closes
    | @mapItem _ key item keyed value =>
      refine .ofEntry fun v w hvs => ?_
      have hkey := ih key (by simp)
      have hitem := ih item (by simp)
      obtain ⟨_, _, _, rfl, -⟩ := Tree.fits_iff.1 keyed
      obtain ⟨_, _, _, rfl, -⟩ := Tree.fits_iff.1 value
      obtain ⟨v', hfirst, hvs⟩ := ok_of_bind hvs
      obtain ⟨rest, hrest, hvs⟩ := ok_of_bind hvs
      obtain ⟨w', hsecond, hrest⟩ := ok_of_bind hrest
      obtain rfl := Except.ok.inj hrest
      obtain ⟨rfl, rfl⟩ : v' = v ∧ w' = w := by simpa using Except.ok.inj hvs
      exact .entry (hkey.value keyed _ hfirst) (hitem.value value _ hsecond)
    | path kind each =>
      refine .of (by simp) fun v _ hv => ?_
      obtain ⟨vs, hvs, hv⟩ := ok_of_bind hv
      obtain rfl := Except.ok.inj hv
      obtain ⟨rest, hrest, hvs⟩ := ok_of_bind hvs
      obtain rfl := Except.ok.inj hvs
      exact .path kind rfl (ofPathParts_items each (fun p hp => ih p (by simp [hp])) hrest)
    | @field _ dot name kind named =>
      refine .ofPart fun v hv => ?_
      have hname : ([dot, name] : List Token).find? (·.kind = .name) = some name := by
        simp [kind, named]
      simp only [ofPathPart, List.filterMap_cons, Tree.asToken?, List.filterMap_nil, hname] at hv
      obtain rfl := Except.ok.inj hv
      exact .field kind named rfl
    | @index _ opening t closing opens value closes =>
      refine .ofPart fun v hv => ?_
      have ht := (ih t (by simp)).value value
      obtain ⟨_, _, _, rfl, -⟩ := Tree.fits_iff.1 value
      have hname : ([opening, closing] : List Token).find? (·.kind = .name) = none := by
        simp [opens, closes]
      simp only [ofPathPart, List.filterMap_cons, Tree.asToken?, List.filterMap_nil, hname] at hv
      exact .index opens (ht v hv) closes
    | @unary _ sign t operand =>
      refine .of (by simp) fun v _ hv => ?_
      have ht := (ih t (by simp)).value operand
      obtain ⟨_, _, _, rfl, -⟩ := Tree.fits_iff.1 operand
      obtain ⟨operator, hop, hv⟩ := ok_of_bind hv
      obtain rfl : sign = operator := Except.ok.inj hop
      split at hv
      · cases hv
      · obtain ⟨vs, hvs, hv⟩ := ok_of_bind hv
        obtain rfl := Except.ok.inj hv
        obtain ⟨w, hw, hvs⟩ := ok_of_bind hvs
        obtain rfl := Except.ok.inj hvs
        exact .unary (by simpa [Tree.Marked] using hm) rfl (ht w hw)
    | @cast _ left word type value types =>
      refine .of (by simp) fun v _ hv => ?_
      have hleft := (ih left (by simp)).value value
      have htype := (ih type (by simp)).types types
      obtain ⟨_, _, _, rfl, -⟩ := Tree.fits_iff.1 value
      obtain ⟨u, hu, hv⟩ := ok_of_bind hv
      obtain ⟨w, hw, hv⟩ := ok_of_bind hv
      obtain rfl := Except.ok.inj hv
      obtain rfl : type = u := by
        have hl := Tree.fits_isA (r := .types) value ⟨rfl, rfl⟩
        rw [List.find?_cons_of_neg (by simp [hl]), List.find?_cons_of_neg (by simp [Tree.isA, Tree.rule?]),
          List.find?_cons_of_pos types] at hu
        exact Except.ok.inj hu
      exact .cast (hleft w hw) (by simpa [Tree.Marked] using hm) htype
    | @binary _ left sign right first operator second =>
      refine .of (by simp) fun v _ hv => ?_
      have hleft := (ih left (by simp)).value first
      have hright := (ih right (by simp)).value second
      obtain ⟨_, _, _, rfl, -⟩ := Tree.fits_iff.1 first
      obtain ⟨_, _, _, rfl, -⟩ := Tree.fits_iff.1 second
      obtain ⟨operator, hop, hv⟩ := ok_of_bind hv
      obtain rfl : sign = operator := Except.ok.inj hop
      obtain ⟨vs, hvs, hv⟩ := ok_of_bind hv
      obtain ⟨operation, hdoes, hv⟩ := ok_of_bind hv
      obtain rfl := Except.ok.inj hv
      obtain ⟨v, hfirst, hvs⟩ := ok_of_bind hvs
      obtain ⟨rest, hrest, hvs⟩ := ok_of_bind hvs
      obtain ⟨w, hsecond, hrest⟩ := ok_of_bind hrest
      obtain rfl := Except.ok.inj hrest
      obtain rfl := Except.ok.inj hvs
      refine .binary ?_ (hleft v hfirst) (hright w hsecond)
      cases hb : Operation.between? sign.kind with
      | none => simp [hb, orDefect] at hdoes
      | some operation' =>
        rw [hb] at hdoes
        exact congrArg some (Except.ok.inj hdoes)
    | types word each =>
      refine .ofTypes ?_
      exact .types (by simpa [Tree.Marked] using hm) rfl
        (ofTypesParts_items each fun p hp => ih p (by simp [hp]))
    -- calls and statements are no values
    | _ => exact .of (by simp) fun v hv => by cases hv

end Value
end StoryLang

/-! ## What is written tells the value -/

namespace StoryLang

theorem Operation.name_inj {o o' : Operation} (h : o.name = o'.name) : o = o' := by
  cases o <;> cases o' <;> first | rfl | simp [Operation.name] at h

namespace Value

/-- What a type is made of is written if there is something. -/
theorem toJson_type (known : String) (parts : List Value) : toJson (type known parts) =
    tagged "type" (("type", .str known) ::
      if parts.isEmpty then [] else [("values", .arr (allToJson parts))]) := by
  cases parts <;> rfl

mutual

/-- Values that are written in the same way are the same. -/
theorem toJson_inj (v w : Value) (h : v.toJson = w.toJson) : v = w := by
  -- different tags leave only the pairs of one kind
  cases v <;> cases w <;> simp [toJson, toJson_type, tagged] at h
  case null.null => rfl
  case boolean.boolean | int.int | string.string | name.name => rw [h]
  case float.float x y => cases x <;> cases y <;> simp_all
  case list.list | dict.dict | path.path => rw [allToJson_inj _ _ h]
  case entry.entry | cast.cast => rw [toJson_inj _ _ h.1, toJson_inj _ _ h.2]
  case expression.expression => rw [Operation.name_inj h.1, allToJson_inj _ _ h.2]
  case type.type known parts known' parts' =>
    obtain ⟨rfl, h⟩ := h
    cases parts with
    | nil => cases parts' with
      | nil => rfl
      | cons => simp at h
    | cons v vs => cases parts' with
      | nil => simp at h
      | cons w ws =>
        have h : allToJson (v :: vs) = allToJson (w :: ws) := by simpa using h
        rw [allToJson_inj _ _ h]
  case argument.argument => rw [h.1, toJson_inj _ _ h.2]
  case mutation.mutation => rw [h.1, allToJson_inj _ _ h.2]

theorem allToJson_inj (vs ws : List Value) (h : allToJson vs = allToJson ws) : vs = ws := by
  cases vs <;> cases ws <;> simp [allToJson] at h
  · rfl
  · rw [toJson_inj _ _ h.1, allToJson_inj _ _ h.2]

end

end Value

end StoryLang

namespace StoryLang

/-- Tokens of one kind that say the same: numbers have the same value, strings the same text, and
every other token the same spelling. -/
structure Token.Says (u u' : Token) : Prop where
  kind : u'.kind = u.kind
  number : u.kind = .int ∨ u.kind = .float → Value.ofNumber u' = Value.ofNumber u
  string : u.kind = .string → Value.ofString u' = Value.ofString u
  spelling : u.kind ≠ .int ∧ u.kind ≠ .float ∧ u.kind ≠ .string → u'.literal = u.literal

/-- Symbols and keywords, of which there is one spelling for each. -/
def TokenKind.isMark : TokenKind → Bool
  | .symbol _ | .keyword _ => true
  | _ => false

namespace Token.Says

variable {u u' : Token}

theorem of_mark (h : u.Spelled .builtIn) (h' : u'.Spelled .builtIn) (hk : u'.kind = u.kind)
    (hm : u.kind.isMark = true) : u.Says u' := by
  obtain ⟨hl, hn, hi, hf, hs⟩ : u.kind.isLayout = false ∧ u.kind ≠ .name ∧ u.kind ≠ .int ∧
      u.kind ≠ .float ∧ u.kind ≠ .string := by
    cases hkind : u.kind <;> simp_all [TokenKind.isMark]
  exact ⟨hk, fun h => absurd h (by simp [hi, hf]), fun h => absurd h hs,
    fun _ => h.literal_eq h' hk hl ⟨hn, hi, hf, hs⟩⟩

theorem of_name (hu : u.kind = .name) (hu' : u'.kind = .name) (h : u'.literal = u.literal) : u.Says u' :=
  ⟨hu'.trans hu.symm, by simp [hu], by simp [hu], fun _ => h⟩

/-- The keyword that is a type too is no name. -/
theorem of_typeWord (h : u.Spelled .builtIn) (h' : u'.Spelled .builtIn)
    (hu : u.kind = .keyword .functionWord ∨ u.kind = .name)
    (hu' : u'.kind = .keyword .functionWord ∨ u'.kind = .name) (hl : u'.literal = u.literal) :
    u.Says u' := by
  have hk : u'.kind = u.kind := by
    unfold Token.Spelled at h h'
    rcases hu with hu | hu <;> rcases hu' with hu' | hu' <;> simp_all
  refine ⟨hk, ?_, ?_, fun _ => hl⟩ <;> rcases hu with hu | hu <;> simp [hu]

end Token.Says

/-- Every token of the tree is spelled as the kind of it is. -/
def Tree.Spelled (g : Grammar) (t : Tree) : Prop := ∀ u ∈ t.yield, u.Spelled g

namespace Tree.Spelled

variable {g : Grammar} {rule rule' : Rule} {line line' : Option Coord} {ps ps' : List Tree} {p : Tree}
  {u u' : Token}

theorem part (h : (Tree.node rule line ps).Spelled g) (hp : p ∈ ps) : p.Spelled g :=
  fun u hu => h u (by rw [yield]; exact mem_yieldAll hp hu)

theorem token (h : (Tree.node rule line ps).Spelled g) (hu : .token u ∈ ps) : u.Spelled g :=
  h.part hu u (by simp [yield])

/-- Marks of one kind, each among the parts of its node, say the same. -/
theorem marks {k : TokenKind} (h : (Tree.node rule line ps).Spelled .builtIn)
    (h' : (Tree.node rule' line' ps').Spelled .builtIn) (hu : u.kind = k) (hu' : u'.kind = k)
    (hk : k.isMark = true) (hp : .token u ∈ ps) (hp' : .token u' ∈ ps') : u.Says u' :=
  .of_mark (h.token hp) (h'.token hp') (hu'.trans hu.symm) (hu ▸ hk)

end Tree.Spelled

/-- Trees with the same nodes over tokens that say the same. -/
abbrev Tree.Says : Tree → Tree → Prop := Tree.Like Token.Says fun _ _ _ => True

namespace Value

variable {g : Grammar} {t t' : Tree} {ts ts' : List Tree} {v w : Value} {vs : List Value}

/-- Rows of trees that stand for the same values say the same if their trees do. -/
theorem says_row {R : Tree → Value → Prop}
    (h : ∀ t ∈ ts, ∀ t' v, t'.Spelled .builtIn → R t v → R t' v → t.Says t')
    (hs : ∀ t ∈ ts', t.Spelled .builtIn) (hr : List.Forall₂ R ts vs) (hr' : List.Forall₂ R ts' vs) :
    Tree.LikeAll Token.Says (fun _ _ _ => True) ts ts' := by
  induction hr generalizing ts' with
  | nil =>
    cases hr'
    exact .nil
  | cons hfirst _ ih =>
    cases hr' with
    | cons hfirst' hrest' =>
      simp only [List.forall_mem_cons] at h hs
      exact .cons (h.1 _ _ hs.1 hfirst hfirst') (ih h.2 hs.2 hrest')

/-- Rows between two marks. -/
theorem says_between {opening closing opening' closing' : Token} {rule : Rule} (ho : opening.Says opening')
    (hc : closing.Says closing') (h : Tree.LikeAll Token.Says (fun _ _ _ => True) ts ts') :
    (Tree.of rule (.token opening :: ts ++ [.token closing])).Says
      (.of rule (.token opening' :: ts' ++ [.token closing'])) :=
  .node trivial (.cons (.token ho) (List.rel_append h (.cons (.token hc) .nil)))

theorem before_builtIn {k : TokenKind} (h : (Grammar.builtIn.operators.before? k).isSome) :
    k = .keyword .notWord ∨ k = .symbol .minus := by
  obtain ⟨o, ho⟩ := Option.isSome_iff_exists.1 h
  have hk : o.kind = k := by simpa using List.find?_some ho
  have hmem := List.mem_of_find?_eq_some ho
  simp only [Grammar.builtIn, List.mem_cons, List.not_mem_nil, or_false] at hmem
  rcases hmem with rfl | rfl
  · exact .inl hk.symm
  · exact .inr hk.symm

/-- An operator in front of its operand is told by what it does. -/
theorem before_inj {k k' : TokenKind} {operation : Operation}
    (h : (Grammar.builtIn.operators.before? k).isSome) (h' : (Grammar.builtIn.operators.before? k').isSome)
    (hd : Operation.before k = operation) (hd' : Operation.before k' = operation) :
    k' = k ∧ k.isMark = true := by
  subst hd
  rcases before_builtIn h with rfl | rfl <;> rcases before_builtIn h' with rfl | rfl <;>
    first | exact ⟨rfl, rfl⟩ | simp [Operation.before] at hd'

/-- An operator between its operands is told by what it does. -/
theorem between?_inj {k k' : TokenKind} {operation : Operation} (h : Operation.between? k = some operation)
    (h' : Operation.between? k' = some operation) : k' = k ∧ k.isMark = true := by
  have hall : ∀ k ∈ TokenKind.all, (Operation.between? k).isSome → k.isMark = true ∧
      ∀ k' ∈ TokenKind.all, Operation.between? k' = Operation.between? k → k' = k := by
    decide +kernel
  obtain ⟨hm, heq⟩ := hall k (TokenKind.mem_all k) (by simp [h])
  exact ⟨heq k' (TokenKind.mem_all k') (h'.trans h.symm), hm⟩

/-- Trees that stand for the same value say the same. -/
theorem says_of_means (t : Tree) (hs : t.Spelled .builtIn) : ∀ t' v, t'.Spelled .builtIn →
    (Means .builtIn t v → Means .builtIn t' v → t.Says t') ∧
      (MeansPart .builtIn t v → MeansPart .builtIn t' v → t.Says t') := by
  induction t using Tree.byParts with
  | token u => exact fun _ _ _ => ⟨fun h => (by cases h), fun h => (by cases h)⟩
  | node rule line ps ih =>
    intro t' v hs'
    have ih : ∀ p ∈ ps, ∀ p' v, p'.Spelled .builtIn →
        (Means .builtIn p v → Means .builtIn p' v → p.Says p') ∧
          (MeansPart .builtIn p v → MeansPart .builtIn p' v → p.Says p') :=
      fun p hp => ih p hp (hs.part hp)
    constructor
    · intro h h'
      cases h with
      | int kind value =>
        cases h' with
        | int kind' value' =>
          refine .node trivial (.cons (.token ⟨kind'.trans kind.symm, fun _ => value'.trans value.symm, ?_, ?_⟩) .nil) <;>
            simp [kind]
      | float kind value =>
        cases h' with
        | float kind' value' =>
          refine .node trivial (.cons (.token ⟨kind'.trans kind.symm, fun _ => value'.trans value.symm, ?_, ?_⟩) .nil) <;>
            simp [kind]
      | string kind value =>
        cases h' with
        | string kind' value' =>
          refine .node trivial (.cons (.token ⟨kind'.trans kind.symm, ?_, fun _ => value'.trans value.symm, ?_⟩) .nil) <;>
            simp [kind]
      | @boolean u b kind value =>
        cases h' with
        | @boolean u' _ kind' value' =>
          have hk : u'.kind = u.kind := by
            rcases kind with kind | kind <;> rcases kind' with kind' | kind' <;> simp_all
          exact .node trivial (.cons (.token (hs.marks hs' rfl hk
            (by rcases kind with kind | kind <;> rw [kind] <;> rfl) (by simp) (by simp))) .nil)
      | null kind =>
        cases h' with
        | null kind' =>
          exact .node trivial (.cons (.token
            (hs.marks hs' kind kind' rfl (by simp) (by simp))) .nil)
      | list opens items closes =>
        cases h' with
        | list opens' items' closes' =>
          refine says_between (hs.marks hs' opens opens' rfl (by simp) (by simp))
            (hs.marks hs' closes closes' rfl (by simp) (by simp)) ?_
          exact says_row (fun p hp t' v h => (ih p (by simp [hp]) t' v h).1) (fun p hp => hs'.part (by simp [hp])) items items'
      | map opens items closes =>
        cases h' with
        | map opens' items' closes' =>
          refine says_between (hs.marks hs' opens opens' rfl (by simp) (by simp))
            (hs.marks hs' closes closes' rfl (by simp) (by simp)) ?_
          exact says_row (fun p hp t' v h => (ih p (by simp [hp]) t' v h).1) (fun p hp => hs'.part (by simp [hp])) items items'
      | entry keyed value =>
        cases h' with
        | entry keyed' value' =>
          exact .node trivial (.cons ((ih _ (by simp) _ _ (hs'.part (by simp))).1 keyed keyed')
            (.cons ((ih _ (by simp) _ _ (hs'.part (by simp))).1 value value') .nil))
      | path kind named parts =>
        cases h' with
        | path kind' named' parts' =>
          refine .node trivial (.cons (.token (.of_name kind kind' (named'.trans named.symm))) ?_)
          exact says_row (fun p hp t' v h => (ih p (by simp [hp]) t' v h).2) (fun p hp => hs'.part (by simp [hp])) parts parts'
      | unary operator does operand =>
        cases h' with
        | unary operator' does' operand' =>
          obtain ⟨hk, hm⟩ := before_inj operator operator' does does'
          exact .node trivial (.cons (.token (hs.marks hs' rfl hk hm (by simp) (by simp)))
            (.cons ((ih _ (by simp) _ _ (hs'.part (by simp))).1 operand operand') .nil))
      | binary does first second =>
        cases h' with
        | binary does' first' second' =>
          obtain ⟨hk, hm⟩ := between?_inj does does'
          exact .node trivial (.cons ((ih _ (by simp) _ _ (hs'.part (by simp))).1 first first')
            (.cons (.token (hs.marks hs' rfl hk hm (by simp) (by simp)))
              (.cons ((ih _ (by simp) _ _ (hs'.part (by simp))).1 second second') .nil)))
      | types kind named parts =>
        cases h' with
        | types kind' named' parts' =>
          refine .node trivial (.cons (.token (.of_typeWord (hs.token (by simp)) (hs'.token (by simp)) kind kind'
            (named'.trans named.symm))) ?_)
          exact says_row (fun p hp t' v h => (ih p (by simp [hp]) t' v h).1) (fun p hp => hs'.part (by simp [hp])) parts parts'
      | cast value kind types =>
        cases h' with
        | cast value' kind' types' =>
          exact .node trivial (.cons ((ih _ (by simp) _ _ (hs'.part (by simp))).1 value value')
            (.cons (.token (hs.marks hs' kind kind' rfl (by simp) (by simp)))
              (.cons ((ih _ (by simp) _ _ (hs'.part (by simp))).1 types types') .nil)))
    · intro h h'
      cases h with
      | field kind named value =>
        cases h' with
        | field kind' named' value' =>
          exact .node trivial (.cons (.token (hs.marks hs' kind kind' rfl (by simp) (by simp)))
            (.cons (.token (.of_name named named' (value'.trans value.symm))) .nil))
        | index _ value' => cases value'
      | index opens value closes =>
        cases h' with
        | field => cases value
        | index opens' value' closes' =>
          exact .node trivial (.cons (.token (hs.marks hs' opens opens' rfl (by simp) (by simp)))
            (.cons ((ih _ (by simp) _ _ (hs'.part (by simp))).1 value value')
              (.cons (.token (hs.marks hs' closes closes' rfl (by simp) (by simp))) .nil)))

/-! ## Trees of texts -/

/-- The tree is read from a text: from a story, or from code that stands at a place of one. -/
inductive ReadFrom (m : ScanMode) (text : List Char) (t : Tree) : Prop where
  | story {tokens} (scanned : (scan m text).tokens = .ok tokens) (read : Story.treeOf m tokens = .ok t)
  | code {start} (read : Hoist.readCode m text start = .ok t)

/-- A tree that is read is derived from tokens that are spelled like those of the text. -/
theorem ReadFrom.derives {m : ScanMode} {text : List Char} (hg : m.grammar.KeepsLayout)
    (h : ReadFrom m text t) : ∃ p used trees, Derives m.grammar p used trees ∧
      (∀ u ∈ used, u.Spelled m.grammar) ∧ (t = .of .start trees ∨ t ∈ trees) := by
  cases h with
  | story scanned read =>
    obtain ⟨used, trees, hp, rfl, hd⟩ := Tree.ofTokens_ok hg read
    rw [(scan_ok scanned).missingEnd, List.append_nil] at hp
    exact ⟨_, used, trees, hd, fun u hu => scan_spelled scanned u (hp.subset hu), .inl rfl⟩
  | @code start read =>
    unfold Hoist.readCode at read
    split at read
    · cases read
    · rename_i tokens scanned
      change Tree.ofFragment m.grammar (tokens.map (Hoist.moved start)) = .ok t at read
      obtain ⟨used, hp, hd⟩ := Tree.ofFragment_ok hg read
      rw [Hoist.missingEnd_moved (scan_ok scanned), List.append_nil] at hp
      refine ⟨_, used, [t], hd, fun u hu => ?_, .inr (by simp)⟩
      obtain ⟨w, hw, rfl⟩ := List.mem_map.1 (hp.subset hu)
      exact scan_spelled scanned w hw

/-- A value in a tree that is read stands for what is made of it. -/
theorem ReadFrom.told {m : ScanMode} {text : List Char} {n : Tree} (hg : m.grammar.KeepsLayout)
    (h : ReadFrom m text t) (hn : n ∈ t.walk) (hf : n.fits .read = true) :
    Told m.grammar n ∧ n.Spelled m.grammar := by
  obtain ⟨p, used, trees, hd, hs, ht⟩ := h.derives hg
  obtain ⟨q, hq, hn⟩ : ∃ q ∈ trees, n ∈ q.walk := by
    rcases ht with rfl | ht
    · rw [Tree.walk, List.mem_cons, Tree.walkAll_eq, List.mem_flatMap] at hn
      rcases hn with rfl | hn
      · cases hf
      · exact hn
    · exact ⟨t, ht, hn⟩
  have hformed := (hd.formed (P := fun _ => True) (fun _ _ => trivial) q hq).2.of_mem_walk n hn
  refine ⟨told_of_formed hformed fun u hu => hd.marked u ?_, fun u hu => hs u (hd.yield_subset u ?_)⟩
  · rw [Tree.walkAll_eq]
    exact List.mem_flatMap.2 ⟨q, hq, Tree.walk_subset q hn hu⟩
  · exact Tree.mem_yieldAll hq (Tree.yield_of_mem_walk hu q hn)

/-- Values of stories for which the same is written say the same: their trees are equal up to the
places of tokens, numbers of one type with the same value, and strings with the same text. -/
theorem says_of_toJson {m m' : ScanMode} {text text' : List Char} {n n' : Tree} {v v' : Value}
    (hm : m.grammar = .builtIn) (hm' : m'.grammar = .builtIn) (ht : ReadFrom m text t)
    (ht' : ReadFrom m' text' t') (hn : n ∈ t.walk) (hn' : n' ∈ t'.walk)
    (hf : n.fits .read = true) (hf' : n'.fits .read = true) (hv : ofTree n = .ok v)
    (hv' : ofTree n' = .ok v') (hj : v.toJson = v'.toJson) : n.Says n' := by
  obtain rfl := toJson_inj v v' hj
  obtain ⟨htold, hs⟩ := ht.told (hm ▸ Grammar.keepsLayout_builtIn) hn hf
  obtain ⟨htold', hs'⟩ := ht'.told (hm' ▸ Grammar.keepsLayout_builtIn) hn' hf'
  rw [hm] at htold hs
  rw [hm'] at htold' hs'
  exact (says_of_means n hs n' v hs').1 (htold.value hf v hv) (htold'.value hf' v hv')

/-- A list of a number and a text, the two written in different ways and at different places. -/
theorem says_of_toJson_respelled : ∃ t t' n n' v v',
    ReadFrom ⟨.builtIn, false⟩ "x = [1, \"it's\"]".toList t ∧
    ReadFrom ⟨.builtIn, false⟩ "yes = [01, \"it\\'s\"]".toList t' ∧ n ∈ t.walk ∧ n' ∈ t'.walk ∧
    ofTree n = .ok v ∧ ofTree n' = .ok v' ∧ v.toJson = v'.toJson ∧ n.position? ≠ n'.position? ∧ n.Says n' := by
  have list : ∀ (text : List Char) (j : Json) (p : Option Position),
      ((scan ⟨.builtIn, false⟩ text).tokens.toOption.bind fun tokens =>
        (Story.treeOf ⟨.builtIn, false⟩ tokens).toOption.bind fun t => (t.walk.find? (·.isA .list)).bind fun n =>
          (ofTree n).toOption.map fun v => (v.toJson, n.position?)) = some (j, p) →
      ∃ t n v, ReadFrom ⟨.builtIn, false⟩ text t ∧ n ∈ t.walk ∧ n.fits .read = true ∧ ofTree n = .ok v ∧
        v.toJson = j ∧ n.position? = p := by
    intro text j p h
    obtain ⟨tokens, hs, h⟩ := Option.bind_eq_some_iff.1 h
    obtain ⟨t, ht, h⟩ := Option.bind_eq_some_iff.1 h
    obtain ⟨n, hn, h⟩ := Option.bind_eq_some_iff.1 h
    obtain ⟨v, hv, h⟩ := Option.map_eq_some_iff.1 h
    obtain ⟨rfl, rfl⟩ := Prod.mk.inj h
    rw [toOption_eq_some] at hs ht hv
    exact ⟨t, n, v, .story hs ht, List.mem_of_find?_eq_some hn,
      Tree.fits_of_isA (List.find?_some hn) rfl, hv, rfl, rfl⟩
  obtain ⟨t, n, v, ht, hn, hf, hv, hj, hp⟩ := list "x = [1, \"it's\"]".toList
    (toJson (.list [.int 1, .string "it's"])) (some ⟨1, 5⟩) (by decide +kernel)
  obtain ⟨t', n', v', ht', hn', hf', hv', hj', hp'⟩ := list "yes = [01, \"it\\'s\"]".toList
    (toJson (.list [.int 1, .string "it's"])) (some ⟨1, 7⟩) (by decide +kernel)
  have hjson := hj.trans hj'.symm
  refine ⟨t, t', n, n', v, v', ht, ht', hn, hn', hv, hv', hjson, ?_,
    says_of_toJson rfl rfl ht ht' hn hn' hf hf' hv hv' hjson⟩
  rw [hp, hp']
  decide

end Value

end StoryLang
