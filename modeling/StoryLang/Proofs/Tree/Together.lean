/-
Reading related tokens.

A reader looks at the kinds of tokens and at the words of names. So from a
cursor over related tokens it takes the same way with every grammar that has
the same operators and words, and reads a tree with the same nodes or stops at
a related token. `Setting` says what that asks of the tokens and the grammars.
The story and the code of a string are read with as many steps as they have
tokens.
-/
import StoryLang.Proofs.Follows
import StoryLang.Proofs.Tree.Like
import StoryLang.Tree.Statement

/-! ## Values -/

namespace StoryLang

/-- In front of related tokens, behind related tokens. -/
structure Cursor.Like (R : Token → Token → Prop) (c c' : Cursor) : Prop where
  current : R c.current c'.current
  ahead : List.Forall₂ R c.ahead c'.ahead
  behind : List.Forall₂ R c.behind c'.behind
  started : c'.started.length = c.started.length

namespace Read

open StoryLang.Tree (LikeAll)

variable {R : Token → Token → Prop} {E : Fault → Fault → Prop} {g g' : Grammar}
  {α β : Type} {A : α → α → Prop} {B : β → β → Prop}

/-- Both read such trees, or stop for related reasons. -/
abbrev Alike (R : Token → Token → Prop) (E : Fault → Fault → Prop) (r r' : Read Tree) : Prop :=
  Together (Cursor.Like R) E (Tree.Like R Tree.Named) r r'

/-- Both read rows of such trees. -/
abbrev AllAlike (R : Token → Token → Prop) (E : Fault → Fault → Prop) (r r' : Read (List Tree)) :
    Prop :=
  Together (Cursor.Like R) E (LikeAll R Tree.Named) r r'

/-- Related tokens are taken for the same by both grammars, and where readers stop at them they
stop for related reasons. -/
structure Setting (R : Token → Token → Prop) (E : Fault → Fault → Prop) (g g' : Grammar) : Prop where
  tokens : Token.ReadsAs R
  operators : g'.operators = g.operators
  castPrecedence : g'.castPrecedence = g.castPrecedence
  reserved : g'.reserved = g.reserved
  typeNames : g'.typeNames = g.typeNames
  stuck : ∀ {c c' : Cursor}, c.Like R c' → ∀ ks,
    E (.inTokens (c.stuck g ks).fault) (.inTokens (c'.stuck g' ks).fault)
  bounded : E (.internal .tooManySteps) (.internal .tooManySteps)

/-! ## Single steps -/

namespace Setting

variable (hR : Setting R E g g')

include hR

theorem isReserved_eq (w : String) : g'.isReserved w = g.isReserved w := by
  rw [Grammar.isReserved, hR.reserved, Grammar.isReserved]

theorem isTypeName_eq (w : String) : g'.isTypeName w = g.isTypeName w := by
  rw [Grammar.isTypeName, hR.typeNames, Grammar.isTypeName]

theorem unexpected {ks : List TokenKind} :
    Together (Cursor.Like R) E A (Read.unexpected g ks) (Read.unexpected g' ks) :=
  fun _ _ hc => .error (hR.stuck hc ks)

theorem unexpected_bind {ks : List TokenKind} {f f' : α → Read β} :
    Together (Cursor.Like R) E B (Read.unexpected g ks >>= f) (Read.unexpected g' ks >>= f') :=
  .of_error_bind fun _ _ hc => ⟨_, _, rfl, rfl, hR.stuck hc ks⟩

theorem tooManySteps : Together (Cursor.Like R) E A Read.tooManySteps Read.tooManySteps :=
  fun _ _ _ => .error hR.bounded

end Setting

theorem rel_upcoming {c c' : Cursor} (hc : c.Like R c') :
    R (c.ahead.headD c.current) (c'.ahead.headD c'.current) := by
  obtain ⟨hcurrent, hahead, -, -⟩ := hc
  revert hahead
  generalize c.ahead = ahead, c'.ahead = ahead'
  rintro (_ | ⟨ht, _⟩)
  · exact hcurrent
  · exact ht

theorem like_next {c c' : Cursor} (hc : c.Like R c') : c.next.Like R c'.next := by
  have hahead := hc.ahead
  unfold Cursor.next
  revert hahead
  generalize c.ahead = ahead, c'.ahead = ahead'
  rintro (_ | ⟨ht, hts⟩)
  · exact hc
  · exact ⟨ht, hts, .cons hc.current hc.behind, hc.started⟩

theorem alike_take : Together (Cursor.Like R) E R take take :=
  fun _ _ hc => .ok ⟨hc.current, like_next hc⟩

theorem alike_leaf : Alike R E leaf leaf :=
  fun _ _ hc => .ok ⟨.token hc.current, like_next hc⟩

theorem alike_startStatement : Together (Cursor.Like R) E Eq startStatement startStatement :=
  fun _ _ hc => .ok ⟨rfl, hc.current, hc.ahead, hc.behind, hc.behind.length_eq.symm⟩

section Steps

variable (hR : Setting R E g g')

include hR

theorem alike_isAt (k : TokenKind) : Together (Cursor.Like R) E Eq (isAt k) (isAt k) :=
  fun _ _ hc => .ok ⟨by rw [hR.tokens.kind _ _ hc.current], hc⟩

theorem alike_kind : Together (Cursor.Like R) E Eq kind kind :=
  fun _ _ hc => .ok ⟨(hR.tokens.kind _ _ hc.current).symm, hc⟩

theorem alike_isBefore (k : TokenKind) : Together (Cursor.Like R) E Eq (isBefore k) (isBefore k) :=
  fun _ _ hc => .ok ⟨by rw [hR.tokens.kind _ _ (rel_upcoming hc)], hc⟩

theorem isName_eq {t t' : Token} (ht : R t t') :
    (decide (t'.kind = .name) && !g'.isReserved t'.literal) =
      (decide (t.kind = .name) && !g.isReserved t.literal) := by
  rw [hR.isReserved_eq, hR.tokens.kind _ _ ht]
  by_cases hk : t.kind = .name
  · rw [hR.tokens.name _ _ ht hk]
  · simp [hk]

theorem alike_isAtCast : Together (Cursor.Like R) E Eq (isAtCast g) (isAtCast g') := by
  intro c c' hc
  refine .ok ⟨?_, hc⟩
  have hu := rel_upcoming hc
  rw [hR.isTypeName_eq, hR.tokens.kind _ _ hc.current, hR.tokens.kind _ _ hu]
  by_cases hk : (c.ahead.headD c.current).kind = .name
  · rw [hR.tokens.name _ _ hu hk]
  · simp only [hk, decide_false, Bool.false_and]

theorem alike_expect (k : TokenKind) : Alike R E (expect g k) (expect g' k) :=
  (alike_isAt hR k).bindSame fun _ => .ite alike_leaf hR.unexpected

end Steps

/-- Both have read the same name. -/
def SameName (R : Token → Token → Prop) (t t' : Tree) : Prop :=
  ∃ u u', t = .token u ∧ t' = .token u' ∧ R u u' ∧ u.kind = .name

theorem SameName.like {t t' : Tree} (h : SameName R t t') : t.Like R Tree.Named t' := by
  obtain ⟨u, u', rfl, rfl, hu, -⟩ := h
  exact .token hu

theorem SameName.head {t t' : Tree} (hR : Token.ReadsAs R) (h : SameName R t t') (r : Rule)
    (ts ts' : List Tree) : Tree.Named r (t :: ts) (t' :: ts') := by
  obtain ⟨u, u', rfl, rfl, hu, hk⟩ := h
  exact fun _ => ⟨u, ts, u', ts', rfl, rfl, .inl (hR.name _ _ hu hk)⟩

theorem alike_expectName (hR : Setting R E g g') :
    Together (Cursor.Like R) E (SameName R) (expectName g) (expectName g') := by
  intro c c' hc
  have hstuck : Together (Cursor.Like R) E (SameName R) (Read.unexpected g [.name])
      (Read.unexpected g' [.name]) := hR.unexpected
  change EndAlike _ _ ((if _ then leaf else Read.unexpected g [.name]) c)
    ((if _ then leaf else Read.unexpected g' [.name]) c')
  rw [isName_eq hR hc.current]
  split
  · rename_i hname
    have hk : c.current.kind = .name := by simpa using (Bool.and_eq_true_iff.1 hname).1
    exact .ok ⟨⟨_, _, rfl, rfl, hc.current, hk⟩, like_next hc⟩
  · exact hstuck c c' hc

/-- Both have read the same word for a type. -/
def SameType (R : Token → Token → Prop) (t t' : Tree) : Prop :=
  ∃ u u', t = .token u ∧ t' = .token u' ∧ R u u' ∧ Tree.SameWord .types u u'

/-- Both read the word that a type starts with. -/
theorem alike_typeWord (hR : Setting R E g g') {f f' : Tree → Read β}
    (hf : ∀ t t', SameType R t t' → Together (Cursor.Like R) E B (f t) (f' t')) :
    Together (Cursor.Like R) E B
      (do
        if !((← isAt (.keyword .functionWord)) || (← isAtName g)) then Read.unexpected g [.name]
        f (← leaf))
      (do
        if !((← isAt (.keyword .functionWord)) || (← isAtName g')) then Read.unexpected g' [.name]
        f' (← leaf)) := by
  intro c c' hc
  have hstuck : Together (Cursor.Like R) E B (Read.unexpected g [.name] >>= fun _ : PUnit => leaf >>= f)
      (Read.unexpected g' [.name] >>= fun _ : PUnit => leaf >>= f') := hR.unexpected_bind
  change EndAlike _ _ ((if (!(decide (c.current.kind = .keyword .functionWord) ||
      (decide (c.current.kind = .name) && !g.isReserved c.current.literal))) = true
    then Read.unexpected g [.name] >>= fun _ => leaf >>= f else leaf >>= f) c)
    ((if (!(decide (c'.current.kind = .keyword .functionWord) ||
      (decide (c'.current.kind = .name) && !g'.isReserved c'.current.literal))) = true
    then Read.unexpected g' [.name] >>= fun _ => leaf >>= f' else leaf >>= f') c')
  rw [isName_eq hR hc.current, hR.tokens.kind _ _ hc.current]
  split
  · exact hstuck c c' hc
  · rename_i hword
    refine hf _ _ ⟨_, _, rfl, rfl, hc.current, ?_⟩ _ _ (like_next hc)
    simp only [Bool.not_eq_true', Bool.not_eq_false, Bool.or_eq_true, decide_eq_true_eq,
      Bool.and_eq_true] at hword
    rcases hword with hword | ⟨hname, -⟩
    · exact .inr ⟨rfl, hword⟩
    · exact .inl (hR.tokens.name _ _ hc.current hname)

/-- Both read something with statements of its own. -/
theorem alike_within {r r' : Read α} (h : Together (Cursor.Like R) E A r r') :
    Together (Cursor.Like R) E A (within r) (within r') := by
  intro c c' hc
  refine (h c c' hc).bind fun out out' hout => .ok ⟨hout.1, ?_⟩
  exact ⟨hout.2.current, hout.2.ahead, hout.2.behind, hc.started⟩

theorem like_of {r : Rule} {ps ps' : List Tree} (hr : r.isNamed = false)
    (h : LikeAll R Tree.Named ps ps') :
    (Tree.of r ps).Like R Tree.Named (.of r ps') :=
  .node (Tree.Named.other hr ps ps') h

theorem SameName.node {r : Rule} {t t' : Tree} {ts ts' : List Tree} (hR : Setting R E g g')
    (h : SameName R t t') (hs : LikeAll R Tree.Named ts ts') :
    (Tree.of r (t :: ts)).Like R Tree.Named (.of r (t' :: ts')) :=
  .node (h.head hR.tokens r ts ts') (.cons h.like hs)

/-! ## Values -/

section Values

variable (hR : Setting R E g g')

include hR

theorem commaSeparated_alike {item item' : Read Tree} (h : Alike R E item item') :
    ∀ n, AllAlike R E (commaSeparated item n) (commaSeparated item' n)
  | 0 => hR.tooManySteps
  | n + 1 => h.bind fun _ _ ht => (alike_isAt hR _).bindSame fun _ => .ite
      (alike_take.bind fun _ _ _ =>
        (commaSeparated_alike h n).bind fun _ _ hts => .pure (.cons ht hts))
      (.pure (.cons ht .nil))

theorem types_alike : ∀ n, Alike R E (types g n) (types g' n)
  | 0 => hR.tooManySteps
  | n + 1 => by
    unfold types
    refine alike_typeWord hR fun t t' h => ?_
    obtain ⟨u, u', rfl, rfl, hu, hword⟩ := h
    have hnode {ts ts' : List Tree} (hs : LikeAll R Tree.Named ts ts') :
        (Tree.of .types (.token u :: ts)).Like R Tree.Named (.of .types (.token u' :: ts')) :=
      .node (fun _ => ⟨u, ts, u', ts', rfl, rfl, hword⟩) (.cons (.token hu) hs)
    refine (alike_isAt hR _).bindSame fun _ => .ite ?_ (.pure (hnode .nil))
    refine alike_take.bind fun _ _ _ => ?_
    refine (commaSeparated_alike hR (types_alike n) n).bind fun _ _ hparts => ?_
    refine (alike_isAt hR _).bindSame fun _ => .ite hR.unexpected_bind ?_
    exact alike_take.bind fun _ _ _ => .pure (hnode hparts)

/-- Readers of values that follow each other, whatever the values bind tighter than. -/
abbrev ValueAlike (R : Token → Token → Prop) (E : Fault → Fault → Prop) (value value' : Nat → Read Tree) : Prop :=
  ∀ min, Alike R E (value min) (value' min)

variable {value value' : Nat → Read Tree} (hv : ValueAlike R E value value')

include hv

theorem fragments_alike : ∀ n, AllAlike R E (fragments g value n) (fragments g' value' n)
  | 0 => hR.tooManySteps
  | n + 1 => by
    unfold fragments
    refine (alike_isAt hR _).bindSame fun _ => .ite ?_ ?_
    · refine alike_leaf.bind fun _ _ hdot => (alike_expectName hR).bind fun _ _ hname => ?_
      refine (fragments_alike n).bind fun _ _ hts => .pure (.cons ?_ hts)
      exact like_of rfl (.cons hdot (.cons hname.like .nil))
    refine (alike_isAt hR _).bindSame fun _ => .ite ?_ (.pure .nil)
    refine alike_leaf.bind fun _ _ hopening => (hv 0).bind fun _ _ hindex => ?_
    refine (alike_expect hR _).bind fun _ _ hclosing => ?_
    refine (fragments_alike n).bind fun _ _ hts => .pure (.cons ?_ hts)
    exact like_of rfl (.cons hopening (.cons hindex (.cons hclosing .nil)))

theorem path_alike (n : Nat) : Alike R E (path g value n) (path g' value' n) :=
  (alike_expectName hR).bind fun _ _ hroot =>
    (fragments_alike hR hv n).bind fun _ _ hts => .pure (hroot.node hR hts)

theorem argumentList_alike : ∀ n, AllAlike R E (argumentList g value n) (argumentList g' value' n)
  | 0 => hR.tooManySteps
  | n + 1 => by
    unfold argumentList
    refine (alike_isAt hR _).bindSame fun _ => .ite ?_ (.pure .nil)
    refine (alike_expectName hR).bind fun _ _ hname => (alike_expect hR _).bind fun _ _ _ => ?_
    refine (hv 0).bind fun _ _ hgiven => (alike_isAt hR _).bindSame fun _ => ?_
    dsimp only
    refine .ite (alike_take.bind fun _ _ _ => ?_) ?_ <;>
    exact (argumentList_alike n).bind fun _ _ hts =>
      .pure (.cons (hname.node hR (.cons hgiven .nil)) hts)

theorem arguments_alike (n : Nat) : Alike R E (arguments g value n) (arguments g' value' n) :=
  (argumentList_alike hR hv n).bind fun _ _ hts => .pure (like_of rfl hts)

omit hv in
theorem output_alike (n : Nat) : Alike R E (output g n) (output g' n) :=
  (alike_expect hR _).bind fun _ _ hword =>
    (commaSeparated_alike hR ((alike_expectName hR).mono fun _ _ => SameName.like) n).bind
      fun _ _ hts => .pure (like_of rfl (.cons hword hts))

theorem links_alike : ∀ n, AllAlike R E (links g value n) (links g' value' n)
  | 0 => hR.tooManySteps
  | n + 1 => by
    unfold links
    refine (alike_isAt hR _).bindSame fun _ => .ite ?_ (.pure .nil)
    refine alike_leaf.bind fun _ _ hword => (alike_expectName hR).bind fun _ _ hname => ?_
    refine (arguments_alike hR hv n).bind fun _ _ hgiven => ?_
    refine (links_alike n).bind fun _ _ hts => .pure (.cons ?_ hts)
    exact like_of rfl (.cons hword (.cons hname.like (.cons hgiven .nil)))

variable {t t' : Tree}

theorem serviceTail_alike (n : Nat) (ht : t.Like R Tree.Named t') :
    Alike R E (serviceTail g value n t) (serviceTail g' value' n t') := by
  unfold serviceTail
  refine (alike_expectName hR).bind fun _ _ hname => ?_
  refine (arguments_alike hR hv n).bind fun _ _ hgiven => ?_
  refine (alike_isAt hR _).bindSame fun _ => .ite ?_ ?_
  · refine (links_alike hR hv n).bind fun _ _ hts => .pure ?_
    exact like_of rfl (.cons ht (.cons (like_of rfl (.cons hname.like (.cons hgiven .nil))) hts))
  refine (alike_isAt hR _).bindSame fun _ => .ite ?_ ?_
  · refine (output_alike hR n).bind fun _ _ hout => .pure ?_
    exact like_of rfl (.cons ht (.cons hname.like (.cons hgiven (.cons hout .nil))))
  · exact .pure (like_of rfl (.cons ht (.cons hname.like (.cons hgiven .nil))))

theorem mutationTail_alike (n : Nat) (ht : t.Like R Tree.Named t') :
    Alike R E (mutationTail g value n t) (mutationTail g' value' n t') := by
  unfold mutationTail
  refine (alike_expectName hR).bind fun _ _ hname => ?_
  refine (arguments_alike hR hv n).bind fun _ _ hgiven => ?_
  refine (links_alike hR hv n).bind fun _ _ hts => .pure ?_
  exact like_of rfl (.cons ht (.cons (like_of rfl (.cons hname.like (.cons hgiven .nil))) hts))

theorem callTail_alike (n : Nat) (ht : t.Like R Tree.Named t') :
    Alike R E (callTail g value n t) (callTail g' value' n t') := by
  unfold callTail
  rw [Tree.Like.isA _ t t' ht]
  exact (alike_isAt hR _).bindSame fun _ => .ite
    (.ite (serviceTail_alike hR hv n ht) (mutationTail_alike hR hv n ht)) (.pure ht)

theorem callOrValue_alike (n : Nat) : Alike R E (callOrValue g value n) (callOrValue g' value' n) :=
  (hv 0).bind fun _ _ ht => callTail_alike hR hv n ht

omit hR hv in
theorem alike_none : AllAlike R E (pure []) (pure []) := .pure .nil

omit hR hv in
theorem alike_one {t t' : Tree} (h : t.Like R Tree.Named t') : AllAlike R E (pure [t]) (pure [t']) :=
  .pure (.cons h .nil)

omit hv in
/-- Both read the bracket behind some items. -/
theorem closing_alike {r : Rule} (hr : r.isNamed = false) {k : TokenKind} {ks : List TokenKind}
    {ts ts' : List Tree} (h : LikeAll R Tree.Named ts ts') :
    Alike R E (do
        if !(← isAt k) then unexpected g ks
        return .of r (ts ++ [← leaf]))
      (do
        if !(← isAt k) then unexpected g' ks
        return .of r (ts' ++ [← leaf])) :=
  (alike_isAt hR _).bindSame fun _ => .ite hR.unexpected_bind <|
    alike_leaf.bind fun _ _ hclosing =>
      .pure (like_of hr (List.rel_append h (.cons hclosing .nil)))

theorem list_alike (n : Nat) : Alike R E (list g value n) (list g' value' n) := by
  unfold list
  refine alike_leaf.bind fun _ _ hopening => (alike_isAt hR _).bindSame fun _ => ?_
  dsimp only
  refine .ite (alike_none.bind fun _ _ hitems => ?_)
    ((commaSeparated_alike hR (hv 0) n).bind fun _ _ hitems => ?_) <;>
  exact closing_alike hR rfl (.cons hopening hitems)

theorem mapItem_alike : Alike R E (mapItem g value) (mapItem g' value') :=
  (hv 0).bind fun _ _ hkey => (alike_expect hR _).bind fun _ _ _ =>
    (hv 0).bind fun _ _ hgiven => .pure (like_of rfl (.cons hkey (.cons hgiven .nil)))

theorem map_alike (n : Nat) : Alike R E (map g value n) (map g' value' n) := by
  unfold map
  refine alike_leaf.bind fun _ _ hopening => (alike_isAt hR _).bindSame fun _ => ?_
  dsimp only
  refine .ite (alike_none.bind fun _ _ hitems => ?_)
    ((commaSeparated_alike hR (mapItem_alike hR hv) n).bind fun _ _ hitems => ?_) <;>
  exact closing_alike hR rfl (.cons hopening hitems)

theorem functionCall_alike (n : Nat) :
    Alike R E (functionCall g value n) (functionCall g' value' n) := by
  unfold functionCall
  refine (alike_expectName hR).bind fun _ _ hname => ?_
  refine (alike_expect hR _).bind fun _ _ hopening => ?_
  refine (arguments_alike hR hv n).bind fun _ _ hgiven => ?_
  exact closing_alike hR rfl (.cons hname.like (.cons hopening (.cons hgiven .nil)))

theorem parenthesized_alike (n : Nat) :
    Alike R E (parenthesized g value n) (parenthesized g' value' n) :=
  alike_take.bind fun _ _ _ => (callOrValue_alike hR hv n).bind fun _ _ hinner =>
    (alike_expect hR _).bind fun _ _ _ => .pure hinner

omit hR hv in
theorem literal_alike {r : Rule} (hr : r.isNamed = false) : Alike R E (literal r) (literal r) :=
  alike_leaf.bind fun _ _ ht => .pure (like_of hr (.cons ht .nil))

theorem prefixed_alike : Alike R E (prefixed g value) (prefixed g' value') := by
  unfold prefixed
  refine (alike_kind hR).bindSame fun k => ?_
  rw [hR.operators]
  split
  · exact hR.unexpected
  · exact alike_leaf.bind fun _ _ hsign => (hv _).bind fun _ _ ht =>
      .pure (like_of rfl (.cons hsign (.cons ht .nil)))

theorem operand_alike (n : Nat) : Alike R E (operand g value n) (operand g' value' n) := by
  unfold operand
  refine (alike_kind hR).bindSame fun k => ?_
  split
  · exact (alike_isBefore hR _).bindSame fun _ =>
      .ite (functionCall_alike hR hv n) (path_alike hR hv n)
  · exact literal_alike rfl
  · exact literal_alike rfl
  · exact literal_alike rfl
  · exact literal_alike rfl
  · exact literal_alike rfl
  · exact literal_alike rfl
  · exact list_alike hR hv n
  · exact map_alike hR hv n
  · exact parenthesized_alike hR hv n
  · exact prefixed_alike hR hv

theorem climb_alike (min : Nat) : ∀ (n : Nat) {t t' : Tree}, t.Like R Tree.Named t' →
    Alike R E (climb g value min n t) (climb g' value' min n t')
  | 0, _, _, _ => hR.tooManySteps
  | n + 1, t, t', ht => by
    unfold climb
    rw [hR.castPrecedence, hR.operators]
    refine (alike_isAtCast hR).bindSame fun _ => .ite ?_ ?_
    · refine alike_leaf.bind fun _ _ hword => (types_alike hR n).bind fun _ _ htypes => ?_
      exact climb_alike min n (like_of rfl (.cons ht (.cons hword (.cons htypes .nil))))
    · refine (alike_kind hR).bindSame fun k => ?_
      split
      · exact .pure ht
      · refine .ite (.pure ht) ?_
        refine alike_leaf.bind fun _ _ hsign => (hv _).bind fun _ _ hright => ?_
        refine (alike_kind hR).bindSame fun _ => .ite hR.unexpected_bind ?_
        exact climb_alike min n (like_of rfl (.cons ht (.cons hsign (.cons hright .nil))))

omit hv in
theorem expression_alike : ∀ n, ValueAlike R E (expression g n) (expression g' n)
  | 0, _ => hR.tooManySteps
  | n + 1, min => (operand_alike hR (expression_alike n) n).bind fun _ _ ht =>
      climb_alike hR (expression_alike n) min n ht

end Values

end Read

end StoryLang

/-! ## Statements and stories -/

namespace StoryLang

namespace Read

open StoryLang.Tree (LikeAll)

variable {R : Token → Token → Prop} {E : Fault → Fault → Prop} {g g' : Grammar}

/-- The same for statements, which may also be refused. -/
structure StorySetting (R : Token → Token → Prop) (E : Fault → Fault → Prop) (g g' : Grammar) :
    Prop extends Setting R E g g' where
  refused : ∀ {t t' : Token}, R t t' → ∀ code,
    E (.inTokens { code, args := [], position := t.position, token := t, expected := [] })
      (.inTokens { code, args := [], position := t'.position, token := t', expected := [] })

theorem StorySetting.refuse {α : Type} {A : α → α → Prop} (hS : StorySetting R E g g') (code : Code) :
    Together (Cursor.Like R) E A (Read.refuse code) (Read.refuse code) :=
  fun _ _ hc => .error (hS.refused hc.current code)

variable (hR : Setting R E g g')

include hR

theorem statements_alike {statement statement' : Read Tree} (hs : Alike R E statement statement') :
    ∀ n, AllAlike R E (statements statement n) (statements statement' n)
  | 0 => hR.tooManySteps
  | n + 1 => (alike_isAt hR _).bindSame fun _ => (alike_isAt hR _).bindSame fun _ =>
      .ite (.pure .nil) (hs.bind fun _ _ ht => (statements_alike hs n).bind fun _ _ hts =>
        .pure (.cons ht hts))

theorem storyStatements_alike {statement statement' : Read Tree}
    (hs : Alike R E statement statement') :
    ∀ n, AllAlike R E (storyStatements statement n) (storyStatements statement' n)
  | 0 => hR.tooManySteps
  | n + 1 => (alike_isAt hR _).bindSame fun _ =>
      .ite (.pure .nil) (hs.bind fun _ _ ht => (storyStatements_alike hs n).bind fun _ _ hts =>
        .pure (.cons ht hts))

theorem indented_alike {statement statement' : Read Tree} (hs : Alike R E statement statement')
    (n : Nat) : Alike R E (indented g statement n) (indented g' statement' n) :=
  alike_within <| (alike_expect hR _).bind fun _ _ _ =>
    (statements_alike hR hs n).bind fun _ _ hts => (alike_expect hR _).bind fun _ _ _ =>
      .pure (like_of rfl hts)

theorem block_alike {statement statement' : Read Tree} (hs : Alike R E statement statement')
    (n : Nat) : Alike R E (block g statement n) (block g' statement' n) :=
  (alike_expect hR _).bind fun _ _ _ => indented_alike hR hs n

theorem anyValue_alike (n : Nat) : Alike R E (anyValue g n) (anyValue g' n) :=
  callOrValue_alike hR (expression_alike hR n) n

theorem condition_alike (n : Nat) : Alike R E (condition g n) (condition g' n) :=
  expression_alike hR n 0

theorem valueStatement_alike (n : Nat) {t t' : Tree} (ht : t.Like R Tree.Named t') :
    Alike R E (valueStatement g n t) (valueStatement g' n t') := by
  unfold valueStatement
  rw [ht.rule?]
  exact (alike_isAt hR _).bindSame fun _ =>
    .ite (callTail_alike hR (expression_alike hR n) n ht)
      (.ite (.pure ht) (.pure (like_of rfl (.cons ht .nil))))

theorem simple_alike (n : Nat) : Alike R E (simple g n) (simple g' n) := by
  have hv := expression_alike hR n
  unfold simple
  refine (alike_isAt hR _).bindSame fun _ => (alike_isBefore hR _).bindSame fun _ => .ite ?_ ?_
  · refine (path_alike hR hv n).bind fun _ _ htarget => ?_
    refine (alike_isAt hR _).bindSame fun _ => .ite ?_ ?_
    · refine alike_leaf.bind fun _ _ hsign => (anyValue_alike hR n).bind fun _ _ ht => .pure ?_
      exact like_of rfl (.cons htarget (.cons hsign (.cons ht .nil)))
    refine (alike_isAt hR _).bindSame fun _ => .ite (serviceTail_alike hR hv n htarget) ?_
    exact (climb_alike hR hv 0 n htarget).bind fun _ _ ht => valueStatement_alike hR n ht
  · exact (condition_alike hR n).bind fun _ _ ht => valueStatement_alike hR n ht

omit hR in
theorem like_withPart {t t' p p' : Tree} (ht : t.Like R Tree.Named t')
    (hp : p.Like R Tree.Named p') (hr : t.isA .serviceCall = true) :
    (withPart t p).Like R Tree.Named (withPart t' p') := by
  cases ht with
  | token related => exact .token related
  | @node r l ps ps' _ parts =>
    obtain rfl : r = .serviceCall := by simpa [Tree.isA, Tree.rule?] using hr
    exact .node (Tree.Named.other rfl _ _) (List.rel_append parts (.cons hp .nil))

section Blocks

variable {statement statement' : Read Tree} (hs : Alike R E statement statement')

include hs

theorem simpleStatement_alike (n : Nat) :
    Alike R E (simpleStatement g statement n) (simpleStatement g' statement' n) := by
  unfold simpleStatement
  refine (simple_alike hR n).bind fun t t' ht => (alike_isAt hR _).bindSame fun _ => ?_
  rw [Tree.Like.isA .expressionStatement t t' ht]
  refine .ite hR.unexpected_bind (alike_take.bind fun _ _ _ => ?_)
  refine (alike_isAt hR _).bindSame fun _ => ?_
  rw [Tree.Like.isA .serviceCall t t' ht]
  split
  · rename_i hcall
    exact (indented_alike hR hs n).bind fun _ _ hbody =>
      .pure (like_withPart ht hbody (Bool.and_eq_true_iff.1 hcall).1)
  · exact .pure ht

theorem branches_alike (bound : Nat) :
    ∀ n, AllAlike R E (branches g statement bound n) (branches g' statement' bound n)
  | 0 => hR.tooManySteps
  | n + 1 => by
    unfold branches
    refine (alike_isAt hR _).bindSame fun _ => .ite ?_ (.pure .nil)
    refine alike_startStatement.bind fun _ _ _ => alike_leaf.bind fun _ _ helse => ?_
    refine (alike_isAt hR _).bindSame fun _ => .ite ?_ ?_
    · refine alike_leaf.bind fun _ _ hif => (condition_alike hR bound).bind fun _ _ hcond => ?_
      refine (block_alike hR hs bound).bind fun _ _ hbody => ?_
      refine (branches_alike bound n).bind fun _ _ hts => .pure (.cons ?_ hts)
      exact like_of rfl (.cons helse (.cons hif (.cons hcond (.cons hbody .nil))))
    · exact (block_alike hR hs bound).bind fun _ _ hbody =>
        .pure (.cons (like_of rfl (.cons helse (.cons hbody .nil))) .nil)

theorem ifBlock_alike (n : Nat) : Alike R E (ifBlock g statement n) (ifBlock g' statement' n) :=
  alike_leaf.bind fun _ _ hword => (condition_alike hR n).bind fun _ _ hcond =>
    (block_alike hR hs n).bind fun _ _ hbody => (branches_alike hR hs n n).bind fun _ _ hts =>
      .pure (like_of rfl (.cons hword (.cons hcond (.cons hbody hts))))

theorem foreachBlock_alike (n : Nat) :
    Alike R E (foreachBlock g statement n) (foreachBlock g' statement' n) := by
  unfold foreachBlock
  refine alike_leaf.bind fun _ _ hword => (condition_alike hR n).bind fun _ _ hsource => ?_
  refine (alike_isAt hR _).bindSame fun _ => .ite hR.unexpected_bind ?_
  refine (output_alike hR n).bind fun _ _ hnames => (block_alike hR hs n).bind fun _ _ hbody => ?_
  exact .pure (like_of rfl (.cons hword (.cons hsource (.cons hnames (.cons hbody .nil)))))

theorem whileBlock_alike (n : Nat) :
    Alike R E (whileBlock g statement n) (whileBlock g' statement' n) :=
  alike_leaf.bind fun _ _ hword => (condition_alike hR n).bind fun _ _ hcond =>
    (block_alike hR hs n).bind fun _ _ hbody =>
      .pure (like_of rfl (.cons hword (.cons hcond (.cons hbody .nil))))

theorem catchBlock_alike (n : Nat) :
    Alike R E (catchBlock g statement n) (catchBlock g' statement' n) := by
  unfold catchBlock
  refine alike_startStatement.bind fun _ _ _ => alike_leaf.bind fun _ _ hword => ?_
  refine (alike_isAt hR _).bindSame fun _ => .ite ?_ ?_
  · refine (output_alike hR n).bind fun _ _ hname => (block_alike hR hs n).bind fun _ _ hbody => ?_
    exact .pure (like_of rfl (.cons hword (.cons hname (.cons hbody .nil))))
  · exact (block_alike hR hs n).bind fun _ _ hbody =>
      .pure (like_of rfl (.cons hword (.cons hbody .nil)))

theorem finallyBlock_alike (n : Nat) :
    Alike R E (finallyBlock g statement n) (finallyBlock g' statement' n) :=
  alike_startStatement.bind fun _ _ _ => alike_leaf.bind fun _ _ hword =>
    (block_alike hR hs n).bind fun _ _ hbody => .pure (like_of rfl (.cons hword (.cons hbody .nil)))

/-- Both read the `finally` of a `try`, if there is one. -/
theorem always_alike (n : Nat) {ts ts' : List Tree} (h : LikeAll R Tree.Named ts ts') :
    Alike R E (do
        let after ←
          if ← isAt (.keyword .finallyWord) then pure [← finallyBlock g statement n] else pure []
        return .of .tryBlock (ts ++ after))
      (do
        let after ←
          if ← isAt (.keyword .finallyWord) then pure [← finallyBlock g' statement' n] else pure []
        return .of .tryBlock (ts' ++ after)) := by
  refine (alike_isAt hR _).bindSame fun _ => .ite ?_ ?_
  · refine (finallyBlock_alike hR hs n).bind fun _ _ ht => (alike_one ht).bind fun _ _ hafter => ?_
    exact .pure (like_of rfl (List.rel_append h hafter))
  · exact alike_none.bind fun _ _ hafter => .pure (like_of rfl (List.rel_append h hafter))

theorem tryBlock_alike (n : Nat) : Alike R E (tryBlock g statement n) (tryBlock g' statement' n) := by
  unfold tryBlock
  refine alike_leaf.bind fun _ _ hword => (block_alike hR hs n).bind fun _ _ hbody => ?_
  refine (alike_isAt hR _).bindSame fun _ => .ite ?_ ?_
  · refine (catchBlock_alike hR hs n).bind fun _ _ ht => (alike_one ht).bind fun _ _ hcaught => ?_
    exact always_alike hR hs n (.cons hword (.cons hbody hcaught))
  · exact alike_none.bind fun _ _ hcaught =>
      always_alike hR hs n (.cons hword (.cons hbody hcaught))

omit hs in
theorem parameters_alike (bound : Nat) : ∀ n, AllAlike R E (parameters g bound n) (parameters g' bound n)
  | 0 => hR.tooManySteps
  | n + 1 => by
    unfold parameters
    refine (alike_isAt hR _).bindSame fun _ => .ite ?_ (.pure .nil)
    refine (alike_expectName hR).bind fun _ _ hname => (alike_expect hR _).bind fun _ _ _ => ?_
    refine (types_alike hR bound).bind fun _ _ htype => ?_
    exact (parameters_alike bound n).bind fun _ _ hts =>
      .pure (.cons (hname.node hR (.cons htype .nil)) hts)

omit hs in
theorem returnType_alike (n : Nat) : AllAlike R E (returnType g n) (returnType g' n) := by
  unfold returnType
  refine (alike_isAt hR _).bindSame fun _ => .ite ?_ (.pure .nil)
  exact alike_leaf.bind fun _ _ hword => (types_alike hR n).bind fun _ _ htype =>
    .pure (.cons (like_of rfl (.cons hword (.cons htype .nil))) .nil)

theorem functionBlock_alike (n : Nat) :
    Alike R E (functionBlock g statement n) (functionBlock g' statement' n) := by
  unfold functionBlock
  refine alike_leaf.bind fun _ _ hword => (alike_expectName hR).bind fun _ _ hname => ?_
  refine (parameters_alike hR n n).bind fun _ _ hgiven => ?_
  refine (returnType_alike hR n).bind fun _ _ htype => ?_
  refine (block_alike hR hs n).bind fun _ _ hbody => .pure (like_of rfl ?_)
  exact List.rel_append (List.rel_append (.cons hword (.cons hname.like hgiven)) htype)
    (.cons hbody .nil)

theorem whenBlock_alike (n : Nat) :
    Alike R E (whenBlock g statement n) (whenBlock g' statement' n) := by
  have hv := expression_alike hR n
  unfold whenBlock
  refine alike_leaf.bind fun _ _ hword => (path_alike hR hv n).bind fun _ _ htarget => ?_
  refine (alike_expectName hR).bind fun _ _ hevent => ?_
  refine (arguments_alike hR hv n).bind fun _ _ hgiven => ?_
  have hfront := List.Forall₂.cons hword (.cons htarget (.cons hevent.like (.cons hgiven .nil)))
  refine (alike_isAt hR _).bindSame fun _ => .ite ?_ ?_
  · refine (output_alike hR n).bind fun _ _ hnames => (block_alike hR hs n).bind fun _ _ hbody => ?_
    exact .pure (like_of rfl (List.rel_append hfront (.cons hnames (.cons hbody .nil))))
  · exact (block_alike hR hs n).bind fun _ _ hbody =>
      .pure (like_of rfl (List.rel_append hfront (.cons hbody .nil)))

omit hs in
theorem jumpWithValue_alike {r : Rule} (hr : r.isNamed = false) (n : Nat) :
    Alike R E (jumpWithValue g r n) (jumpWithValue g' r n) := by
  unfold jumpWithValue
  refine alike_leaf.bind fun _ _ hword => (alike_isAt hR _).bindSame fun _ => .ite ?_ ?_
  · exact alike_none.bind fun _ _ hvalue => (alike_expect hR _).bind fun _ _ _ =>
      .pure (like_of hr (.cons hword hvalue))
  · exact (anyValue_alike hR n).bind fun _ _ ht => (alike_one ht).bind fun _ _ hvalue =>
      (alike_expect hR _).bind fun _ _ _ => .pure (like_of hr (.cons hword hvalue))

omit hR hs in
theorem returnStatement_alike (hS : StorySetting R E g g') (e : Enclosing) (n : Nat) :
    Alike R E (returnStatement g e n) (returnStatement g' e n) :=
  .ite (jumpWithValue_alike hS.toSetting rfl n) (hS.refuse _)

omit hR hs in
theorem loopJump_alike (hS : StorySetting R E g g') (e : Enclosing) {r : Rule}
    (hr : r.isNamed = false) (outside : Code) :
    Alike R E (loopJump g e r outside) (loopJump g' e r outside) :=
  .ite (alike_leaf.bind fun _ _ hword => (alike_expect hS.toSetting _).bind fun _ _ _ =>
    .pure (like_of hr (.cons hword .nil))) (hS.refuse outside)

omit hs in
theorem importStatement_alike : Alike R E (importStatement g) (importStatement g') := by
  unfold importStatement
  refine alike_leaf.bind fun _ _ hword => (alike_isAt hR _).bindSame fun _ => ?_
  refine .ite hR.unexpected_bind (alike_leaf.bind fun _ _ hfile => ?_)
  refine (alike_expect hR _).bind fun _ _ has => (alike_expectName hR).bind fun _ _ hname => ?_
  refine (alike_expect hR _).bind fun _ _ _ => .pure (like_of rfl ?_)
  exact .cons hword (.cons (like_of rfl (.cons hfile .nil)) (.cons has (.cons hname.like .nil)))

end Blocks

omit hR

theorem statementBody_alike (hS : StorySetting R E g g') {statement statement' : Enclosing → Read Tree}
    (hs : ∀ e, Alike R E (statement e) (statement' e)) (n : Nat) (e : Enclosing) :
    Alike R E (statementBody g statement n e) (statementBody g' statement' n e) := by
  have hR := hS.toSetting
  unfold statementBody
  refine (alike_kind hR).bindSame fun k => ?_
  split
  · exact ifBlock_alike hR (hs e) n
  · exact foreachBlock_alike hR (hs e.loop) n
  · exact whileBlock_alike hR (hs e.loop) n
  · exact tryBlock_alike hR (hs e) n
  · exact functionBlock_alike hR (hs .function) n
  · exact whenBlock_alike hR (hs e) n
  · exact returnStatement_alike hS e n
  · exact loopJump_alike hS e rfl _
  · exact loopJump_alike hS e rfl _
  · exact jumpWithValue_alike hR rfl n
  · exact importStatement_alike hR
  · exact simpleStatement_alike hR (hs e) n

theorem statement_alike (hS : StorySetting R E g g') :
    ∀ n e, Alike R E (statement g n e) (statement g' n e)
  | 0, _ => hS.tooManySteps
  | n + 1, e => alike_startStatement.bind fun _ _ _ =>
      statementBody_alike hS (statement_alike hS n) n e

theorem story_alike (hS : StorySetting R E g g') (n : Nat) : Alike R E (story g n) (story g' n) :=
  (storyStatements_alike hS.toSetting (statement_alike hS n .story) n).bind fun _ _ hts =>
    .pure (like_of rfl hts)

theorem fragment_alike (hR : Setting R E g g') (n : Nat) : Alike R E (fragment g n) (fragment g' n) := by
  unfold fragment
  refine (anyValue_alike hR n).bind fun _ _ ht => ?_
  exact (alike_isAt hR _).bindSame fun _ => (alike_isAt hR _).bindSame fun _ =>
    .ite (.pure ht) hR.unexpected

end Read

namespace Tree

variable {R : Token → Token → Prop} {E : Fault → Fault → Prop} {g g' : Grammar} {ts ts' : List Token}

/-- In front of related tokens that end a story. -/
theorem like_start (h : List.Forall₂ R ts ts') (he : Cursor.missingEnd ts = [])
    (he' : Cursor.missingEnd ts' = []) : (Cursor.start ts).Like R (Cursor.start ts') := by
  unfold Cursor.start
  rw [he, he', List.append_nil, List.append_nil]
  cases h with
  | nil => simp [Cursor.missingEnd] at he
  | cons ht hts => exact ⟨ht, hts, .nil, rfl⟩

theorem of_read {r r' : Nat → Read Tree} (hr : ∀ n, Read.Alike R E (r n) (r' n))
    (h : List.Forall₂ R ts ts') (he : Cursor.missingEnd ts = []) (he' : Cursor.missingEnd ts' = []) :
    EndAlike E (Tree.Like R Tree.Named) ((r (Read.bound ts) (Cursor.start ts)).map (·.1))
      ((r' (Read.bound ts') (Cursor.start ts')).map (·.1)) := by
  have hlen : Read.bound ts' = Read.bound ts := by rw [Read.bound, ← h.length_eq, Read.bound]
  rw [hlen]
  exact (hr _ _ _ (like_start h he he')).map fun _ _ hout => hout.1

/-- Related tokens are read as such trees, or not read for related reasons. -/
theorem ofTokens_together (hS : Read.StorySetting R E g g') (h : List.Forall₂ R ts ts')
    (he : Cursor.missingEnd ts = []) (he' : Cursor.missingEnd ts' = []) :
    EndAlike E (Tree.Like R Tree.Named) (ofTokens g ts) (ofTokens g' ts') :=
  of_read (Read.story_alike hS) h he he'

theorem ofFragment_together (hR : Read.Setting R E g g') (h : List.Forall₂ R ts ts')
    (he : Cursor.missingEnd ts = []) (he' : Cursor.missingEnd ts' = []) :
    EndAlike E (Tree.Like R Tree.Named) (ofFragment g ts) (ofFragment g' ts') :=
  of_read (Read.fragment_alike hR) h he he'

end Tree

end StoryLang
