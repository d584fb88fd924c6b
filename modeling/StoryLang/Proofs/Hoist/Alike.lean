/-
Making trees plain side by side.

What is taken out of a value depends on the nodes of a tree and not on the
words of its keywords. So trees over related tokens are made plain in the same
way, with the same coordinates, as long as their strings are.

Two strings are made plain in the same way if they have the same pieces and
what is read from their codes is alike. That is said of the tokens that stand
for them: where the codes of related strings are read as trees over related
tokens again, stories over related tokens are made plain in the same way. One
of two codes may be longer than the other. It is found to lie deep enough by
the lengths of the strings that it stands in.
-/
import StoryLang.Proofs.Follows
import StoryLang.Proofs.Hoist.Job
import StoryLang.Proofs.Hoist.Normal
import StoryLang.Proofs.Token.Reworded
import StoryLang.Proofs.Tree.Like
import StoryLang.Proofs.Tree.Together

namespace StoryLang.Hoist

open StoryLang.Tree (Like LikeAll Named Heads)

/-! ## What is taken out -/

/-- Tokens of a tree that was read and of a plain one. What is put into a plain
tree agrees if it is on the same line. -/
structure Carries (I O : Token → Token → Prop) : Prop where
  before : Token.Agrees I
  after : Token.Agrees O
  keeps : ∀ t t', I t t' → O t t'
  made : ∀ (kind : TokenKind) (literal : String) (p p' : Position),
    (kind = .string → Pieces.hasCode literal.toList = false) → p'.line = p.line →
      O ⟨kind, literal, p⟩ ⟨kind, literal, p'⟩

/-- The same is taken out, and such trees are left. -/
structure OutLike (O : Token → Token → Prop) (out out' : Out Tree) : Prop where
  before : LikeAll O Named out.before out'.before
  left : out.left.Like O Named out'.left

/-- The same is taken out of two rows, and such rows are left. -/
structure RowLike (O : Token → Token → Prop) (ps ps' : List Tree) (out out' : Out (List Tree)) :
    Prop where
  before : LikeAll O Named out.before out'.before
  left : LikeAll O Named out.left out'.left
  head : ∀ H, Heads H ps ps' → Heads H out.left out'.left

variable {I O : Token → Token → Prop} {t t' : Tree} {ps ps' : List Tree}

/-- Both do the same with a tree. -/
abbrev Alike (O : Token → Token → Prop) (x x' : Hoist (Out Tree)) : Prop :=
  Follows Eq (OutLike O) x x'

theorem line_position (hO : Token.Agrees O) (h : t.Like O Named t') :
    (t'.position?.getD .first).line = (t.position?.getD .first).line := by
  have hf := h.firstToken?
  unfold Tree.position?
  revert hf
  generalize t.firstToken? = first, t'.firstToken? = first'
  rintro (hu | _)
  · exact hO.line _ _ hu
  · rfl

variable (hc : Carries I O)

include hc

theorem like_path (c : Coord) {p p' : Position} (hp : p'.line = p.line) :
    (c.path p).Like O Named (c.path p') :=
  .node (fun _ => ⟨_, _, _, _, rfl, rfl, .inl rfl⟩)
    (.cons (.token (hc.made _ _ _ _ (by simp) hp)) .nil)

theorem like_assignment (c : Coord) (h : t.Like O Named t') :
    (c.assignment t).Like O Named (c.assignment t') :=
  .node (Named.other rfl _ _) (.cons (like_path hc c (line_position hc.after h))
    (.cons (.token (hc.made _ _ _ _ (by simp) (line_position hc.after h))) (.cons h .nil)))

theorem takeOut_alike (base : Nat) {out out' : Out Tree} (h : OutLike O out out') :
    Alike O (takeOut base out) (takeOut base out') := by
  rintro i _ a j rfl ha
  obtain ⟨rfl, rfl⟩ := Prod.mk.inj (Except.ok.inj ha)
  exact ⟨_, _, rfl, ⟨List.rel_append h.before (.cons (like_assignment hc _ h.left) .nil),
    like_path hc _ (line_position hc.after h.left)⟩, rfl⟩

omit hc in
theorem like_linkParts (hO : Token.Agrees O) (h : t.Like O Named t') :
    LikeAll O Named (linkParts t) (linkParts t') := by
  refine rel_filter h.parts fun p p' hp => ?_
  have := hp.asToken?
  revert this
  generalize p.asToken? = u, p'.asToken? = u'
  rintro (hu | _)
  · simp [hO.kind _ _ hu]
  · rfl

variable {subject subject' fragment fragment' : Tree}

omit hc in
theorem like_mutationOf (hO : Token.Agrees O) (hs : subject.Like O Named subject')
    (hf : fragment.Like O Named fragment') :
    (mutationOf subject fragment).Like O Named (mutationOf subject' fragment') :=
  .node (Named.other rfl _ _)
    (.cons hs (.cons (.node (Named.other rfl _ _) (like_linkParts hO hf)) .nil))

omit hc in
theorem like_firstLink (hO : Token.Agrees O) (hs : subject.Like O Named subject')
    (hf : fragment.Like O Named fragment') :
    (firstLink subject fragment).Like O Named (firstLink subject' fragment') := by
  unfold firstLink
  rw [Like.isA _ _ _ hs]
  split
  · exact .node (Named.other rfl _ _) (.cons hs (like_linkParts hO hf))
  · exact like_mutationOf hO hs hf

theorem chain_alike (base : Nat) {link : Tree → Tree → Tree} {before before' fs fs' : List Tree}
    (hl : ∀ {s s' f f' : Tree}, s.Like O Named s' → f.Like O Named f' →
      (link s f).Like O Named (link s' f'))
    (hb : LikeAll O Named before before') (hs : subject.Like O Named subject')
    (hf : LikeAll O Named fs fs') :
    Alike O (chain base link before subject fs) (chain base link before' subject' fs') := by
  induction hf generalizing link before before' subject subject' with
  | nil => exact .of_error (by simp [chain, fail])
  | @cons f f' fs fs' hfirst hrest ih =>
    cases hrest with
    | nil => exact .pure ⟨hb, like_mutationOf hc.after hs hfirst⟩
    | cons hsecond hrest =>
      refine (takeOut_alike hc base ⟨hb, hl hs hfirst⟩).bind fun out out' hout => ?_
      exact ih (like_mutationOf hc.after) hout.before hout.left

omit hc in
theorem guardCondition_alike (construct : String) (u u' : Token) {out out' : Out Tree}
    (h : OutLike O out out') :
    Alike O (guardCondition construct u out) (guardCondition construct u' out') := by
  obtain ⟨before, left⟩ := out
  obtain ⟨before', left'⟩ := out'
  obtain ⟨hb, hl⟩ := h
  cases hb with
  | nil => exact .pure ⟨.nil, hl⟩
  | cons => exact .of_error (by simp [guardCondition, fail])

/-! ## Trees and rows -/

/-- The rows of parts of two trees that are made plain: a string consists of its token. -/
structure Rows (r : Rule) (ps ps' : List Tree) : Prop where
  named : Named r ps ps'
  string : r = .string → ∃ u u', ps = [.token u] ∧ ps' = [.token u'] ∧ u.kind = .string

variable {m m' : ScanMode} {code code' : Nat → Tree → Hoist (Out Tree)}

/-- Both make the same of a string. -/
def StringsAlike (I O : Token → Token → Prop) (m m' : ScanMode)
    (code code' : Nat → Tree → Hoist (Out Tree)) : Prop :=
  ∀ base line u u', I u u' → u.kind = .string →
    Alike O (string m (code base) line [.token u]) (string m' (code' base) line [.token u'])

/-- Both make the same of a tree, and of its parts. -/
structure TreeAlike (I O : Token → Token → Prop) (m m' : ScanMode)
    (code code' : Nat → Tree → Hoist (Out Tree)) (t : Tree) : Prop where
  tree : ∀ base role {t' : Tree}, t.Like I Rows t' →
    Alike O (tree m code base role t) (tree m' code' base role t')
  parts : ∀ base {ps' : List Tree}, LikeAll I Rows t.parts ps' →
    Follows Eq (RowLike O t.parts ps') (parts m code base t.parts) (parts m' code' base ps')

omit hc in
theorem tree_token {base : Nat} {role : Role} {p : Tree} (u : Token) (hp : p = .token u) :
    tree m code base role p = pure (.all (.token u)) := by
  rw [hp, tree]

theorem token_alike {u u' : Token} (h : I u u') :
    OutLike O (.all (.token u)) (.all (.token u')) :=
  ⟨.nil, .token (hc.keeps _ _ h)⟩

section Rows

variable {p p' : Tree} {x x' : Hoist (Out Tree)} {y y' : Hoist (Out (List Tree))}

/-- A token stays where it is, and so does the head of a row. -/
theorem row_cons (hp : p.Like I Rows p') (hx : Alike O x x')
    (ht : ∀ u, p = .token u → x = pure (.all (.token u)))
    (ht' : ∀ u, p' = .token u → x' = pure (.all (.token u)))
    (hy : Follows Eq (RowLike O ps ps') y y') :
    Follows Eq (RowLike O (p :: ps) (p' :: ps'))
      (do
        let first ← x
        let rest ← y
        return ⟨first.before ++ rest.before, first.left :: rest.left⟩)
      (do
        let first ← x'
        let rest ← y'
        return ⟨first.before ++ rest.before, first.left :: rest.left⟩) := by
  have hsame : Follows Eq (fun first first' => OutLike O first first' ∧
      ∀ u u', p = .token u → p' = .token u' →
        first.left = .token u ∧ first'.left = .token u') x x' := by
    cases hp with
    | token related =>
      rw [ht _ rfl, ht' _ rfl]
      refine .pure ⟨token_alike hc related, ?_⟩
      rintro u u' ⟨⟩ ⟨⟩
      exact ⟨rfl, rfl⟩
    | node => exact hx.mono fun _ _ h => ⟨h, fun _ _ h => by simp at h⟩
  refine hsame.bind fun first first' ⟨hfirst, hhead⟩ => hy.bind fun rest rest' hrest => .pure ?_
  refine ⟨List.rel_append hfirst.before hrest.before, .cons hfirst.left hrest.left, ?_⟩
  rintro H ⟨u, ts, u', ts', hu, hu', hw⟩
  obtain ⟨rfl, rfl⟩ := List.cons.inj hu
  obtain ⟨rfl, rfl⟩ := List.cons.inj hu'
  obtain ⟨hl, hl'⟩ := hhead u u' rfl rfl
  exact ⟨u, _, u', _, by rw [hl], by rw [hl'], hw⟩

omit hc in
theorem row_nil : Follows (σ := Issued) (ε := Fault) Eq (RowLike O [] []) (pure (.all [])) (pure (.all [])) :=
  .pure ⟨.nil, .nil, fun _ => id⟩

theorem parts_alike {base : Nat} (h : ∀ p ∈ ps, TreeAlike I O m m' code code' p)
    (hp : LikeAll I Rows ps ps') :
    Follows Eq (RowLike O ps ps') (parts m code base ps) (parts m' code' base ps') := by
  induction hp with
  | nil => exact row_nil
  | cons hfirst _ ih =>
    obtain ⟨hown, hrest⟩ := List.forall_mem_cons.1 h
    exact row_cons hc hfirst (hown.tree base .part hfirst) tree_token tree_token (ih hrest)

theorem values_alike {base : Nat} (h : ∀ p ∈ ps, TreeAlike I O m m' code code' p)
    (hp : LikeAll I Rows ps ps') :
    Follows Eq (RowLike O ps ps') (values m code base ps) (values m' code' base ps') := by
  induction hp with
  | nil => exact row_nil
  | cons hfirst _ ih =>
    obtain ⟨hown, hrest⟩ := List.forall_mem_cons.1 h
    exact row_cons hc hfirst (hown.tree base .value hfirst) tree_token tree_token (ih hrest)

theorem partsLast_alike {base : Nat} {role : Role} (h : ∀ p ∈ ps, TreeAlike I O m m' code code' p)
    (hp : LikeAll I Rows ps ps') :
    Follows Eq (RowLike O ps ps') (partsLast m code base role ps)
      (partsLast m' code' base role ps') := by
  induction hp with
  | nil => exact row_nil
  | @cons p p' ps ps' hfirst hothers ih =>
    obtain ⟨hown, hrest⟩ := List.forall_mem_cons.1 h
    cases hothers with
    | nil =>
      have := row_cons hc hfirst
        (hown.tree base role hfirst) tree_token tree_token row_nil
      simpa [partsLast, Out.all] using this
    | cons hsecond hothers =>
      exact row_cons hc hfirst (hown.tree base .part hfirst) tree_token tree_token (ih hrest)

end Rows

omit hc in
/-- Both make the same of the nodes of a row. -/
theorem fragments_alike {base : Nat} (h : ∀ p ∈ ps, TreeAlike I O m m' code code' p)
    (hp : LikeAll I Rows ps ps') :
    Follows Eq (fun out out' => LikeAll O Named out.before out'.before ∧
        LikeAll O Named out.left out'.left)
      (fragments m code base ps) (fragments m' code' base ps') := by
  induction hp with
  | nil => exact .pure ⟨.nil, .nil⟩
  | cons hfirst _ ih =>
    obtain ⟨hown, hrest⟩ := List.forall_mem_cons.1 h
    cases hfirst with
    | token => exact ih hrest
    | node row parts =>
      refine (hown.parts base parts).bind fun first first' hfirst => ?_
      refine (ih hrest).bind fun rest rest' ⟨hb, hl⟩ => .pure ?_
      exact ⟨List.rel_append hfirst.before hb,
        .cons (.node (fun hr => hfirst.head _ (row.named hr)) hfirst.left) hl⟩

theorem node_alike {base : Nat} {r : Rule} {line : Option Coord} (row : Rows r ps ps')
    (h : ∀ p ∈ ps, TreeAlike I O m m' code code' p) (hp : LikeAll I Rows ps ps') :
    Alike O
      (do
        let out ← parts m code base ps
        return ⟨out.before, .node r line out.left⟩)
      (do
        let out ← parts m' code' base ps'
        return ⟨out.before, .node r line out.left⟩) :=
  (parts_alike hc h hp).bind fun _ _ hout =>
    .pure ⟨hout.before, .node (fun hr => hout.head _ (row.named hr)) hout.left⟩

theorem links_alike {base : Nat} (h : ∀ p ∈ ps, TreeAlike I O m m' code code' p)
    (hp : LikeAll I Rows ps ps') :
    Alike O (links m code base ps) (links m' code' base ps') := by
  cases hp with
  | nil => exact .of_error (by simp [links, fail])
  | cons hfirst hothers =>
    obtain ⟨hown, hrest⟩ := List.forall_mem_cons.1 h
    cases hfirst with
    | token => exact .of_error (by simp [links, fail])
    | @node r l qs qs' row parts =>
      -- what is done with the links, given the subject
      have behind {subject subject' : Out Tree} (hs : OutLike O subject subject') :
          Alike O
            (do
              let found ← fragments m code base _
              chain base firstLink (subject.before ++ found.before) subject.left found.left)
            (do
              let found ← fragments m' code' base _
              chain base firstLink (subject'.before ++ found.before) subject'.left found.left) :=
        (fragments_alike hrest hothers).bind fun _ _ hfound =>
          chain_alike hc base (like_firstLink hc.after) (List.rel_append hs.before hfound.1) hs.left hfound.2
      unfold links
      split
      · refine (hown.parts base parts).bind fun out out' hout => ?_
        refine (Follows.pure (A := OutLike O) ⟨hout.before, ?_⟩).bind fun _ _ hs => behind hs
        exact .node (fun hr => hout.head _ (row.named hr)) hout.left
      · exact (hown.tree base .operand (Like.node row parts)).bind fun _ _ hs => behind hs

theorem statements_alike (h : ∀ p ∈ ps, TreeAlike I O m m' code code' p)
    (hp : LikeAll I Rows ps ps') :
    Follows Eq (LikeAll O Named) (statements m code ps) (statements m' code' ps') := by
  induction hp with
  | nil => exact .pure .nil
  | cons hfirst _ ih =>
    obtain ⟨hown, hrest⟩ := List.forall_mem_cons.1 h
    cases hfirst with
    | token related =>
      exact (ih hrest).bind fun _ _ hts => .pure (.cons (.token (hc.keeps _ _ related)) hts)
    | @node r l qs qs' row parts =>
      have hline := (Like.node row parts : Like I Rows (.node r l qs) _).line? hc.before
      unfold statements
      rw [show baseOf (.node r l qs') = baseOf (.node r l qs) by rw [baseOf, hline, baseOf]]
      refine (hown.tree _ .statement (Like.node row parts)).bind fun _ _ hout => ?_
      exact (ih hrest).bind fun _ _ hts =>
        .pure (List.rel_append hout.before (.cons hout.left hts))

/-- What is left as it is. -/
theorem like_whole (h : t.Like I Rows t') : t.Like O Named t' :=
  Like.imp t t' h (fun u _ u' _ hu => hc.keeps u u' hu) fun _ _ _ _ _ _ row _ => row.named

/-- Both make the same of a node, if they do of its parts. -/
theorem node_tree_alike (hs : StringsAlike I O m m' code code') {r : Rule} {line : Option Coord}
    (row : Rows r ps ps') (h : ∀ p ∈ ps, TreeAlike I O m m' code code' p)
    (hp : LikeAll I Rows ps ps') (base : Nat) (role : Role) :
    Alike O (tree m code base role (.node r line ps)) (tree m' code' base role (.node r line ps')) := by
  have whole : Alike O (pure (.all (.node r line ps))) (pure (.all (.node r line ps'))) :=
    .pure ⟨.nil, like_whole hc (.node row hp)⟩
  unfold tree
  cases ht : treatment role r with
  | parts => exact node_alike hc row h hp
  | partsOut =>
    refine (parts_alike hc h hp).bind fun out out' hout => takeOut_alike hc base ⟨hout.before, ?_⟩
    exact .node (fun hr => hout.head _ (row.named hr)) hout.left
  | lastAs lastRole =>
    have hlast := rel_getLast? hp
    dsimp only
    generalize ps.getLast? = last, ps'.getLast? = last' at hlast
    cases hlast with
    | none => exact whole
    | some hl =>
      cases hl with
      | token => exact whole
      | node =>
        exact (partsLast_alike hc h hp).bind fun out out' hout =>
          .pure ⟨hout.before, .node (fun hr => hout.head _ (row.named hr)) hout.left⟩
  | chain => exact links_alike hc h hp
  | chainOut => exact (links_alike hc h hp).bind fun _ _ hout => takeOut_alike hc base hout
  | values =>
    obtain rfl := rule_of_values ht
    have several : Alike O
        (do
          let out ← values m code base ps
          return ⟨out.before, .node .expressionStatement line out.left⟩)
        (do
          let out ← values m' code' base ps'
          return ⟨out.before, .node .expressionStatement line out.left⟩) :=
      (values_alike hc h hp).bind fun _ _ hout =>
        .pure ⟨hout.before, .node (Named.other rfl _ _) hout.left⟩
    dsimp only
    cases hp with
    | nil => exact several
    | cons hfirst hothers =>
      cases hothers with
      | cons => cases hfirst <;> exact several
      | nil =>
        cases hfirst with
        | token => exact several
        | node inner parts =>
          have hvalue := (h _ List.mem_cons_self).tree base .value (Like.node inner parts)
          dsimp only
          exact .ite hvalue (hvalue.bind fun _ _ hout =>
            .pure ⟨hout.before, .node (Named.other rfl _ _) (.cons hout.left .nil)⟩)
  | string =>
    obtain ⟨u, u', rfl, rfl, hk⟩ := row.string (rule_of_string ht)
    obtain rfl := rule_of_string ht
    cases hp with
    | cons hu _ =>
      cases hu with
      | token related => exact hs base line u u' related hk
  | statements =>
    obtain ⟨-, rfl⟩ := rule_of_statements ht
    exact (statements_alike hc h hp).bind fun _ _ hts =>
      .pure ⟨.nil, .node (Named.other rfl _ _) hts⟩
  | guarded construct =>
    have hfirst := LikeAll.firstToken? hp
    dsimp only
    generalize Tree.firstTokenOf? ps = first, Tree.firstTokenOf? ps' = first' at hfirst
    cases hfirst with
    | none => exact .of_error (by simp [fail])
    | some =>
      refine (parts_alike hc h hp).bind fun out out' hout =>
        guardCondition_alike construct _ _ ⟨hout.before, ?_⟩
      exact .node (fun hr => hout.head _ (row.named hr)) hout.left

/-- Both make the same of a tree. -/
theorem tree_alike (hs : StringsAlike I O m m' code code') (t : Tree) :
    TreeAlike I O m m' code code' t := by
  induction t using Tree.byParts with
  | token u =>
    refine ⟨fun base role t' ht => ?_, fun base ps' hp => ?_⟩
    · cases ht with
      | token related =>
        rw [tree_token u rfl, tree_token _ rfl]
        exact .pure (token_alike hc related)
    · cases hp
      exact row_nil
  | node r line ps h =>
    refine ⟨fun base role t' ht => ?_, fun base ps' hp => parts_alike hc h hp⟩
    cases ht with
    | node row parts => exact node_tree_alike hc hs row h parts base role

end StoryLang.Hoist

/-! ## Strings -/

namespace StoryLang

open StoryLang.Tree (Like LikeAll Named)

namespace Hoist

variable {m m' : ScanMode} {R O : Token → Token → Prop}

/-! ## Related tokens -/

/-- From both codes related trees are read. -/
def ReadAlike (m m' : ScanMode) (R : Token → Token → Prop) (source source' : List Char) : Prop :=
  ∀ (start start' : Position) (v : Tree), start'.line = start.line → readCode m source start = .ok v →
    ∃ v', readCode m' source' start' = .ok v' ∧ v.Like R Named v'

theorem line_shift {start start' p p' : Position} (hs : start'.line = start.line)
    (hp : p'.line = p.line) : (shift start' p').line = (shift start p).line := by
  unfold shift
  rw [hp]
  split <;> simp [hs]

/-- Codes with related tokens are read alike. -/
theorem ReadAlike.of_scan {source source' : List Char}
    (hread : Read.Setting R (fun _ _ => True) m.grammar m'.grammar)
    (hmoved : ∀ {t t' : Token} {start start' : Position}, R t t' → start'.line = start.line →
      R (moved start t) (moved start' t'))
    (hscan : ∀ {ts : List Token}, (scan m source).tokens = .ok ts →
      ∃ ts', (scan m' source').tokens = .ok ts' ∧ List.Forall₂ R ts ts') :
    ReadAlike m m' R source source' := by
  intro start start' v hs h
  unfold readCode at h ⊢
  split at h
  · simp at h
  · rename_i ts hts
    obtain ⟨ts', hts', hrel⟩ := hscan hts
    have hall : List.Forall₂ R (ts.map (moved start)) (ts'.map (moved start')) :=
      List.forall₂_map_left_iff.2 (List.forall₂_map_right_iff.2
        (hrel.imp fun _ _ ht => hmoved ht hs))
    rw [hts']
    exact (Tree.ofFragment_together hread hall (missingEnd_moved (scan_ok hts) start)
      (missingEnd_moved (scan_ok hts') start')).exists_ok h

/-- The codes of related strings are read alike, and what is put into a plain tree agrees. -/
structure Sources (m m' : ScanMode) (R O : Token → Token → Prop) : Prop where
  carries : Carries R O
  pieces : ∀ t t', R t t' → t.kind = .string →
    List.Forall₂ (Pieces.Alike (ReadAlike m m' R)) (Pieces.split t.literal.toList)
      (Pieces.split t'.literal.toList)

/-- Related tokens, the second of which is no string that is longer than a length. -/
structure Short (R : Token → Token → Prop) (n : Nat) (t t' : Token) : Prop where
  related : R t t'
  length : t'.kind = .string → t'.literal.length ≤ n

theorem Carries.short (hc : Carries R O) (n : Nat) : Carries (Short R n) O where
  before :=
    { kind := fun _ _ h => hc.before.kind _ _ h.related
      line := fun _ _ h => hc.before.line _ _ h.related
      name := fun _ _ h => hc.before.name _ _ h.related }
  after := hc.after
  keeps _ _ h := hc.keeps _ _ h.related
  made := hc.made

/-- A string that was read is the token it was read from. -/
theorem string_row {g : Grammar} {P : Token → Prop} {l : Option Coord} {ps ps' : List Tree}
    (h : Formed P g .read (.node .string l ps)) (hp : LikeAll R Named ps ps') :
    ∃ u u', ps = [.token u] ∧ ps' = [.token u'] ∧ u.kind = .string := by
  cases h with
  | node content _ _ =>
    cases content with
    | @string _ u kind _ =>
      cases hp with
      | cons hu hnil =>
        cases hnil
        cases hu with
        | token => exact ⟨u, _, rfl, rfl, kind⟩

/-- A tree that was read, beside one without strings longer than a length. -/
theorem like_rows {g : Grammar} {P : Token → Prop} {n : Nat} {v v' : Tree} (h : v.Like R Named v')
    (hv : Formed P g .read v) (hn : ∀ u ∈ v'.yield, u.kind = .string → u.literal.length ≤ n) :
    v.Like (Short R n) Rows v' := by
  refine Like.imp v v' h (fun u _ u' hu' hu => ⟨hu, hn u' hu'⟩) fun r l ps ps' hp _ row parts => ?_
  refine ⟨row, ?_⟩
  rintro rfl
  exact string_row (hv.of_mem_walk _ hp) parts

theorem like_castToString (hc : Carries R O) {v v' : Tree} {p p' : Position} (h : v.Like O Named v')
    (hp : p'.line = p.line) : (castToString v p).Like O Named (castToString v' p') := by
  exact .node (Named.other rfl _ _) (.cons h (.cons (.token (hc.made _ _ _ _ (by simp) hp))
    (.cons (.node (fun _ => ⟨_, _, _, _, rfl, rfl, .inl rfl⟩)
      (.cons (.token (hc.made _ _ _ _ (by simp) hp)) .nil)) .nil)))

theorem like_sum (hc : Carries R O) {p p' : Position} (hp : p'.line = p.line) {first first' : Tree}
    {rest rest' : List Tree} (h : first.Like O Named first') (hs : LikeAll O Named rest rest') :
    (sum p first rest).Like O Named (sum p' first' rest') := by
  induction hs generalizing first first' with
  | nil => exact h
  | cons hnext _ ih =>
    exact ih (.node (Named.other rfl _ _)
      (.cons h (.cons (.token (hc.made _ _ _ _ (by simp) hp)) (.cons hnext .nil))))

/-- Such trees have the same coordinates of their own. -/
theorem issued_eq {N : Rule → List Tree → List Tree → Prop} {t t' : Tree} (h : t.Like R N t') :
    Issued.ofTree t' = Issued.ofTree t := by
  have hown : List.Forall₂ Eq (t.walk.filterMap Tree.ownLine?) (t'.walk.filterMap Tree.ownLine?) :=
    List.rel_filterMap (fun p p' hp => by
      rw [Like.ownLine? hp]
      cases p.ownLine? with
      | none => exact .none
      | some c => exact .some rfl) (Like.walk t t' h)
  rw [List.forall₂_eq_eq_eq] at hown
  rw [Issued.ofTree, Issued.ofTree, hown]

/-! ## Strings -/

/-- Both make the same of the codes in strings, where no string is longer than a length. -/
def CodesAlike (R O : Token → Token → Prop) (n : Nat) (code code' : Tree → Hoist (Out Tree)) : Prop :=
  ∀ {v v' : Tree}, v.Like (Short R n) Rows v' → Alike O (code v) (code' v')

section Strings

variable (hS : Sources m m' R O) (hg : m.grammar.KeepsLayout) (hg' : m'.grammar.KeepsLayout)
  {code code' : Tree → Hoist (Out Tree)} {t t' : Token} {n : Nat}

include hS hg hg'

/-- Both make the same of a piece of a string. -/
theorem piece_alike (hcode : ∀ k, n = k + 1 → CodesAlike R O k code code') (ht : Short R n t t')
    (hk : t.kind = .string) {p p' : Piece} (h : Pieces.Alike (ReadAlike m m' R) p p')
    (hp : p ∈ Pieces.split t.literal.toList) (hp' : p' ∈ Pieces.split t'.literal.toList) :
    Alike O (piece m code t p) (piece m' code' t' p') := by
  have hc := hS.carries
  have hline := hc.before.line _ _ ht.related
  cases h with
  | text raw =>
    refine .pure ⟨.nil, .node (Named.other rfl _ _) (.cons (.token ?_) .nil)⟩
    exact hc.made _ _ _ _ (fun _ => by simpa using Pieces.hasCode_text hp) hline
  | @code source source' related offset offset' =>
    -- the code is shorter than the string by its braces at least
    obtain ⟨k, rfl, hlen⟩ : ∃ k, n = k + 1 ∧ source'.length ≤ k := by
      obtain ⟨pre, post, hraw, -⟩ := Pieces.mem_split hp'
      have hlength := ht.length ((hc.before.kind _ _ ht.related).trans hk)
      have := congrArg List.length hraw
      simp only [String.length_toList, List.length_append, List.length_cons] at this
      exact ⟨n - 1, by omega, by omega⟩
    have hstart : (⟨t'.line, t'.column + 1 + offset'⟩ : Position).line =
        (⟨t.line, t.column + 1 + offset⟩ : Position).line := hline
    simp only [piece]
    cases hv : readCode m source ⟨t.line, t.column + 1 + offset⟩ with
    | error f => exact .of_error (by simp [fail])
    | ok v =>
      obtain ⟨v', hv', hlike⟩ := related _ _ v hstart hv
      obtain ⟨_, used, _, _, hd⟩ := readCode_derives hg hv
      have hformed := (hd.formed_one (P := fun _ => True) (by simp)).2
      rw [hv']
      refine (hcode k rfl ?_).bind fun out out' hout =>
        .pure ⟨hout.before, like_castToString hc hout.left hstart⟩
      exact like_rows hlike hformed fun u hu hk => Nat.le_trans (readCode_short hg' hv' hu hk) hlen

theorem pieces_alike (hcode : ∀ k, n = k + 1 → CodesAlike R O k code code') (ht : Short R n t t')
    (hk : t.kind = .string) {ps ps' : List Piece}
    (h : List.Forall₂ (Pieces.Alike (ReadAlike m m' R)) ps ps')
    (hp : ∀ p ∈ ps, p ∈ Pieces.split t.literal.toList)
    (hp' : ∀ p ∈ ps', p ∈ Pieces.split t'.literal.toList) :
    Follows Eq (fun out out' => LikeAll O Named out.before out'.before ∧
        LikeAll O Named out.left out'.left)
      (pieces m code t ps) (pieces m' code' t' ps') := by
  induction h with
  | nil => exact .pure ⟨.nil, .nil⟩
  | cons hfirst _ ih =>
    obtain ⟨hown, hrest⟩ := List.forall_mem_cons.1 hp
    obtain ⟨hown', hrest'⟩ := List.forall_mem_cons.1 hp'
    exact (piece_alike hS hg hg' hcode ht hk hfirst hown hown').bind fun first first' hfirst =>
      (ih hrest hrest').bind fun rest rest' ⟨hb, hl⟩ =>
        .pure ⟨List.rel_append hfirst.before hb, .cons hfirst.left hl⟩

/-- Both make the same of a string. -/
theorem string_alike (hcode : ∀ k, n = k + 1 → CodesAlike R O k code code') (ht : Short R n t t')
    (hk : t.kind = .string) (line : Option Coord) :
    Alike O (string m code line [.token t]) (string m' code' line [.token t']) := by
  have hsplit := hS.pieces _ _ ht.related hk
  have hstays : (Tree.node .string line [.token t]).Like O Named (.node .string line [.token t']) :=
    .node (Named.other rfl _ _) (.cons (.token (hS.carries.keeps _ _ ht.related)) .nil)
  unfold string
  dsimp only
  rw [Pieces.hasCode_alike hsplit]
  split
  · refine (pieces_alike hS hg hg' hcode ht hk hsplit (fun _ => id) fun _ => id).bind
      fun out out' h => ?_
    obtain ⟨hb, hl⟩ := h
    generalize out.left = left, out'.left = left' at hl
    cases hl with
    | nil => exact .pure ⟨hb, hstays⟩
    | cons hfirst hrest =>
      exact .pure ⟨hb, like_sum hS.carries (hS.carries.before.line _ _ ht.related) hfirst hrest⟩
  · exact .pure ⟨.nil, hstays⟩

omit hg hg' in
/-- A code is made plain like any value. -/
theorem code_alike {depth depth' : Nat}
    (hs : StringsAlike (Short R n) O m m' (Hoist.code m depth) (Hoist.code m' depth')) (base : Nat) :
    CodesAlike R O n (Hoist.code m (depth + 1) base) (Hoist.code m' (depth' + 1) base) := by
  have hc := hS.carries.short n
  intro v v' h
  have hall := tree_alike hc hs v
  have out : Alike O (tree m (Hoist.code m depth) base .value v >>= takeOut base)
      (tree m' (Hoist.code m' depth') base .value v' >>= takeOut base) :=
    (hall.tree base .value h).bind fun _ _ hout => takeOut_alike hc base hout
  cases h with
  | token => exact out
  | @node r l ps ps' row parts =>
    by_cases hr : r = .path
    · subst hr
      exact (hall.parts base parts).bind fun _ _ hout =>
        .pure ⟨hout.before, .node (fun hr => hout.head _ (row.named hr)) hout.left⟩
    · have hcode (m : ScanMode) (depth : Nat) (ps : List Tree) :
          Hoist.code m (depth + 1) base (.node r l ps) =
            tree m (Hoist.code m depth) base .value (.node r l ps) >>= takeOut base := by
        cases r <;> simp_all [Hoist.code]
      rw [hcode, hcode]
      exact out

/-- Codes get shorter with every string they stand in, so no depth is too little
that is the length of a string. -/
theorem strings_alike : ∀ n depth : Nat,
    StringsAlike (Short R n) O m m' (Hoist.code m depth) (Hoist.code m' n) := by
  intro n
  induction n with
  | zero =>
    exact fun depth base line u u' hu hk => string_alike hS hg hg' (by simp) hu hk line
  | succ n ih =>
    intro depth base line u u' hu hk
    refine string_alike hS hg hg' (fun k hn => ?_) hu hk line
    obtain rfl : n = k := by omega
    cases depth with
    | zero => exact fun {_ _} _ => .of_error (by simp [Hoist.code, fail])
    | succ depth => exact code_alike hS (ih depth) base

/-- A story that was read is made plain in the same way. -/
theorem story_alike {P : Token → Prop} {ps : List Tree} {t' v : Tree}
    (h : (Tree.of .start ps).Like R Named t') (hf : ∀ p ∈ ps, Formed P m.grammar .read p)
    (hv : story m (.of .start ps) = .ok v) : ∃ v', story m' t' = .ok v' ∧ v.Like O Named v' := by
  have hissued := issued_eq h
  cases h with
  | @node _ _ _ ps' row parts =>
    have hc := hS.carries.short (depthOf (.of .start ps'))
    -- no string is longer than the depth allows
    have hrows (u : Token) (hu : u ∈ Tree.yieldAll ps') : u.literal.length ≤ depthOf (.of .start ps') :=
      Nat.le_of_lt (length_lt_depthOf u hu)
    have hparts : LikeAll (Short R (depthOf (.of .start ps'))) Rows ps ps' := by
      refine LikeAll.imp ps ps' parts (fun u _ u' hu' hu => ⟨hu, fun _ => hrows u' hu'⟩) ?_
      intro r' l' qs qs' hq _ row' parts'
      refine ⟨row', ?_⟩
      rintro rfl
      obtain ⟨p, hp, hq⟩ := List.mem_flatMap.1 (Tree.walkAll_eq ps ▸ hq)
      exact string_row ((hf p hp).of_mem_walk _ hq) parts'
    have hs := strings_alike hS hg hg' (depthOf (.of .start ps')) (depthOf (.of .start ps))
    have hall := statements_alike hc (fun p _ => tree_alike hc hs p) hparts
    simp only [story] at hv ⊢
    split at hv
    · simp at hv
    · rename_i left i hleft
      obtain rfl := Except.ok.inj hv
      obtain ⟨left', i', hleft', hlike, -⟩ := hall _ _ left i rfl hleft
      rw [hissued, hleft']
      exact ⟨_, rfl, .node (Named.other rfl _ _) hlike⟩

end Strings

end Hoist

end StoryLang
