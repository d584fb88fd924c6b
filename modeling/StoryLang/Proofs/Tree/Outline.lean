/-
The outline of a tree: its statements and branches in the order of the story.

A station is a statement, or an `else if`, `else`, `catch` or `finally`: what
becomes a record of the script. In a tree that was read, the line of each
station has ended before the next station starts, so their lines increase.
-/
import StoryLang.Proofs.Token.Follow
import StoryLang.Proofs.Tree.Form

namespace StoryLang

namespace Tree

mutual

/-- The stations of a tree, each before those of its blocks and branches. A
tree that is listed among statements is one itself. -/
def stations : Bool → Tree → List Tree
  | _, token _ => []
  | listed, node r l ps =>
    if listed || r.isBranch then node r l ps :: stationsAll false ps
    else if r = .block then stationsAll true ps
    else []

/-- The stations of a row of trees. -/
def stationsAll : Bool → List Tree → List Tree
  | _, [] => []
  | listed, t :: ts => stations listed t ++ stationsAll listed ts

end

/-- The coordinates of the statements and branches of a story, in document order. -/
def outline (t : Tree) : List (Option Coord) := (stationsAll true t.parts).map line?

/-- The target of a `when`. -/
def target? : Tree → Option Tree
  | node .whenBlock _ ps => ps.find? (·.isA .path)
  | _ => none

/-- The name that the target of a `when` starts with. -/
def listensTo? (t : Tree) : Option Token := t.target?.bind firstToken?

/-- What every stage keeps of a station: its coordinate and what it listens to. -/
def heading (t : Tree) : Option Coord × Option Token := (t.line?, t.listensTo?)

theorem target?_of_rule {r : Rule} {l : Option Coord} {ps : List Tree} (h : r ≠ .whenBlock) :
    (node r l ps).target? = none := by
  cases r <;> first | rfl | exact absurd rfl h

theorem heading_eq {t t' : Tree} (hl : t'.line? = t.line?) (ht : t'.listensTo? = t.listensTo?) :
    t'.heading = t.heading := by
  rw [heading, heading, hl, ht]

theorem line?_of_heading {ts ts' : List Tree} (h : ts'.map heading = ts.map heading) :
    ts'.map line? = ts.map line? := by
  simpa [heading, Function.comp_def] using congrArg (List.map Prod.fst) h

@[simp] theorem stationsAll_nil (listed : Bool) : stationsAll listed [] = [] := rfl

@[simp] theorem stationsAll_cons (listed : Bool) (t : Tree) (ts : List Tree) :
    stationsAll listed (t :: ts) = stations listed t ++ stationsAll listed ts := rfl

@[simp] theorem stationsAll_append (listed : Bool) (ts us : List Tree) :
    stationsAll listed (ts ++ us) = stationsAll listed ts ++ stationsAll listed us := by
  induction ts with
  | nil => rfl
  | cons t ts ih => simp [ih]

@[simp] theorem stations_token (listed : Bool) (t : Token) : stations listed (token t) = [] := rfl

theorem stations_node (listed : Bool) (r : Rule) (l : Option Coord) (ps : List Tree) :
    stations listed (node r l ps) =
      if listed || r.isBranch then node r l ps :: stationsAll false ps
      else if r = .block then stationsAll true ps
      else [] :=
  rfl

theorem stations_listed {t : Tree} (h : t.isNode = true) :
    stations true t = t :: stationsAll false t.parts := by
  cases t with
  | token t => simp [isNode] at h
  | node r l ps => simp [stations_node, parts]

theorem mem_stationsAll {t : Tree} {ts : List Tree} (ht : t ∈ ts) (hn : t.isNode = true) :
    t ∈ stationsAll true ts := by
  obtain ⟨us, vs, rfl⟩ := List.append_of_mem ht
  simp [stations_listed hn]

theorem stations_block {t : Tree} (h : t.isA .block = true) :
    stations false t = stationsAll true t.parts := by
  obtain ⟨line, ps, rfl⟩ := isA_iff.1 h
  simp [stations_node, Rule.isBranch, parts]

/-- A part that is neither a block nor a branch has no station. -/
theorem stations_other {t : Tree} {r : Rule} (h : t.isA r = true)
    (hr : r ≠ .block ∧ r.isBranch = false) : stations false t = [] := by
  obtain ⟨line, ps, rfl⟩ := isA_iff.1 h
  simp [stations_node, hr]

theorem stations_fits {s : Stage} {t : Tree} (h : t.fits s = true) : stations false t = [] := by
  obtain ⟨r, line, ps, rfl, hv⟩ := fits_iff.1 h
  refine stations_other (r := r) (by simp [isA, rule?]) ?_
  rcases hv with hv | ⟨-, hv⟩ <;> cases r <;> simp_all [Rule.isValue, Rule.isCall, Rule.isBranch]

end Tree

/-! ## The lines of what is read -/

/-- Among the tokens are the first tokens of the trees, each with the end of
its line before the next one. -/
inductive Lined : List Token → List Tree → Prop where
  | nil {ts} : Lined ts []
  | cons {us s vs lineEnd ws t rest} (own : t.ownLine? = none) (first : t.firstToken? = some s)
      (kind : s.kind.isLayout = false) (ends : lineEnd.kind = .newline) (others : Lined ws rest) :
    Lined (us ++ s :: vs ++ lineEnd :: ws) (t :: rest)

namespace Lined

theorem behind {ts : List Token} {trees : List Tree} (us : List Token) (h : Lined ts trees) :
    Lined (us ++ ts) trees := by
  cases h with
  | nil => exact .nil
  | @cons us' s vs _ ws _ _ own first kind ends others =>
    simpa using @Lined.cons (us ++ us') _ vs _ _ _ _ own first kind ends others

theorem append {ts us : List Token} {trees trees' : List Tree} (h : Lined ts trees)
    (h' : Lined us trees') : Lined (ts ++ us) (trees ++ trees') := by
  induction h with
  | @nil ts => exact h'.behind ts
  | @cons us' s vs _ ws _ _ own first kind ends others ih =>
    simpa using @Lined.cons us' _ vs _ _ _ _ own first kind ends ih

theorem upTo {ts : List Token} {trees : List Tree} (us : List Token) (h : Lined ts trees) :
    Lined (ts ++ us) trees := by
  simpa using h.append (.nil : Lined us [])

/-- A tree whose first token is on a line, and what comes after the line. -/
theorem start {run us : List Token} {s lineEnd : Token} {t : Tree} {rest : List Tree}
    (own : t.ownLine? = none) (first : t.firstToken? = some s) (hs : s ∈ run)
    (kind : s.kind.isLayout = false) (ends : lineEnd.kind = .newline) (others : Lined us rest) :
    Lined (run ++ lineEnd :: us) (t :: rest) := by
  obtain ⟨vs, ws, rfl⟩ := List.append_of_mem hs
  exact .cons own first kind ends others

end Lined

namespace Tree

theorem firstTokenOf?_append {ts : List Tree} {s : Token} (us : List Tree)
    (h : firstTokenOf? ts = some s) : firstTokenOf? (ts ++ us) = some s := by
  induction ts with
  | nil => simp [firstTokenOf?] at h
  | cons t ts ih =>
    simp only [List.cons_append, firstTokenOf?, Option.or_eq_some_iff] at h ⊢
    exact h.imp_right (And.imp_right ih)

theorem stationsAll_none (listed : Bool) {ts : List Tree} (h : ∀ t ∈ ts, stations listed t = []) :
    stationsAll listed ts = [] := by
  induction ts with
  | nil => rfl
  | cons t ts ih => simp [h t (by simp), ih fun u hu => h u (by simp [hu])]

end Tree

variable {P : Token → Prop}

/-- A call without a block has no stations. -/
theorem Formed.stations_call {g : Grammar} {s : Stage} {t : Tree} (h : Formed P g s t)
    (hc : t.isCall = true) (hb : ∀ p ∈ t.parts, p.isA .block = false) :
    Tree.stationsAll false t.parts = [] := by
  cases h with
  | token t => simp [Tree.isCall, Tree.rule?] at hc
  | node content own parts =>
    have extras : ∀ {extra : List Tree}, Extras extra → (∀ p ∈ extra, p.isA .block = false) →
        ∀ p ∈ extra, Tree.stations false p = [] := by
      intro extra he hb
      cases he with
      | none => simp
      | output ho => simp [Tree.stations_other ho ⟨by simp, rfl⟩]
      | block h | both _ h => simp [h] at hb
    refine Tree.stationsAll_none _ ?_
    simp only [Tree.parts] at hb ⊢
    cases content with
    | functionCall named arguments => simp [Tree.stations_other arguments ⟨by simp, rfl⟩]
    | serviceCall path named arguments he =>
      simp only [List.forall_mem_cons] at hb ⊢
      exact ⟨Tree.stations_other path ⟨by simp, rfl⟩, Tree.stations_token _ _,
        Tree.stations_other arguments ⟨by simp, rfl⟩, extras he hb.2.2.2⟩
    | chain value linked alone each =>
      simp only [List.forall_mem_cons]
      exact ⟨Tree.stations_fits value, Tree.stations_other linked ⟨by simp, rfl⟩,
        fun p hp => Tree.stations_other (each p hp) ⟨by simp, rfl⟩⟩
    | mutation value linked he =>
      simp only [List.forall_mem_cons] at hb ⊢
      exact ⟨Tree.stations_fits value, Tree.stations_other linked ⟨by simp, rfl⟩,
        extras he hb.2.2⟩
    | _ => simp [Tree.isCall, Tree.rule?, Rule.isCall] at hc

/-- What the outline of a phrase's trees is like. -/
def Phrase.Outlines : Phrase → List Token → List Tree → Prop
  | .statement, ts, trees | .statements, ts, trees => Lined ts (Tree.stationsAll true trees)
  | .body, ts, trees | .branches, ts, trees | .caught, ts, trees | .always, ts, trees =>
    Lined ts (Tree.stationsAll false trees)
  | .block, ts, trees => ∃ lineEnd us, ts = lineEnd :: us ∧ lineEnd.kind = .newline ∧
    Lined us (Tree.stationsAll false trees)
  | _, _, _ => True

theorem Formed.ownLine {g : Grammar} {t : Tree} (h : Formed P g .read t) : t.ownLine? = none := by
  cases h with
  | token t => rfl
  | node _ own _ => exact own rfl

/-- The first token of a statement is one of those it is derived from. -/
theorem Derives.firstToken {g : Grammar} (hg : g.KeepsLayout) {p : Phrase} {ts : List Token}
    {t : Tree} (h : Derives g p ts [t]) (hf : Formed P g .read t) (hb : t.isA .block = false)
    (ha : t.isA .arguments = false) :
    ∃ s, t.firstToken? = some s ∧ s ∈ ts ∧ s.kind.isLayout = false := by
  obtain ⟨s, first⟩ := Option.isSome_iff_exists.1 (hf.hasToken hb ha)
  have hy : s ∈ Tree.yieldAll [t] := by
    simpa [Tree.yieldAll] using Tree.mem_yield_of_firstToken? first
  exact ⟨s, first, h.yield_subset s hy, h.yield_flat hg s hy⟩

theorem Tree.isStatement_isA {r : Rule} {t : Tree} (h : t.isStatement = true)
    (hr : r.isStatement = false) : t.isA r = false := by
  cases t with
  | token t => rfl
  | node r' l ps => 
    have : r' ≠ r := by
      rintro rfl
      simp [isStatement, rule?, hr] at h
    simpa [isA, rule?] using this

/-- A statement of one line. -/
theorem Derives.lined_line {g : Grammar} (hg : g.KeepsLayout) (ts : List Token) {t : Tree}
    {lineEnd : Token} (h : Derives g .statement (ts ++ [lineEnd]) [t])
    (hs : ∀ u ∈ ts ++ [lineEnd], u.Sound) (ends : lineEnd.kind = .newline)
    (hp : Tree.stationsAll false t.parts = []) :
    Lined (ts ++ [lineEnd]) (Tree.stationsAll true [t]) := by
  obtain ⟨ha, hf⟩ := h.formed_one hs
  obtain ⟨s, first, hmem, kind⟩ := h.firstToken hg hf (Tree.isStatement_isA ha rfl)
    (Tree.isStatement_isA ha rfl)
  have hts : s ∈ ts := by
    rcases List.mem_append.1 hmem with h | h
    · exact h
    · obtain rfl := List.mem_singleton.1 h
      simp [ends, TokenKind.isLayout] at kind
  have hn : t.isNode = true := by
    cases t with
    | token t => simp [Tree.isStatement, Tree.rule?, Phrase.admits] at ha
    | node r l ps => rfl
  simpa [Tree.stations_listed hn, hp] using
    Lined.start hf.ownLine first hts kind ends .nil

/-- A station that starts with a keyword and has its blocks behind the end of the line. -/
theorem Lined.keyword {k : Keyword} {word lineEnd : Token} (run : List Token) {us : List Token}
    (listed : Bool) (rule : Rule) {ps : List Tree} (kind : word.kind = .keyword k)
    (hr : (listed || rule.isBranch) = true) (ends : lineEnd.kind = .newline)
    (others : Lined us (Tree.stationsAll false ps)) :
    Lined (word :: run ++ lineEnd :: us) (Tree.stations listed (.of rule (.token word :: ps))) := by
  simp only [Tree.stations_node, hr, if_true, Tree.stationsAll_cons]
  exact .start (s := word) rfl (by simp [Tree.firstToken?, Tree.firstTokenOf?]) (by simp)
    (by simp [kind]) ends (by simpa using others)

/-- The lines of what is read, in the order of its outline. -/
theorem Derives.outlines {g : Grammar} (hg : g.KeepsLayout) {p : Phrase} {ts : List Token}
    {trees : List Tree} (h : Derives g p ts trees) : (∀ u ∈ ts, u.Sound) → p.Outlines ts trees := by
  induction h with
  | @body opening ts closing statements opens inner closes ih =>
    intro hs
    simp only [List.forall_mem_append, List.forall_mem_cons] at hs
    have hl := ((ih hs.1.2).upTo [closing]).behind [opening]
    simpa [Phrase.Outlines, Tree.stations_node, Rule.isBranch] using hl
  | block kind body ih =>
    intro hs
    exact ⟨_, _, rfl, kind, ih fun u hu => hs u (by simp [hu])⟩
  | noStatements | noBranches | notCaught | notAlways => exact fun _ => .nil
  | statements first others ih ih' =>
    intro hs
    simp only [List.forall_mem_append] at hs
    simpa [Phrase.Outlines] using (ih hs.1).append (ih' hs.2)
  | assignment path kind value ends =>
    intro hs
    have h := Derives.assignment path kind value ends
    refine h.lined_line hg _ hs ends (Tree.stationsAll_none _ ?_)
    simp only [List.forall_mem_append, List.forall_mem_cons] at hs
    obtain ⟨hp, -⟩ := path.formed_one hs.1.1
    obtain ⟨⟨hv, -⟩, -⟩ := value.formed_one hs.1.2.2
    simp [Tree.parts, Tree.stations_fits hv, Tree.stations_other hp ⟨by simp, rfl⟩]
  | call value isCall ends =>
    intro hs
    have h := Derives.call value isCall ends
    obtain ⟨⟨-, hb⟩, hf⟩ := value.formed_one fun u hu => hs u (by simp [hu])
    exact h.lined_line hg _ hs ends (hf.stations_call isCall hb)
  | @callBlock ts line ps lineEnd us body value ends block ih ih' =>
    intro hs
    simp only [List.forall_mem_append, List.forall_mem_cons] at hs
    obtain ⟨⟨-, hb⟩, hf⟩ := value.formed_one hs.1
    obtain ⟨s, first, hmem, kind⟩ := value.firstToken hg hf rfl rfl
    have hp := hf.stations_call rfl hb
    have first' := Tree.firstTokenOf?_append [body] first
    simp only [Tree.parts] at hp
    simp only [Phrase.Outlines, Tree.stationsAll_cons, Tree.stationsAll_nil, List.append_nil,
      Tree.stations_node, Bool.true_or, if_true, Tree.stationsAll_append, hp, List.nil_append]
    exact .start hf.ownLine first' hmem kind ends (by simpa [Phrase.Outlines] using ih' hs.2.2)
  | valueAlone value noCall ends =>
    intro hs
    have h := Derives.valueAlone value noCall ends
    obtain ⟨⟨hv, -⟩, -⟩ := value.formed_one fun u hu => hs u (by simp [hu])
    exact h.lined_line hg _ hs ends (by simp [Tree.parts, Tree.stations_fits hv])
  | returnAlone kind ends =>
    intro hs
    exact (Derives.returnAlone kind ends).lined_line hg [_] hs ends (by simp [Tree.parts])
  | throwAlone kind ends =>
    intro hs
    exact (Derives.throwAlone kind ends).lined_line hg [_] hs ends (by simp [Tree.parts])
  | breakOff kind ends =>
    intro hs
    exact (Derives.breakOff kind ends).lined_line hg [_] hs ends (by simp [Tree.parts])
  | continueOn kind ends =>
    intro hs
    exact (Derives.continueOn kind ends).lined_line hg [_] hs ends (by simp [Tree.parts])
  | returnValue kind value ends =>
    intro hs
    have h := Derives.returnValue kind value ends
    obtain ⟨⟨hv, -⟩, -⟩ := value.formed_one fun u hu => hs u (by simp [hu])
    exact h.lined_line hg _ hs ends (by simp [Tree.parts, Tree.stations_fits hv])
  | throwValue kind value ends =>
    intro hs
    have h := Derives.throwValue kind value ends
    obtain ⟨⟨hv, -⟩, -⟩ := value.formed_one fun u hu => hs u (by simp [hu])
    exact h.lined_line hg _ hs ends (by simp [Tree.parts, Tree.stations_fits hv])
  | importFile kind quoted renamed named ends =>
    intro hs
    have h := Derives.importFile kind quoted renamed named ends
    exact h.lined_line hg [_, _, _, _] hs ends
      (by simp [Tree.parts, Tree.stations_node, Rule.isBranch])
  | @elseIf elseWord ifWord ts condition us body vs rest kind again value block others ih ih' ih'' =>
    intro hs
    simp only [List.forall_mem_append, List.forall_mem_cons] at hs
    obtain ⟨⟨hv, -⟩, -⟩ := value.formed_one hs.1.1.2.2
    obtain ⟨lineEnd, us, rfl, ends, hl⟩ := ih' hs.1.2
    have hl' : Lined us (Tree.stationsAll false [.token ifWord, condition, body]) := by
      simpa [Tree.stations_fits hv] using hl
    have hk := Lined.keyword (ifWord :: ts) false .elifBlock kind rfl
      ends hl'
    simpa [Phrase.Outlines] using hk.append (ih'' hs.2)
  | otherwise kind block ih =>
    intro hs
    simp only [List.forall_mem_cons] at hs
    obtain ⟨lineEnd, us, rfl, ends, hl⟩ := ih hs.2
    simpa [Phrase.Outlines] using
      Lined.keyword [] false .elseBlock kind rfl ends hl
  | @ifBlock word ts condition us body vs branches kind value block others ih ih' ih'' =>
    intro hs
    simp only [List.forall_mem_append, List.forall_mem_cons] at hs
    obtain ⟨⟨hv, -⟩, -⟩ := value.formed_one hs.1.1.2
    obtain ⟨lineEnd, us, rfl, ends, hl⟩ := ih' hs.1.2
    have hl' : Lined (us ++ vs) (Tree.stationsAll false (condition :: body :: branches)) := by
      simpa [Tree.stations_fits hv] using hl.append (ih'' hs.2)
    simpa [Phrase.Outlines] using
      Lined.keyword ts true .ifBlock kind rfl ends hl'
  | @foreachBlock word ts source us names vs body kind value output block ih ih' ih'' =>
    intro hs
    simp only [List.forall_mem_append, List.forall_mem_cons] at hs
    obtain ⟨⟨hv, -⟩, -⟩ := value.formed_one hs.1.1.2
    obtain ⟨ho, -⟩ := output.formed_one hs.1.2
    obtain ⟨lineEnd, vs, rfl, ends, hl⟩ := ih'' hs.2
    have hl' : Lined vs (Tree.stationsAll false [source, names, body]) := by
      simpa [Tree.stations_fits hv, Tree.stations_other ho ⟨by simp, rfl⟩] using hl
    simpa [Phrase.Outlines] using
      Lined.keyword (ts ++ us) true .foreachBlock kind rfl ends hl'
  | @whileBlock word ts condition us body kind value block ih ih' =>
    intro hs
    simp only [List.forall_mem_append, List.forall_mem_cons] at hs
    obtain ⟨⟨hv, -⟩, -⟩ := value.formed_one hs.1.2
    obtain ⟨lineEnd, us, rfl, ends, hl⟩ := ih' hs.2
    have hl' : Lined us (Tree.stationsAll false [condition, body]) := by
      simpa [Tree.stations_fits hv] using hl
    simpa [Phrase.Outlines] using
      Lined.keyword ts true .whileBlock kind rfl ends hl'
  | catchBlock kind block ih =>
    intro hs
    simp only [List.forall_mem_cons] at hs
    obtain ⟨lineEnd, us, rfl, ends, hl⟩ := ih hs.2
    simpa [Phrase.Outlines] using
      Lined.keyword [] false .catchBlock kind rfl ends hl
  | @catchAs word ts name us body kind output block ih ih' =>
    intro hs
    simp only [List.forall_mem_append, List.forall_mem_cons] at hs
    obtain ⟨ho, -⟩ := output.formed_one hs.1.2
    obtain ⟨lineEnd, us, rfl, ends, hl⟩ := ih' hs.2
    have hl' : Lined us (Tree.stationsAll false [name, body]) := by
      simpa [Tree.stations_other ho ⟨by simp, rfl⟩] using hl
    simpa [Phrase.Outlines] using
      Lined.keyword ts false .catchBlock kind rfl ends hl'
  | finallyBlock kind block ih =>
    intro hs
    simp only [List.forall_mem_cons] at hs
    obtain ⟨lineEnd, us, rfl, ends, hl⟩ := ih hs.2
    simpa [Phrase.Outlines] using
      Lined.keyword [] false .finallyBlock kind rfl ends hl
  | @tryBlock word ts body us caught vs after kind block handled ended ih ih' ih'' =>
    intro hs
    simp only [List.forall_mem_append, List.forall_mem_cons] at hs
    obtain ⟨lineEnd, ts, rfl, ends, hl⟩ := ih hs.1.1.2
    have hl' : Lined (ts ++ us ++ vs) (Tree.stationsAll false (body :: caught ++ after)) := by
      simpa using (hl.append (ih' hs.1.2)).append (ih'' hs.2)
    simpa [Phrase.Outlines] using
      Lined.keyword [] true .tryBlock kind rfl ends hl'
  | @functionBlock word name ts parameters us type vs body kind named given gives block _ ih ih' ih'' =>
    intro hs
    simp only [List.forall_mem_append, List.forall_mem_cons] at hs
    obtain ⟨lineEnd, vs, rfl, ends, hl⟩ := ih'' hs.2
    have hp := Tree.stationsAll_none false fun t ht =>
      Tree.stations_other (given.formed hs.1.1.2.2 t ht).1 ⟨by simp, rfl⟩
    have hr := Tree.stationsAll_none false fun t ht =>
      Tree.stations_other (gives.formed hs.1.2 t ht).1 ⟨by simp, rfl⟩
    have hl' : Lined vs
        (Tree.stationsAll false (.token name :: parameters ++ type ++ [body])) := by
      simpa [hp, hr] using hl
    simpa [Phrase.Outlines] using
      Lined.keyword (name :: ts ++ us) true .functionBlock kind rfl
        ends hl'
  | @whenBlock word ts target event us given vs body kind path named arguments block ih _ ih' ih'' =>
    intro hs
    simp only [List.forall_mem_append, List.forall_mem_cons] at hs
    obtain ⟨hp, -⟩ := path.formed_one hs.1.1.2
    obtain ⟨lineEnd, vs, rfl, ends, hl⟩ := ih'' hs.2
    have hl' : Lined vs
        (Tree.stationsAll false [target, .token event, .of .arguments given, body]) := by
      simpa [Tree.stations_other hp ⟨by simp, rfl⟩, Tree.stations_node, Rule.isBranch] using hl
    simpa [Phrase.Outlines] using
      Lined.keyword (ts ++ event :: us) true .whenBlock kind rfl ends
        hl'
  | @whenAs word ts target event us given vs names ws body kind path named arguments output block
      ih _ ih' iho ih'' =>
    intro hs
    simp only [List.forall_mem_append, List.forall_mem_cons] at hs
    obtain ⟨hp, -⟩ := path.formed_one hs.1.1.1.2
    obtain ⟨ho, -⟩ := output.formed_one hs.1.2
    obtain ⟨lineEnd, ws, rfl, ends, hl⟩ := ih'' hs.2
    have hl' : Lined ws
        (Tree.stationsAll false [target, .token event, .of .arguments given, names, body]) := by
      simpa [Tree.stations_other hp ⟨by simp, rfl⟩, Tree.stations_other ho ⟨by simp, rfl⟩,
        Tree.stations_node, Rule.isBranch] using hl
    simpa [Phrase.Outlines] using
      Lined.keyword (ts ++ event :: us ++ vs) true .whenBlock kind rfl
        ends hl'
  | _ => intros; trivial

/-- The lines of trees that come one after the other increase. -/
theorem Lined.increasing {ts : List Token} {trees : List Tree} (h : Lined ts trees) :
    ts.Pairwise Token.Follows → ∃ ls : List Nat, trees.map Tree.line? = ls.map (some ∘ Coord.ofLine) ∧
      ls.Pairwise (· < ·) ∧ ∀ l ∈ ls, ∃ u ∈ ts, u.kind.isLayout = false ∧ u.line = l := by
  induction h with
  | nil => exact fun _ => ⟨[], rfl, .nil, by simp⟩
  | @cons us s vs lineEnd ws t rest own first kind ends others ih =>
    intro ho
    have ho' : (us ++ (s :: vs) ++ lineEnd :: ws).Pairwise Token.Follows := ho
    obtain ⟨-, hw, hcross⟩ := List.pairwise_append.1 ho'
    obtain ⟨hend, hws⟩ := List.pairwise_cons.1 hw
    obtain ⟨ls, hls, hlt, hmem⟩ := ih hws
    have hs : s.line ≤ lineEnd.line := (hcross s (by simp) lineEnd (by simp)).line
    refine ⟨s.line :: ls, ?_, List.pairwise_cons.2 ⟨fun l hl => ?_, hlt⟩, ?_⟩
    · simp [hls, Tree.line?, own, first]
    · obtain ⟨u, hu, hk, rfl⟩ := hmem l hl
      exact Nat.lt_of_le_of_lt hs (((hend u hu).before hk).newline ends)
    · refine List.forall_mem_cons.2 ⟨⟨s, by simp, kind, rfl⟩, fun l hl => ?_⟩
      obtain ⟨u, hu, hk, hl⟩ := hmem l hl
      exact ⟨u, by simp [hu], hk, hl⟩

end StoryLang
