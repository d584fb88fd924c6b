/-
The script of a plain tree has one record for each station.

If the coordinates of the stations increase, each record is put behind all
others, so none takes the place of another, and the script comes out in the
order of the outline. The records of a block come behind the one that owns it
and lie there as a row.
-/
import StoryLang.Proofs.Script.Record
import StoryLang.Proofs.Tree.Blocks
import StoryLang.Proofs.Tree.Outline

namespace StoryLang.Script

variable {g : Grammar} {source : String} {place : Place} {s : Script} {t : Tree} {ts us : List Tree}
  {rule : Rule} {ps : List Tree}

/-- The coordinates of the records. -/
def lines (s : Script) : List Coord := s.records.map (·.line)

@[simp] theorem lines_declare (name : String) (line : Coord) : (s.declare name line).lines = s.lines :=
  rfl

theorem insertRecord_last {r : Record} {rs : List Record} (h : ∀ r' ∈ rs, r'.line < r.line) :
    insertRecord r rs = some (rs ++ [r]) := by
  induction rs with
  | nil => rfl
  | cons other rs ih =>
    simp only [List.forall_mem_cons] at h
    have h1 : ¬ r.line < other.line := fun h' => Coord.lt_irrefl _ (Coord.lt_trans h' h.1)
    have h2 : r.line ≠ other.line := fun h' => Coord.lt_irrefl _ (h' ▸ h.1)
    simp [insertRecord, h1, h2, ih h.2]

/-- The script has grown by records whose successors are not known yet. -/
structure Grows (s s' : Script) (rs : List Record) : Prop where
  records : s'.records = s.records ++ rs
  next : ∀ r ∈ rs, r.next = none
  functions : ∀ f ∈ s'.functions.entries, f ∈ s.functions.entries ∨ ∃ r ∈ rs, r.line = f.2

theorem Grows.refl : Grows s s [] := ⟨by simp, by simp, fun _ h => .inl h⟩

theorem Grows.trans {s' s'' : Script} {rs us : List Record} (h : Grows s s' rs)
    (h' : Grows s' s'' us) : Grows s s'' (rs ++ us) where
  records := by rw [h'.records, h.records, List.append_assoc]
  next := List.forall_mem_append.2 ⟨h.next, h'.next⟩
  functions f hf := by
    rcases h'.functions f hf with hf | ⟨r, hr, hl⟩
    · exact (h.functions f hf).imp_right fun ⟨r, hr, hl⟩ => ⟨r, by simp [hr], hl⟩
    · exact .inr ⟨r, by simp [hr], hl⟩

/-- There is a record for each of the trees, at its coordinate. -/
def Covers (ts : List Tree) (rs : List Record) : Prop :=
  ts.map Tree.line? = rs.map fun r => some r.line

/-- The result has records for some trees behind those of the script, if the
coordinates of all these increase. -/
def Appends (g : Grammar) (s : Script) (ts : List Tree) (post : List Record → Prop)
    (x : Except Fault Script) : Prop :=
  ∀ cs : List Coord, ts.map Tree.line? = cs.map some → (s.lines ++ cs).Pairwise (· < ·) →
    g.Gives x fun s' => ∃ rs, Grows s s' rs ∧ rs.map (·.line) = cs ∧ post rs

namespace Appends

variable {x : Except Fault Script} {post post' post'' : List Record → Prop}

theorem nil (h : post []) : Appends g s [] post (.ok s) := by
  intro cs hcs _
  obtain rfl : cs = [] := by simpa using hcs.symm
  exact .ok ⟨[], .refl, rfl, h⟩

theorem bind {f : Script → Except Fault Script} (h : Appends g s ts post x)
    (hf : ∀ s', Appends g s' us post' (f s'))
    (hp : ∀ rs rs', Covers ts rs → post rs → Covers us rs' → post' rs' → post'' (rs ++ rs')) :
    Appends g s (ts ++ us) post'' (x >>= f) := by
  intro cs hcs hc
  rw [List.map_append] at hcs
  obtain ⟨ds, es, rfl, hds, hes⟩ := List.map_eq_append_iff.1 hcs.symm
  rw [← List.append_assoc] at hc
  refine (h ds hds.symm (List.pairwise_append.1 hc).1).bind fun s' ⟨rs, hg, hrs, hpost⟩ => ?_
  have hlines : s'.lines = s.lines ++ ds := by rw [lines, hg.records, List.map_append, hrs, lines]
  refine (hf s' es hes.symm (by rw [hlines]; exact hc)).mono fun s'' ⟨rs', hg', hrs', hpost'⟩ => ?_
  refine ⟨rs ++ rs', hg.trans hg', by rw [List.map_append, hrs, hrs'], hp rs rs' ?_ hpost ?_ hpost'⟩
  · rw [Covers, ← hds, ← hrs, List.map_map]
    rfl
  · rw [Covers, ← hes, ← hrs', List.map_map]
    rfl

theorem mono (h : Appends g s ts post x) (hp : ∀ rs, post rs → post' rs) : Appends g s ts post' x :=
  fun cs hcs hc => (h cs hcs hc).mono fun _ ⟨rs, hg, hrs, hpost⟩ => ⟨rs, hg, hrs, hp rs hpost⟩

/-- A station whose coordinate is asked for has one. -/
theorem line (h : ∀ c, t.line? = some c → Appends g s (t :: us) post x) :
    Appends g s (t :: us) post x := by
  intro cs hcs
  cases cs with
  | nil => simp at hcs
  | cons c cs =>
    rw [List.map_cons, List.map_cons, List.cons.injEq] at hcs
    exact h c hcs.1 (c :: cs) (by simpa using hcs)

/-- A function may be declared where its record comes next. -/
theorem declared {s₁ : Script} {c : Coord} (hc : t.line? = some c)
    (hs : s₁ = s ∨ ∃ name, s₁ = s.declare name c) (h : Appends g s₁ (t :: us) post x) :
    Appends g s (t :: us) post x := by
  obtain rfl | ⟨name, rfl⟩ := hs
  · exact h
  intro cs hcs hp
  refine (h cs hcs (by simpa using hp)).mono fun s' ⟨rs, hg, hrs, hpost⟩ => ?_
  refine ⟨rs, ⟨hg.records, hg.next, fun f hf => ?_⟩, hrs, hpost⟩
  rcases hg.functions f hf with hf | hf
  · rcases NameMap.mem_insert hf with rfl | hf
    · obtain ⟨d, ds, rfl, hd, -⟩ := List.map_eq_cons_iff.1 hcs.symm
      obtain ⟨r, us, rfl, hr, -⟩ := List.map_eq_cons_iff.1 hrs
      exact .inr ⟨r, by simp, by simp_all⟩
    · exact .inl hf
  · exact .inr hf

/-- What comes from a record. -/
theorem record {r : Except Fault Record} {known : Record → Prop} {f : Record → Except Fault Script}
    (hr : g.Gives r known) (hf : ∀ r, known r → Appends g s ts post (f r)) :
    Appends g s ts post (r >>= f) :=
  fun cs hcs hp => hr.bind fun r hr => hf r hr cs hcs hp

theorem add {r : Record} (h : t.line? = some r.line) (hn : r.next = none) :
    Appends g s [t] (· = [{ r with source := sourceOf source r.line }]) (add source s r) := by
  intro cs hcs hp
  obtain rfl : cs = [r.line] := by
    cases cs with
    | nil => simp at hcs
    | cons c cs =>
      rw [List.map_singleton, h, List.map_cons, List.cons.injEq] at hcs
      obtain rfl : cs = [] := by simpa using hcs.2.symm
      rw [Option.some.inj hcs.1]
  have hlast := @insertRecord_last { r with source := sourceOf source r.line } s.records (by
    intro r' hr'
    exact (List.pairwise_append.1 hp).2.2 _ (List.mem_map_of_mem hr') _ (by simp))
  unfold Script.add insert
  rw [hlast]
  exact .ok ⟨_, ⟨rfl, by simpa using hn, fun _ h => .inl h⟩, rfl, rfl⟩

end Appends

/-! ## What a statement owns -/

/-- The stations of the first block of a row. -/
def blockStations (ps : List Tree) : List Tree :=
  match ps.find? (·.isA .block) with
  | none => []
  | some b => Tree.stationsAll true b.parts

/-- A part that neither is a block nor has a station. -/
def Silent (t : Tree) : Prop := Tree.stations false t = [] ∧ t.isA .block = false

theorem silent_token (u : Token) : Silent (.token u) := ⟨Tree.stations_token _ _, rfl⟩

theorem silent_fits {s : Stage} (h : t.fits s = true) : Silent t :=
  ⟨Tree.stations_fits h, Tree.fits_isA h ⟨rfl, rfl⟩⟩

theorem silent_isA {r : Rule} (h : t.isA r = true) (hr : r ≠ .block ∧ r.isBranch = false) : Silent t :=
  ⟨Tree.stations_other h hr, Tree.isA_ne h hr.1⟩

/-- The stations of the parts of a statement: those of its block, then its branches. -/
def Owns (rule : Rule) (ps : List Tree) : Prop :=
  Tree.stationsAll false ps =
    blockStations ps ++ Tree.stationsAll false (ps.filter (isOneOf (continuations rule)))

theorem isOneOf_block : isOneOf (continuations rule) t = true → t.isA .block = false := by
  intro h
  cases t with
  | token u => rfl
  | node r l ps => cases rule <;> simp_all [isOneOf, continuations, Tree.isA, Tree.rule?] <;> grind

theorem owns_silent (h : ∀ p ∈ ps, Silent p) : Owns rule ps := by
  have hfind : ps.find? (·.isA .block) = none := by simpa using fun p hp => (h p hp).2
  rw [Owns, blockStations, hfind, Tree.stationsAll_none _ fun p hp => (h p hp).1,
    Tree.stationsAll_none _ fun p hp => (h p (List.mem_filter.1 hp).1).1]
  rfl

theorem owns_block (front : List Tree) {branches : List Tree} {body : Tree} (h : ∀ p ∈ front, Silent p)
    (hb : body.isA .block = true) (hbr : ∀ p ∈ branches, isOneOf (continuations rule) p = true) :
    Owns rule (front ++ body :: branches) := by
  have hfront : front.find? (·.isA .block) = none := by simpa using fun p hp => (h p hp).2
  have hbody : isOneOf (continuations rule) body = false := by
    cases hc : isOneOf (continuations rule) body
    · rfl
    · rw [isOneOf_block hc] at hb
      simp at hb
  have hkeep : branches.filter (isOneOf (continuations rule)) = branches :=
    List.filter_eq_self.2 hbr
  rw [Owns, blockStations, List.find?_append, hfront, Option.none_or, List.find?_cons_of_pos hb,
    List.filter_append, List.filter_cons_of_neg (by simp [hbody]), hkeep, Tree.stationsAll_append,
    Tree.stationsAll_append, Tree.stationsAll_cons, Tree.stationsAll_none _ fun p hp => (h p hp).1,
    Tree.stationsAll_none _ fun p hp => (h p (List.mem_filter.1 hp).1).1, Tree.stations_block hb]
  rfl

theorem owns_extras (front : List Tree) {extra : List Tree} (h : ∀ p ∈ front, Silent p) (hx : Extras extra) :
    Owns rule (front ++ extra) := by
  have hnone : ∀ p ∈ ([] : List Tree), isOneOf (continuations rule) p = true := by simp
  cases hx with
  | none => exact owns_silent (by simpa using h)
  | output ho =>
    refine owns_silent (List.forall_mem_append.2 ⟨h, ?_⟩)
    exact List.forall_mem_singleton.2 (silent_isA ho ⟨by simp, rfl⟩)
  | block hb => exact owns_block _ h hb hnone
  | @both o b ho hb =>
    have hfront : ∀ p ∈ front ++ [o], Silent p :=
      List.forall_mem_append.2 ⟨h, List.forall_mem_singleton.2 (silent_isA ho ⟨by simp, rfl⟩)⟩
    simpa using owns_block _ hfront hb hnone

/-- A statement that may own no block has no stations inside. -/
theorem silent_content (h : Content Token.Sound g .plain rule ps) (hr : rule.isStatement = true)
    (ho : ownsBlock rule = false) : ∀ p ∈ ps, Silent p := by
  cases h with
  | @assignment _ target sign v path value =>
    simp only [List.forall_mem_cons]
    refine ⟨silent_isA path ⟨by simp, rfl⟩, silent_token _, ?_, by simp⟩
    have hv : v.fits .read = true := by
      rcases value with value | value
      · exact Tree.fits_read value
      · cases v <;> simp_all [Tree.fits, Tree.isCall, Tree.rule?]
    exact silent_fits hv
  | expressionStatement value => simpa using silent_fits value
  | returnAlone | throwAlone | breakOff | continueOn => simpa using silent_token _
  | returnValue value | throwValue value => simpa using ⟨silent_token _, silent_fits value⟩
  | importFile value named =>
    simpa using ⟨silent_token _, silent_fits value, silent_token _, silent_token _⟩
  | _ => first | exact absurd ho (by decide) | exact absurd hr (by decide)

/-- A statement or a branch owns its block and its branches, and nothing else. -/
theorem owns_content (h : Content Token.Sound g .plain rule ps)
    (hr : rule.isStatement = true ∨ rule.isBranch = true) : Owns rule ps := by
  by_cases ho : rule.isStatement = true ∧ ownsBlock rule = false
  · exact owns_silent (silent_content h ho.1 ho.2)
  cases h with
  | functionCall named arguments =>
    refine owns_silent ?_
    simp only [List.forall_mem_cons]
    exact ⟨silent_token _, silent_token _, silent_isA arguments ⟨by simp, rfl⟩, silent_token _, by simp⟩
  | @serviceCall _ subject command given extra path named arguments extras =>
    refine owns_extras [subject, .token command, given] ?_ extras
    simp only [List.forall_mem_cons]
    exact ⟨silent_isA path ⟨by simp, rfl⟩, silent_token _, silent_isA arguments ⟨by simp, rfl⟩, by simp⟩
  | @mutation subject link extra value linked extras =>
    refine owns_extras [subject, link] ?_ extras
    simp only [List.forall_mem_cons]
    exact ⟨silent_fits value, silent_isA linked ⟨by simp, rfl⟩, by simp⟩
  | @ifBlock _ word condition body branches value block each =>
    refine owns_block [.token word, condition] ?_ block fun p hp => ?_
    · simpa using ⟨silent_token _, silent_fits value⟩
    · rcases each p hp with h | h <;> simp [isOneOf, continuations, h]
  | @elifBlock _ elseWord ifWord condition body value block =>
    refine owns_block [.token elseWord, .token ifWord, condition] ?_ block (by simp)
    simpa using ⟨silent_token _, silent_token _, silent_fits value⟩
  | @elseBlock _ word body block | @catchBlock _ word body block | @finallyBlock _ word body block =>
    exact owns_block [.token word] (by simpa using silent_token _) block (by simp)
  | @foreachBlock _ word source names body value output block =>
    refine owns_block [.token word, source, names] ?_ block (by simp)
    simpa using ⟨silent_token _, silent_fits value, silent_isA output ⟨by simp, rfl⟩⟩
  | @whileBlock _ word condition body value block =>
    refine owns_block [.token word, condition] ?_ block (by simp)
    simpa using ⟨silent_token _, silent_fits value⟩
  | @tryBlock _ word body handlers block each =>
    refine owns_block [.token word] (by simpa using silent_token _) block fun p hp => ?_
    rcases each p hp with h | h <;> simp [isOneOf, continuations, h]
  | @catchAs _ word name body output block =>
    refine owns_block [.token word, name] ?_ block (by simp)
    simpa using ⟨silent_token _, silent_isA output ⟨by simp, rfl⟩⟩
  | @functionBlock _ word name declared body named each block =>
    refine owns_block (.token word :: .token name :: declared) ?_ block (by simp)
    simp only [List.forall_mem_cons]
    refine ⟨silent_token _, silent_token _, fun p hp => ?_⟩
    rcases each p hp with h | h <;> exact silent_isA h ⟨by simp, rfl⟩
  | @whenBlock _ word target event given body path arguments block =>
    refine owns_block [.token word, target, .token event, given] ?_ block (by simp)
    simpa using ⟨silent_token _, silent_isA path ⟨by simp, rfl⟩, silent_token _,
      silent_isA arguments ⟨by simp, rfl⟩⟩
  | @whenAs _ word target event given names body path arguments output block =>
    refine owns_block [.token word, target, .token event, given, names] ?_ block (by simp)
    simpa using ⟨silent_token _, silent_isA path ⟨by simp, rfl⟩, silent_token _,
      silent_isA arguments ⟨by simp, rfl⟩, silent_isA output ⟨by simp, rfl⟩⟩
  | _ => first | exact absurd ⟨rfl, rfl⟩ ho | exact absurd hr (by decide)

theorem blockOf_silent (h : ∀ p ∈ ps, Silent p) : blockOf ps = [] := by
  have hfind : ps.find? (·.isA .block) = none := by simpa using fun p hp => (h p hp).2
  simp [blockOf, hfind]

/-! ## Where records go on -/

theorem Covers.head {rs : List Record} (h : Covers ts rs) :
    ts.head?.bind Tree.line? = rs.head?.map (·.line) := by
  cases ts <;> cases rs <;> simp_all [Covers]

theorem head_stationsAll (h : ∀ t ∈ ts, t.isStatement = true) :
    (Tree.stationsAll true ts).head? = ts.find? Tree.isNode := by
  cases ts with
  | nil => rfl
  | cons t ts =>
    have hn := Tree.isNode_of_isStatement (h t (by simp))
    simp [Tree.stations_listed hn, hn]

theorem isBranch_of_continuations {owner : Rule} : ∀ r ∈ continuations owner, r.isBranch = true := by
  cases owner <;> simp [continuations, Rule.isBranch]

theorem isBranch_of_isOneOf {owner : Rule} {own : Option Coord}
    (h : isOneOf (continuations owner) (.node rule own ps) = true) : rule.isBranch = true := by
  obtain ⟨r, hr, hrule⟩ := List.any_eq_true.1 h
  obtain rfl : rule = r := by simpa [Tree.isA, Tree.rule?] using hrule
  exact isBranch_of_continuations _ hr

theorem head_continuations (owner : Rule) (ts : List Tree) :
    (Tree.stationsAll false (ts.filter (isOneOf (continuations owner)))).head? =
      ts.find? (isOneOf (continuations owner)) := by
  rw [← List.head?_filter]
  cases hf : ts.filter (isOneOf (continuations owner)) with
  | nil => rfl
  | cons t ts =>
    have ht := (List.mem_filter.1 (hf ▸ List.mem_cons_self : t ∈ _)).2
    cases t with
    | token u => simp [isOneOf, Tree.isA, Tree.rule?] at ht
    | node r l ps => simp [Tree.stations, isBranch_of_isOneOf ht]

/-- Statements go on at the first record behind them, if there is one. -/
theorem Laid.ahead_or {rs : List Record} {first : Option Tree} (h : Laid place rs)
    (hc : Covers ts rs) (hf : ts.head? = first) :
    Ahead place rs ((first.bind Tree.line?).or place.after) := by
  subst hf
  rw [hc.head]
  intro c hor
  rcases Option.or_eq_some_iff.1 hor with hc | ⟨-, hc⟩
  · exact .inr (h.ahead (by rwa [List.head?_map]))
  · exact .inl hc

theorem ahead_exitOf {rest : List Record} (h : Laid place rest)
    (hc : Covers (Tree.stationsAll false (ps.filter (isOneOf (continuations rule)))) rest) :
    Ahead place rest (exitOf rule place.after ps) := by
  cases rule with
  | ifBlock | tryBlock => exact h.ahead_or hc (head_continuations _ ps)
  | foreachBlock | whileBlock => exact .after
  | _ => exact .none

theorem enterOf_eq (hf : ∀ p ∈ ps, Formed Token.Sound g .plain p) :
    enterOf ps = (blockStations ps).head?.bind Tree.line? := by
  unfold enterOf blockStations
  split
  · rename_i h
    simp [h]
  · rename_i b h
    obtain ⟨line, inner, rfl⟩ := Tree.isA_iff.1 (List.find?_some h)
    cases hf _ (List.mem_of_find?_eq_some h) with
    | node content _ _ =>
      cases content with
      | block each => rw [h, Tree.parts, head_stationsAll each]; rfl

/-- A block has a station. -/
theorem blockStations_ne_nil (hf : ∀ p ∈ ps, Formed Token.Sound g .plain p) (hs : Tree.FilledAll ps)
    (hb : ∃ p ∈ ps, p.isA .block = true) : blockStations ps ≠ [] := by
  obtain ⟨b, h⟩ := Option.isSome_iff_exists.1 (List.find?_isSome.2 hb)
  have hm := List.mem_of_find?_eq_some h
  obtain ⟨line, inner, rfl⟩ := Tree.isA_iff.1 (List.find?_some h)
  have hne := (Tree.filled_node.1 (Tree.filledAll_iff.1 hs _ hm)).1 (.inl rfl)
  unfold blockStations
  rw [h]
  cases hf _ hm with
  | node content _ _ =>
    cases content with
    | block each =>
      cases inner with
      | nil => exact absurd rfl hne
      | cons t ts =>
        simp [Tree.parts, Tree.stations_listed (Tree.isNode_of_isStatement (each t (by simp)))]

/-- The record of a statement or a branch, with those of its block and those
that come behind it in its row. -/
theorem laid_node {own : Option Coord} {r : Record} {inner exit source : _}
    {body rest : List Record} (hf : Formed Token.Sound g .plain (.node rule own ps))
    (hs : Tree.FilledAll ps) (fresh : Fresh rule r) (hb : Covers (blockStations ps) body)
    (inside : Laid ⟨some r.line, inner⟩ body) (others : Laid place rest)
    (hexit : Ahead place rest exit) (hafter : Ahead place rest inner)
    (hfunction : rule = .functionBlock → inner = none) :
    Laid place ({ r with parent := place.parent, exit, enter := enterOf ps, source } :: (body ++ rest)) := by
  cases hf with
  | node content _ parts =>
    refine .cons rfl ?_ (fun hm hnil => ?_) hexit hafter (fun hm => hfunction (fresh.function hm))
      inside others
    · rw [enterOf_eq parts, hb.head]
    · obtain ⟨hr, hc⟩ := fresh.block hm
      refine blockStations_ne_nil parts hs (content.exists_block hr hc) ?_
      subst hnil
      simpa [Covers] using hb

/-! ## Records in order -/

/-- The records of a row of statements or branches. -/
structure Row (place : Place) (ts : List Tree) (rs : List Record) : Prop where
  laid : Laid place rs
  written : Written place.parent ts rs

/-- What adding the records of a row does, whichever way it is followed. -/
structure Adds (g : Grammar) (ps : List Tree) : Prop where
  statements : (∀ p ∈ ps, p.isStatement = true) → ∀ source place s,
    Appends g s (Tree.stationsAll true ps) (Row place ps) (ofStatements source place s ps)
  body : ∀ source place s,
    Appends g s (blockStations ps) (Row place (blockOf ps)) (ofBody source place s ps)
  continuations : ∀ owner source place s,
    Appends g s (Tree.stationsAll false (ps.filter (isOneOf (continuations owner))))
      (Row place (ps.filter (isOneOf (continuations owner))))
      (ofContinuations source (continuations owner) place s ps)

structure AddsOne (g : Grammar) (t : Tree) : Prop where
  statement : t.isStatement = true → ∀ source place s,
    Appends g s (Tree.stations true t) (Row place [t]) (ofStatement source place s t)
  rows : Adds g t.parts

theorem Adds.nil : Adds g [] where
  statements _ _ _ _ := .nil ⟨.nil, .nil⟩
  body _ _ _ := .nil ⟨.nil, .nil⟩
  continuations _ _ _ _ := .nil ⟨.nil, .nil⟩

theorem Adds.token {u : Token} (h : Adds g ps) : Adds g (.token u :: ps) where
  statements hs := absurd (hs (.token u) (by simp)) (by simp [Tree.isStatement, Tree.rule?])
  body source place s := by
    have hb : blockStations (.token u :: ps) = blockStations ps := by
      simp [blockStations, Tree.isA, Tree.rule?]
    have hw : blockOf (.token u :: ps) = blockOf ps := by simp [blockOf, Tree.isA, Tree.rule?]
    rw [hb, hw]
    exact h.body source place s
  continuations owner source place s := by
    have hc : isOneOf (Script.continuations owner) (.token u) = false := by
      simp [isOneOf, Tree.isA, Tree.rule?]
    rw [List.filter_cons_of_neg (by simp [hc])]
    exact h.continuations owner source place s

/-- A branch comes before the stations of its block. -/
theorem stations_branch {own : Option Coord} (hr : rule.isBranch = true)
    (hf : Formed Token.Sound g .plain (.node rule own ps)) :
    Tree.stations false (.node rule own ps) = .node rule own ps :: blockStations ps := by
  cases hf with
  | node content _ _ =>
    have howns := owns_content content (.inr hr)
    have hnone : ps.filter (isOneOf (continuations rule)) = [] := by
      simp [continuations_branch hr, isOneOf]
    rw [Owns, hnone, Tree.stationsAll_nil, List.append_nil] at howns
    simp [Tree.stations, hr, howns]

/-- The records of a node and of its block, with those of other nodes behind them in the row. -/
def Headed (place : Place) (t : Tree) (us : List Tree) (rs : List Record) : Prop :=
  ∃ r body rest, rs = r :: (body ++ rest) ∧ Laid place rs ∧ Describes r t ∧ r.parent = place.parent ∧
    Written (some r.line) (blockOf t.parts) body ∧ Written place.parent us rest

/-- The record of a node, those of its block, and what comes behind them in the row. -/
theorem appends_node {own : Option Coord} {r : Record} {inner exit : Option Coord}
    {x : Script → Except Fault Script} {vs : List Tree}
    (hf : Formed Token.Sound g .plain (.node rule own ps))
    (hs : Tree.FilledAll ps) (hline : (Tree.node rule own ps).line? = some r.line) (fresh : Fresh rule r)
    (describes : Describes r (.node rule own ps)) (rows : Adds g ps)
    (hx : ∀ s', Appends g s' us (Row place vs) (x s'))
    (hexit : ∀ rest, Covers us rest → Laid place rest → Ahead place rest exit)
    (hafter : inner = place.after ∨ inner = none) (hfunction : rule = .functionBlock → inner = none) :
    Appends g s (.node rule own ps :: (blockStations ps ++ us)) (Headed place (.node rule own ps) vs) (do
      let s ← add source s { r with parent := place.parent, exit, enter := enterOf ps }
      let s ← ofBody source ⟨some r.line, inner⟩ s ps
      x s) := by
  have hrest : ∀ s', Appends g s' (blockStations ps ++ us) (fun rs => ∃ body rest, rs = body ++ rest ∧
      (Covers (blockStations ps) body ∧ Row ⟨some r.line, inner⟩ (blockOf ps) body) ∧ Covers us rest ∧
      Row place vs rest) (ofBody source ⟨some r.line, inner⟩ s' ps >>= x) := fun s' =>
    (rows.body source _ s').bind hx fun body rest hb inside hr others =>
      ⟨body, rest, rfl, ⟨hb, inside⟩, hr, others⟩
  have hadd : Appends g s [.node rule own ps] _
      (add source s { r with parent := place.parent, exit, enter := enterOf ps }) :=
    .add hline fresh.next
  refine hadd.bind hrest ?_
  rintro _ _ - rfl - ⟨body, rest, rfl, ⟨hb, inside⟩, hr, others⟩
  refine ⟨_, body, rest, rfl, ?_, describes.of_bare rfl, rfl, inside.written, others.written⟩
  show Laid place (_ :: (body ++ rest))
  refine laid_node (r := r) hf hs fresh hb inside.laid others.laid (hexit rest hr others.laid) ?_ hfunction
  rcases hafter with rfl | rfl
  · exact .after
  · exact .none

/-- The record of a statement that may own no block. -/
theorem appends_alone {own : Option Coord} {r : Record} (content : Content Token.Sound g .plain rule ps)
    (hr : rule.isStatement = true)
    (ho : ownsBlock rule = false) (hline : (Tree.node rule own ps).line? = some r.line)
    (fresh : Fresh rule r) (describes : Describes r (.node rule own ps)) :
    Appends g s [.node rule own ps] (Row place [.node rule own ps])
      (add source s { r with parent := place.parent, exit := exitOf rule place.after ps }) := by
  refine (Appends.add ?_ ?_).mono ?_
  · exact hline
  · exact fresh.next
  · rintro _ rfl
    have hexit : exitOf rule place.after ps = none := by
      cases rule <;> first | rfl | exact absurd ho (by decide)
    refine ⟨@Laid.cons _ _ none [] [] rfl fresh.enter (fun hm => ?_) ?_ .none (fun _ => rfl) .nil .nil,
      .alone (describes.of_bare rfl) rfl ?_ ?_⟩
    · obtain ⟨hb, hc⟩ := fresh.block hm
      cases rule <;> simp_all [Rule.hasBlock, ownsBlock, Rule.isStatement]
    · show Ahead place [] (exitOf rule place.after ps)
      rw [hexit]
      exact .none
    · exact blockOf_silent (silent_content content hr ho)
    · refine branchesOf_eq_nil ?_
      cases rule <;> first | rfl | exact absurd ho (by decide)

theorem Adds.node {own : Option Coord} {inner : List Tree}
    (hf : Formed Token.Sound g .plain (.node rule own inner)) (hs : (Tree.node rule own inner).Filled)
    (ht : AddsOne g (.node rule own inner)) (h : Adds g ps) : Adds g (.node rule own inner :: ps) where
  statements hst source place s := by
    simp only [List.forall_mem_cons] at hst
    unfold ofStatements
    refine (ht.statement hst.1 source _ s).bind (fun s' => h.statements hst.2 source place s') ?_
    intro rs rs' _ hr hc hr'
    exact ⟨hr.laid.append hr'.laid (hr'.laid.ahead_or hc (head_stationsAll hst.2)),
      hr.written.append hr'.written⟩
  body source place s := by
    by_cases hr : rule = .block
    · subst hr
      cases hf with
      | node content own parts =>
        cases content with
        | block each => exact ht.rows.statements each source place s
    · have hb : blockStations (.node rule own inner :: ps) = blockStations ps := by
        simp [blockStations, Tree.isA, Tree.rule?, hr]
      have hw : blockOf (.node rule own inner :: ps) = blockOf ps := by
        simp [blockOf, Tree.isA, Tree.rule?, hr]
      have hc : ofBody source place s (.node rule own inner :: ps) = ofBody source place s ps := by
        cases rule <;> first | exact absurd rfl hr | rfl
      rw [hb, hw, hc]
      exact h.body source place s
  continuations owner source place s := by
    unfold ofContinuations
    dsimp only
    by_cases hc : isOneOf (Script.continuations owner) (.node rule own inner) = true
    · rw [List.filter_cons_of_pos hc, if_pos hc]
      have hbranch := isBranch_of_isOneOf hc
      rw [Tree.stationsAll_cons, stations_branch hbranch hf, List.cons_append]
      refine Appends.line fun c hline => ?_
      rw [hline]
      refine Appends.record ((recordOf_gives hf (.inr (by simpa [Tree.rule?] using hbranch))).also
        fun r hr => And.intro hr (recordOf_fresh hr)) fun r hgives => ?_
      obtain ⟨rfl, hrecord, fresh⟩ := hgives
      refine (appends_node hf (Tree.filled_node.1 hs).2 hline fresh (.intro hrecord) ht.rows
        (h.continuations owner source place) (fun rest hcover hl => ?_) (.inl rfl) ?_).mono ?_
      · exact hl.ahead_or hcover (head_continuations owner ps)
      · rintro rfl
        cases hbranch
      · rintro _ ⟨r, body, rest, rfl, hl, describes, hp, inside, others⟩
        exact ⟨hl, .branch describes hp (branchesOf_eq_nil (continuations_branch hbranch)) inside others⟩
    · rw [List.filter_cons_of_neg hc, if_neg hc]
      exact h.continuations owner source place s

theorem Adds.of (hf : ∀ p ∈ ps, Formed Token.Sound g .plain p) (hs : Tree.FilledAll ps)
    (h : ∀ p ∈ ps, AddsOne g p) : Adds g ps := by
  induction ps with
  | nil => exact .nil
  | cons p ps ih =>
    simp only [List.forall_mem_cons, Tree.filledAll_cons] at hf hs h
    cases p with
    | token u => exact (ih hf.2 hs.2 h.2).token
    | node r l inner => exact (ih hf.2 hs.2 h.2).node hf.1 hs.1 h.1

theorem addsOne_of_formed (h : Formed Token.Sound g .plain t) : t.Filled → AddsOne g t := by
  induction h with
  | token u => exact fun _ => ⟨by simp [Tree.isStatement, Tree.rule?], .nil⟩
  | @node rule own ps content hown parts ih =>
    intro hfilled
    have hf : Formed Token.Sound g .plain (.node rule own ps) := .node content hown parts
    have hs := (Tree.filled_node.1 hfilled).2
    have rows : Adds g ps := .of parts hs fun p hp => ih p hp (Tree.filledAll_iff.1 hs p hp)
    refine ⟨fun hst source place s => ?_, rows⟩
    have hstatement : rule.isStatement = true := by simpa [Tree.isStatement, Tree.rule?] using hst
    rw [Tree.stations_listed rfl]
    refine Appends.line fun c hline => ?_
    have hnot : (decide (rule = .elifBlock) || decide (rule = .elseBlock) ||
        decide (rule = .catchBlock) || decide (rule = .finallyBlock)) = false := by
      cases rule <;> simp_all [Rule.isStatement]
    unfold ofStatement
    dsimp only
    rw [hline, hnot]
    refine Appends.record ((recordOf_gives hf (.inl hst)).also
      fun r hr => And.intro hr (recordOf_fresh hr)) fun r h => ?_
    obtain ⟨rfl, hrecord, fresh⟩ := h
    by_cases ho : ownsBlock rule = true
    · rw [if_pos ho, show (Tree.node rule own ps).parts = ps from rfl,
        owns_content content (.inl hstatement)]
      refine Appends.declared hline ?_ ((appends_node hf hs hline fresh (.intro hrecord) rows
        (rows.continuations rule source place) (fun rest hc hl => ahead_exitOf hl hc) ?_ ?_).mono ?_)
      · split
        · exact .inr ⟨_, rfl⟩
        · exact .inl rfl
      · cases rule <;> first | exact .inl rfl | exact .inr rfl
      · rintro rfl
        rfl
      · rintro _ ⟨r, body, rest, rfl, hl, describes, hp, inside, others⟩
        exact ⟨hl, .statement describes hp inside others⟩
    · rw [if_neg ho, show (Tree.node rule own ps).parts = ps from rfl,
        Tree.stationsAll_none _ fun p hp =>
          (silent_content content hstatement (by simpa using ho) p hp).1]
      refine Appends.declared hline ?_
        (appends_alone content hstatement (by simpa using ho) hline fresh (.intro hrecord))
      split
      · exact .inr ⟨_, rfl⟩
      · exact .inl rfl

/-- What comes of a plain story: a record for each coordinate, laid in each
other's blocks before they are linked, and its functions at some of them. -/
structure Scripted (cs : List Coord) (s : Script) : Prop where
  lines : s.lines = cs
  rows : ∃ rs, s.records = linked rs ∧ (∀ r ∈ rs, r.next = none) ∧ Laid ⟨none, none⟩ rs
  functions : ∀ f ∈ s.functions.entries, f.2 ∈ s.lines

/-- The records of a plain story whose coordinates increase, before they are linked. -/
theorem ofTree_rows {trees : List Tree} {cs : List Coord}
    (h : ∀ t ∈ trees, Formed Token.Sound g .plain t ∧ t.isStatement = true)
    (hfilled : Tree.FilledAll trees)
    (hcs : (Tree.of .start trees).outline = cs.map some) (hp : cs.Pairwise (· < ·)) :
    g.Gives (ofTree source (.of .start trees)) fun s => ∃ s' rs, Grows .empty s' rs ∧
      s = { s' with records := linked rs } ∧ rs.map (·.line) = cs ∧ Row ⟨none, none⟩ trees rs := by
  have rows : Adds g trees := .of (fun t ht => (h t ht).1) hfilled fun t ht =>
    addsOne_of_formed (h t ht).1 (Tree.filledAll_iff.1 hfilled t ht)
  have hall := rows.statements (fun t ht => (h t ht).2) source ⟨none, none⟩ .empty cs hcs hp
  refine hall.bind fun s ⟨rs, hg, hrs, hl⟩ => .ok ⟨s, rs, hg, ?_, hrs, hl⟩
  rw [show s.records = rs by simpa [empty] using hg.records]

/-- If the coordinates of a plain story increase, they are those of its script. -/
theorem ofTree_gives {trees : List Tree} {cs : List Coord}
    (h : ∀ t ∈ trees, Formed Token.Sound g .plain t ∧ t.isStatement = true)
    (hfilled : Tree.FilledAll trees)
    (hcs : (Tree.of .start trees).outline = cs.map some) (hp : cs.Pairwise (· < ·)) :
    g.Gives (ofTree source (.of .start trees)) (Scripted cs) := by
  refine (ofTree_rows h hfilled hcs hp).mono ?_
  rintro _ ⟨s, rs, hg, rfl, hrs, hrow⟩
  have hlines : Script.lines { s with records := linked rs } = cs := by
    rw [lines, linked_map_line, hrs]
  refine ⟨hlines, ⟨rs, rfl, hg.next, hrow.laid⟩, fun f hf => ?_⟩
  rw [hlines, ← hrs]
  rcases hg.functions f hf with hf | ⟨r, hr, hl⟩
  · simp [empty, NameMap.empty] at hf
  · exact List.mem_map.2 ⟨r, hr, hl⟩

end StoryLang.Script
