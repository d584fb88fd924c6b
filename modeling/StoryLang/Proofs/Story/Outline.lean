/-
The order of a script is the order of its story.

Checking keeps the outline of a plain tree, and the script has one record for
each coordinate of it. The coordinates increase from the first station of the
story to the last, so that none is taken twice and the order of the records is
the order of the document.

Whatever a story was compiled from, each coordinate that its document names is
that of a record. A block is entered at the record behind its owner, and left
for one behind all of the block, next to its owner or to one further out; but
a function is never left. A record is found by the text of its coordinate.
-/
import StoryLang.Proofs.Check.Statement
import StoryLang.Proofs.Coord
import StoryLang.Proofs.Script.Kept
import StoryLang.Proofs.Story.Plain

namespace StoryLang

variable {g : Grammar} {trees : List Tree} {lines : List Coord}

namespace IsPlain

theorem checked (h : IsPlain g trees lines) (f : Features) (registry : Option Registry)
    (root : Scope) :
    match Check.story f registry root (.of .start trees) with
    | .ok (t, analysis) => (∀ d ∈ analysis.diagnostics, d.code ≠ .internal) ∧
        ∃ trees', t = .of .start trees' ∧ IsPlain g trees' lines
    | .error _ => registry = some .failing := by
  have hs := @Check.story_retold g trees f registry root fun t ht => (h.formed t ht).1
  cases hok : Check.story f registry root (.of .start trees) with
  | error fault =>
    rw [hok] at hs
    exact hs
  | ok out =>
    rw [hok] at hs
    obtain ⟨hd, trees', htree, hr⟩ := hs
    have hall := fun t ht => (h.formed t ht).2
    refine ⟨hd, trees', htree, forall₂_each hr h.formed fun _ _ hr ht => ?_,
      Check.Retold.filledAll hr h.filled, ?_, h.order⟩
    · exact ⟨hr.formed, hr.retells.statement.trans ht.2⟩
    · exact (Tree.line?_of_heading (Check.Retold.stationsAll_listed hr hall)).trans h.outline

theorem scripted (h : IsPlain g trees lines) (source : String) (services : List String) :
    g.Gives (CompiledStory.ofTree source (.of .start trees) services) fun c =>
      Script.Scripted lines c.script ∧ c.entrypoint = CompiledStory.entrypointOf (.of .start trees) :=
  (Script.ofTree_gives h.formed h.filled h.outline h.order).bind fun _ hs => .ok ⟨hs, rfl⟩

theorem compiled (h : IsPlain g trees lines) (source : String) (services : List String) :
    g.Gives (CompiledStory.ofTree source (.of .start trees) services) fun c =>
      c.script.lines = lines :=
  (h.scripted source services).mono fun _ hs => hs.1.lines

/-- The script of a plain story is written from its statements, one record at each of its lines. -/
theorem written (h : IsPlain g trees lines) {source : String} {services : List String} {c : CompiledStory}
    (hc : CompiledStory.ofTree source (.of .start trees) services = .ok c) :
    Script.ofTree source (.of .start trees) = .ok c.script ∧ c.services = services ∧
      Script.Written none trees c.script.records ∧ c.script.records.map (·.line) = lines := by
  obtain ⟨script, hmade, hc⟩ := ok_of_bind hc
  obtain rfl := Except.ok.inj hc
  have hrows := @Script.ofTree_rows _ source _ _ h.formed h.filled h.outline h.order
  rw [hmade] at hrows
  obtain ⟨s, rs, hgrows, rfl, hlines, hrow⟩ := hrows
  exact ⟨hmade, rfl, hrow.written.linked hgrows.next, (Script.linked_map_line rs).trans hlines⟩

end IsPlain

namespace Story

/-- The stages that a compiled story went through. -/
theorem compile_stages {s : Story} {o : Options} {c : CompiledStory}
    (h : (s.compile o).compiled = some c) : ∃ f ts t t' analysis c',
      s.features o = .ok f ∧ (s.scanned (modeOf o f)).tokens = .ok ts ∧
      hoistedTreeOf (modeOf o f) ts = .ok t ∧
      Check.story f o.registry o.scope t = .ok (t', analysis) ∧
      CompiledStory.ofTree s.source t' analysis.services = .ok c' ∧
      c = { c' with tree := if o.debugTree then some t' else none } := by
  unfold compile at h
  dsimp only at h
  split at h
  · cases h
  · rename_i f hf
    split at h
    · cases h
    · rename_i ts hts
      split at h
      · cases h
      · rename_i t ht
        unfold check at h
        split at h
        · cases h
        · rename_i t' analysis hc
          unfold finish at h
          split at h
          · cases h
          · split at h
            · cases h
            · rename_i c' hc'
              obtain rfl := Option.some.inj h
              exact ⟨f, ts, t, t', analysis, c', hf, hts, ht, hc, hc', rfl⟩

/-- In document order the coordinates of a plain tree increase, and they are
those of the records of the script, in its order. -/
theorem outline_increasing {g : Grammar} (hg : g.Accepted) :
    (∀ (m : ScanMode) (text : List Char) (tokens : List Token) (t : Tree), m.grammar = g →
      (scan m text).tokens = .ok tokens → hoistedTreeOf m tokens = .ok t →
        ∃ lines : List Coord, t.outline = lines.map some ∧ lines.Pairwise (· < ·)) ∧
    ∀ (s : Story) (o : Options) (c : CompiledStory), o.grammarInUse = g →
      (s.compile o).compiled = some c → ∃ t, s.tree o true = .ok t ∧
        t.outline = c.script.records.map (some ·.line) ∧
        (c.script.records.map (·.line)).Pairwise (· < ·) := by
  constructor
  · rintro m text tokens t rfl hs ht
    have h := hoistedTreeOf_gives hg.keepsLayout hs
    rw [ht] at h
    obtain ⟨trees, lines, rfl, hp⟩ := h
    exact ⟨lines, hp.outline, hp.order⟩
  · rintro s o c rfl hc
    obtain ⟨f, ts, t, t', analysis, c', hf, hts, ht, hcheck, hscript, rfl⟩ := compile_stages hc
    have h := hoistedTreeOf_gives (m := modeOf o f) hg.keepsLayout hts
    rw [ht] at h
    obtain ⟨trees, lines, rfl, hp⟩ := h
    have h := hp.checked f o.registry o.scope
    rw [hcheck] at h
    obtain ⟨-, trees', rfl, hp'⟩ := h
    have h := hp'.compiled s.source analysis.services
    rw [hscript] at h
    have hlines : c'.script.records.map (·.line) = lines := h
    refine ⟨.of .start trees, by simp [tree, hf, hts, ht], ?_, hlines ▸ hp.order⟩
    rw [hp.outline, ← hlines, List.map_map]
    rfl

/-- Both parts for a story with a call in a list and a block. -/
theorem outline_increasing_block :
    Grammar.builtIn.Accepted ∧
    (∃ tokens t, (scan ⟨.builtIn, false⟩ "a = [(b c)]\nif true\n    d = 1\n".toList).tokens
        = .ok tokens ∧ hoistedTreeOf ⟨.builtIn, false⟩ tokens = .ok t ∧
      ∃ lines : List Coord, t.outline = lines.map some ∧ lines.Pairwise (· < ·)) ∧
    ∃ c, ((unnamed "a = [(b c)]\nif true\n    d = 1\n").compile .standard).compiled = some c ∧
      c.script.records.map (·.line) = [⟨0, 1⟩, ⟨1, 0⟩, ⟨2, 0⟩, ⟨3, 0⟩] ∧
      ∃ t, (unnamed "a = [(b c)]\nif true\n    d = 1\n").tree .standard true = .ok t ∧
        t.outline = c.script.records.map (some ·.line) ∧
        (c.script.records.map (·.line)).Pairwise (· < ·) := by
  have hs : ((scan ⟨.builtIn, false⟩
      "a = [(b c)]\nif true\n    d = 1\n".toList).tokens.toOption.bind fun tokens =>
        (hoistedTreeOf ⟨.builtIn, false⟩ tokens).toOption).isSome = true := by
    decide +kernel
  obtain ⟨t, hs⟩ := Option.isSome_iff_exists.1 hs
  obtain ⟨tokens, hts, ht⟩ := Option.bind_eq_some_iff.1 hs
  rw [toOption_eq_some] at hts ht
  have hc : (((unnamed "a = [(b c)]\nif true\n    d = 1\n").compile .standard).compiled.map
      (·.script.records.map (·.line))) = some [⟨0, 1⟩, ⟨1, 0⟩, ⟨2, 0⟩, ⟨3, 0⟩] := by
    decide +kernel
  obtain ⟨c, hc, hlines⟩ := Option.map_eq_some_iff.1 hc
  exact ⟨.builtIn, ⟨tokens, t, hts, ht, (outline_increasing .builtIn).1 _ _ tokens t rfl hts ht⟩,
    c, hc, hlines, (outline_increasing .builtIn).2 _ .standard c rfl hc⟩

end Story

end StoryLang

/-! ## Where the records lead -/

namespace StoryLang

namespace Script

/-- A record owns a block if its method takes one, or if a record is in it. -/
def OwnsBlock (s : Script) (r : Record) : Prop :=
  r.method.hasBlock = true ∨ ∃ q ∈ s.records, q.parent = some r.line

/-- The coordinate comes after the record and all that is under it, and is that of
a record in the block that this one, or one that it is under, is in. -/
structure Exit (s : Script) (r : Record) (line : Coord) : Prop where
  later : r.line < line
  behind : ∀ q, Under s.records r q → q.line < line
  sibling : ∃ q ∈ s.records, q.line = line ∧ ∃ a ∈ s.records, (a = r ∨ Under s.records a r) ∧
    a.line < line ∧ q.parent = a.parent

/-- How the records of a script lead to each other. -/
structure Threaded (s : Script) : Prop where
  functions : ∀ f ∈ s.functions.entries, f.2 ∈ s.lines
  keys : ∀ r ∈ s.records, ∀ dest ∈ [r.enter, r.exit, r.parent, r.next],
    ∀ line, dest = some line → line ∈ s.lines
  next : ∀ r ∈ s.records, ∀ line, r.next = some line ↔
    line ∈ s.lines ∧ r.line < line ∧ ∀ k ∈ s.lines, r.line < k → line = k ∨ line < k
  enter : ∀ r ∈ s.records, s.OwnsBlock r →
    ∃ q ∈ s.records, q.parent = some r.line ∧ r.enter = some q.line ∧ r.next = some q.line
  noEnter : ∀ r ∈ s.records, ¬ s.OwnsBlock r → r.enter = none
  exit : ∀ r ∈ s.records, ∀ line, r.exit = some line → s.Exit r line
  /-- What is in a function goes on inside of it. -/
  function : ∀ f ∈ s.records, f.method = .function → ∀ r, Under s.records f r →
    ∀ line, r.exit = some line → ∃ q, Under s.records f q ∧ q.line = line

/-- In a list that increases, what comes behind an entry is the least of what is greater. -/
theorem head?_iff_least {front tail : List Coord} {c d : Coord}
    (h : (front ++ c :: tail).Pairwise (· < ·)) : tail.head? = some d ↔
      d ∈ front ++ c :: tail ∧ c < d ∧ ∀ k ∈ front ++ c :: tail, c < k → d = k ∨ d < k := by
  obtain ⟨-, hc, hfront⟩ := List.pairwise_append.1 h
  obtain ⟨htail, hp⟩ := List.pairwise_cons.1 hc
  -- what is greater comes behind
  have hmem : ∀ k ∈ front ++ c :: tail, c < k → k ∈ tail := by
    intro k hk hlt
    simp only [List.mem_append, List.mem_cons] at hk
    rcases hk with hk | rfl | hk
    · exact absurd (Coord.lt_trans hlt (hfront k hk c (by simp))) (Coord.lt_irrefl c)
    · exact absurd hlt (Coord.lt_irrefl k)
    · exact hk
  cases tail with
  | nil =>
    simp only [List.head?_nil, reduceCtorEq, false_iff, not_and]
    exact fun hd hlt => absurd (hmem d hd hlt) (by simp)
  | cons e tail =>
    obtain ⟨he, -⟩ := List.pairwise_cons.1 hp
    have hleast : ∀ k ∈ e :: tail, e = k ∨ e < k := List.forall_mem_cons.2
      ⟨.inl rfl, fun k hk => .inr (he k hk)⟩
    simp only [List.head?_cons, Option.some.injEq]
    refine ⟨?_, fun ⟨hd, hlt, hall⟩ => ?_⟩
    · rintro rfl
      exact ⟨by simp, htail e (by simp), fun k hk hlt => hleast k (hmem k hk hlt)⟩
    · rcases hall e (by simp) (htail e (by simp)) with h | h
      · exact h.symm
      · rcases hleast d (hmem d hd hlt) with h' | h'
        · exact h'
        · exact absurd (Coord.lt_trans h h') (Coord.lt_irrefl d)

variable {s : Script} {cs : List Coord}

theorem Scripted.laid (h : Scripted cs s) : Laid ⟨none, none⟩ s.records := by
  obtain ⟨rs, hrs, hn, hl⟩ := h.rows
  exact hrs ▸ hl.linked hn

theorem mem_lines {r : Record} (h : r ∈ s.records) : r.line ∈ s.lines := List.mem_map_of_mem h

/-- A record of a script, with what is around it. -/
theorem Scripted.around (h : Scripted cs s) (hp : cs.Pairwise (· < ·)) {r : Record} (hr : r ∈ s.records) :
    ∃ front body rest, Around ⟨none, none⟩ s.records r front body rest ∧
      r.next = (body ++ rest).head?.map (·.line) := by
  have ho : Ordered ⟨none, none⟩ s.records := by
    rw [← h.lines] at hp
    exact hp
  obtain ⟨front, body, rest, ha⟩ := h.laid.around ho r hr
  obtain ⟨rs, hrs, hn, -⟩ := h.rows
  exact ⟨front, body, rest, ha, next_linked hn (hrs ▸ ha.split)⟩

section Around

variable {front body rest : List Record} {r q : Record} {c : Coord}

theorem Around.mem_body (h : Around ⟨none, none⟩ s.records r front body rest) (hq : q ∈ body) :
    q ∈ s.records := by
  rw [h.split]
  simp [hq]

theorem Around.mem_rest (h : Around ⟨none, none⟩ s.records r front body rest) (hq : q ∈ rest) :
    q ∈ s.records := by
  rw [h.split]
  simp [hq]

theorem Around.ownsBlock_iff (h : Around ⟨none, none⟩ s.records r front body rest) :
    s.OwnsBlock r ↔ body ≠ [] := by
  refine ⟨?_, fun hne => .inr ?_⟩
  · rintro (hm | ⟨q, hq, hqp⟩)
    · exact h.owns hm
    · exact List.ne_nil_of_mem (h.owned q hq r (by simp) hqp)
  · obtain ⟨q, body, rfl⟩ := List.exists_cons_of_ne_nil hne
    exact ⟨q, h.mem_body (by simp), h.first q rfl⟩

/-- A record exits to one behind its block. -/
theorem Around.exit_of (h : Around ⟨none, none⟩ s.records r front body rest)
    (hp : s.lines.Pairwise (· < ·)) (hc : r.exit = some c) : s.Exit r c := by
  rcases h.exit c hc with hn | ⟨q, hq, rfl, a, ha, hqp⟩
  · cases hn
  rw [lines, h.split, List.map_append, List.map_cons, List.map_append] at hp
  obtain ⟨-, hp, hfront⟩ := List.pairwise_append.1 hp
  obtain ⟨hr, hp⟩ := List.pairwise_cons.1 hp
  have hlater : r.line < q.line := hr _ (by simp [List.mem_map_of_mem hq])
  refine ⟨hlater, fun p hu => ?_, q, h.mem_rest hq, rfl, a, ?_, ha.imp_right And.right, ?_, hqp⟩
  · exact (List.pairwise_append.1 hp).2.2 _ (List.mem_map_of_mem (h.under_mem hu)) _
      (List.mem_map_of_mem hq)
  · rw [h.split]
    rcases ha with rfl | ⟨ha, -⟩
    · simp
    · simp [ha]
  · rcases ha with rfl | ⟨ha, -⟩
    · exact hlater
    · exact hfront _ (List.mem_map_of_mem ha) _ (by simp [List.mem_map_of_mem hq])

end Around

theorem Scripted.threaded (h : Scripted cs s) (hp : cs.Pairwise (· < ·)) : s.Threaded := by
  have hlines : s.lines.Pairwise (· < ·) := by rwa [h.lines]
  have hexit : ∀ r ∈ s.records, ∀ line, r.exit = some line → s.Exit r line := fun r hr line hc =>
    have ⟨_, _, _, ha, _⟩ := h.around hp hr
    ha.exit_of hlines hc
  have hnext : ∀ r ∈ s.records, ∀ line, r.next = some line ↔
      line ∈ s.lines ∧ r.line < line ∧ ∀ k ∈ s.lines, r.line < k → line = k ∨ line < k := by
    intro r hr line
    obtain ⟨front, body, rest, ha, hn⟩ := h.around hp hr
    have hsplit : s.lines = front.map (·.line) ++ r.line :: (body ++ rest).map (·.line) := by
      rw [← List.map_cons, ← List.map_append, ← ha.split, Script.lines]
    rw [hsplit] at hlines ⊢
    rw [hn, ← List.head?_map, head?_iff_least hlines]
  have henter : ∀ r ∈ s.records, s.OwnsBlock r →
      ∃ q ∈ s.records, q.parent = some r.line ∧ r.enter = some q.line ∧ r.next = some q.line := by
    intro r hr hb
    obtain ⟨front, body, rest, ha, hn⟩ := h.around hp hr
    obtain ⟨q, body, rfl⟩ := List.exists_cons_of_ne_nil (ha.ownsBlock_iff.1 hb)
    exact ⟨q, ha.mem_body (by simp), ha.first q rfl, ha.enter, hn⟩
  have hnoEnter : ∀ r ∈ s.records, ¬ s.OwnsBlock r → r.enter = none := by
    intro r hr hb
    obtain ⟨front, body, rest, ha, -⟩ := h.around hp hr
    rw [ha.enter, not_not.1 (ha.ownsBlock_iff.not.1 hb)]
    rfl
  refine ⟨h.functions, fun r hr dest hd line hline => ?_, hnext, henter, hnoEnter, hexit, ?_⟩
  · simp only [List.mem_cons, List.not_mem_nil, or_false] at hd
    rcases hd with rfl | rfl | rfl | rfl
    · by_cases hb : s.OwnsBlock r
      · obtain ⟨q, hq, -, he, -⟩ := henter r hr hb
        exact Option.some.inj (he.symm.trans hline) ▸ mem_lines hq
      · cases (hnoEnter r hr hb).symm.trans hline
    · obtain ⟨q, hq, rfl, -⟩ := (hexit r hr line hline).sibling
      exact mem_lines hq
    · rcases h.laid.parents r hr with hn | ⟨p, hp, hpar⟩
      · cases hn.symm.trans hline
      · exact Option.some.inj (hpar.symm.trans hline) ▸ mem_lines hp
    · exact ((hnext r hr line).1 hline).1
  · intro f hf hm r hu line hc
    obtain ⟨front, body, rest, ha, -⟩ := h.around hp hf
    obtain ⟨q, hq, hl⟩ := ha.function hm r (ha.under_mem hu) line hc
    exact ⟨q, ha.under q hq, hl⟩

end Script

/-- A story starts at one of its coordinates. -/
theorem IsPlain.entrypoint_mem {g : Grammar} {trees : List Tree} {lines : List Coord}
    (h : IsPlain g trees lines) {line : Coord}
    (hl : CompiledStory.entrypointOf (.of .start trees) = some line) : line ∈ lines := by
  obtain ⟨t, ht, hl⟩ := List.exists_of_findSome?_eq_some hl
  have hm : t ∈ trees := (List.mem_filter.1 (List.mem_filter.1 ht).1).1
  have hstation := Tree.mem_stationsAll hm (Tree.isNode_of_isStatement (h.formed t hm).2)
  have hline : some line ∈ (Tree.of .start trees).outline := hl ▸ List.mem_map_of_mem hstation
  rw [h.outline] at hline
  simpa using hline

namespace Story

/-- Wherever the records of a compiled story lead, there is a record, and where it should be. -/
theorem compile_threaded {s : Story} {o : Options} {c : CompiledStory} (hg : o.grammarInUse.Accepted)
    (h : (s.compile o).compiled = some c) :
    (∀ line, c.entrypoint = some line → line ∈ c.script.lines) ∧ c.script.Threaded := by
  obtain ⟨f, ts, t, t', analysis, c', hf, hts, ht, hcheck, hscript, rfl⟩ := compile_stages h
  have h := hoistedTreeOf_gives (m := modeOf o f) hg.keepsLayout hts
  rw [ht] at h
  obtain ⟨trees, lines, rfl, hp⟩ := h
  have h := hp.checked f o.registry o.scope
  rw [hcheck] at h
  obtain ⟨-, trees', rfl, hp'⟩ := h
  have h := hp'.scripted s.source analysis.services
  rw [hscript] at h
  obtain ⟨hs, hstart⟩ := h
  dsimp only
  rw [hstart]
  refine ⟨fun line hline => ?_, hs.threaded hp.order⟩
  rw [hs.lines]
  exact hp'.entrypoint_mem hline

/-- A loop with branches in a function, and a call of it that is taken out in a block. -/
theorem compile_threaded_branches : Grammar.builtIn.Accepted ∧ ∃ c,
    ((unnamed ("function f\n  while true\n    if true\n      a = 1\n    else\n      a = 2\n" ++
      "if true\n  b = [f()]\nc = 3\n")).compile .standard).compiled = some c ∧
    c.script.records.filterMap (fun r => r.exit.map fun line => (r.line.base, line.base)) =
      [(3, 5), (7, 9)] ∧
    (∀ line, c.entrypoint = some line → line ∈ c.script.lines) ∧ c.script.Threaded := by
  have hc : ((unnamed ("function f\n  while true\n    if true\n      a = 1\n    else\n      a = 2\n" ++
      "if true\n  b = [f()]\nc = 3\n")).compile .standard).compiled.map (fun c =>
      c.script.records.filterMap fun r => r.exit.map fun line => (r.line.base, line.base)) =
      some [(3, 5), (7, 9)] := by
    decide +kernel
  obtain ⟨c, hc, hexits⟩ := Option.map_eq_some_iff.1 hc
  exact ⟨.builtIn, c, hc, hexits, @compile_threaded _ .standard _ .builtIn hc⟩

end Story

/-! ## Records by their texts -/

theorem CompiledStory.record?_line {c : CompiledStory} {r : Record} (h : c.script.Increasing)
    (hr : r ∈ c.script.records) (hfits : r.line.Fits) : c.record? r.line.text = some r := by
  rw [record?, Coord.ofText?_of_fits hfits, Option.bind_some, Script.get?_line h hr]

/-- Whatever the tree is like, the coordinates of its records increase. -/
theorem CompiledStory.increasing {source : String} {t : Tree} {services : List String} {c : CompiledStory}
    (h : ofTree source t services = .ok c) : c.script.Increasing := by
  obtain ⟨script, hscript, h⟩ := ok_of_bind h
  obtain rfl := Except.ok.inj h
  exact Script.ofTree_increasing hscript

namespace Story

/-- Coordinates are as good as their texts. One that fits reads back from its
text, and no two have the same, so every record is found by the text of its
coordinate, whether its story or only its tree was compiled. A text that names a
coordinate can be put in the place of the one that it is written as, and none
names the line of a story by a running number of zero. -/
theorem coordinates_by_text :
    (∀ c : Coord, c.Fits → Coord.ofText? c.text = some c) ∧
    (∀ c d : Coord, c.text = d.text → c = d) ∧
    (∀ source t services c, CompiledStory.ofTree source t services = .ok c →
      ∀ r ∈ c.script.records, r.line.Fits → c.record? r.line.text = some r) ∧
    (∀ (s : Story) o c, (s.compile o).compiled = some c →
      ∀ r ∈ c.script.records, r.line.Fits → c.record? r.line.text = some r) ∧
    (∀ text c, Coord.ofText? text = some c → Coord.ofText? c.text = some c) ∧
    ∀ base seq, Text.natural? Text.maxUnsigned32 seq = some 0 →
      Coord.ofText? (String.ofList (base ++ '.' :: seq)) = none := by
  refine ⟨fun c => Coord.ofText?_of_fits, fun c d => Coord.text_inj, fun source t services c h r => ?_,
    fun s o c h r => ?_, fun text c h => Coord.ofText?_of_fits (Coord.fits_of_ofText? h),
    fun base seq => Coord.ofText?_zero base⟩
  · exact CompiledStory.record?_line (CompiledStory.increasing h)
  · obtain ⟨f, ts, t, t', analysis, c', -, -, -, -, hscript, rfl⟩ := compile_stages h
    have hincreasing : c'.script.Increasing := CompiledStory.increasing hscript
    exact CompiledStory.record?_line hincreasing

/-- A call is taken out of a list, and so its record has a running number. -/
theorem coordinates_by_text_call : ∃ c,
    ((unnamed "function f\n  a = 1\nb = [f()]\n").compile .standard).compiled = some c ∧
    c.script.lines.map Coord.text = ["1", "2", "2.1", "3"] ∧
    ∀ r ∈ c.script.records, c.record? r.line.text = some r := by
  have hc : ((unnamed "function f\n  a = 1\nb = [f()]\n").compile .standard).compiled.map
      (·.script.lines) = some [⟨1, 0⟩, ⟨2, 0⟩, ⟨2, 1⟩, ⟨3, 0⟩] := by
    decide +kernel
  obtain ⟨c, hc, hlines⟩ := Option.map_eq_some_iff.1 hc
  have hfits : ∀ line ∈ c.script.lines, line.Fits := by
    rw [hlines]
    decide
  refine ⟨c, hc, ?_, fun r hr => ?_⟩
  · rw [hlines]
    decide
  · exact coordinates_by_text.2.2.2.1 _ _ c hc r hr (hfits _ (List.mem_map_of_mem hr))

/-- A sign and zeros in front are read, but never written. -/
example : (Coord.ofText? "+03.0002").map Coord.text = some "3.2" := by decide +kernel

end Story

end StoryLang
