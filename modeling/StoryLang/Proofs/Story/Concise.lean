/-
Concise documents lose nothing.

Every token of a plain tree that is no string has a text, so the script that is
made of it names nothing empty: no name in a value, no service, no command, no
output. A record that is not taken out of another one cites the line it is at,
without the blanks around it, and a token starts there, so something is left of
the line. What a concise document leaves out is thus only ever what is missed
where it stood, and the full document can be told from it.
-/
import StoryLang.Proofs.Check.Steps
import StoryLang.Proofs.Script.Kept
import StoryLang.Proofs.Script.Named
import StoryLang.Proofs.Story.Outline
import StoryLang.Proofs.Story.Sourced
import StoryLang.Proofs.Text.Lines
import StoryLang.Proofs.Token.Transcript

namespace StoryLang

namespace Text

variable {c d : Char} {parts : List (List Char)} {i : Nat}

theorem mem_consFirst (h : ∃ line, parts[i]? = some line ∧ c ∈ line) :
    ∃ line, (consFirst d parts)[i]? = some line ∧ c ∈ line := by
  obtain ⟨line, hline, hmem⟩ := h
  cases parts with
  | nil => cases hline
  | cons part parts =>
    cases i with
    | zero =>
      obtain rfl := Option.some.inj hline
      exact ⟨d :: part, rfl, List.mem_cons_of_mem _ hmem⟩
    | succ i => exact ⟨line, hline, hmem⟩

/-- The line of a text where a character of it stands. -/
theorem mem_splitOn (hc : c ≠ '\n') (rest front : List Char) (p : Position) :
    ∃ line, (splitOn '\n' (front ++ c :: rest))[(p.behind front).line - p.line]? = some line ∧
      c ∈ line := by
  induction front generalizing p with
  | nil =>
    obtain ⟨part, parts, hp⟩ := List.exists_cons_of_ne_nil (splitOn_ne_nil '\n' rest)
    refine ⟨c :: part, ?_, by simp⟩
    simp [splitOn, hc, hp, consFirst, Position.behind]
  | cons d front ih =>
    have hle := Position.line_le ((p.after d).le_behind front)
    rw [show p.behind (d :: front) = (p.after d).behind front from rfl, List.cons_append, splitOn]
    by_cases hd : d = '\n'
    · subst hd
      have hlater : (p.after '\n').line = p.line + 1 := rfl
      rw [if_pos rfl, show ((p.after '\n').behind front).line - p.line =
        ((p.after '\n').behind front).line - (p.after '\n').line + 1 by omega]
      exact ih (p.after '\n')
    · have hsame : (p.after d).line = p.line := by simp [Position.after, hd]
      rw [if_neg hd, ← hsame]
      exact mem_consFirst (ih (p.after d))

end Text

/-- What starts where a token stands can be seen. -/
theorem Token.StandsIn.starts {u : Token} {text : List Char} (h : u.StandsIn .first text) (hv : u.Valid)
    (hk : u.kind.isLayout = false) : ∃ front c rest, text = front ++ c :: rest ∧
      u.position = Position.first.behind front ∧ Text.isBlank c = false := by
  obtain ⟨front, written, rest, rfl, hplace, hw⟩ := h
  have hstart : ∃ c more, written = c :: more ∧ Text.isBlank c = false := by
    unfold WrittenAs at hw
    split at hw
    · obtain ⟨quote, hq, rfl⟩ := hw
      exact ⟨quote, _, rfl, by rcases hq with rfl | rfl <;> decide⟩
    · rename_i hstring
      obtain ⟨c, hc, hblank⟩ := hv.visible hk hstring
      obtain ⟨more, hmore⟩ := List.head?_eq_some_iff.1 hc
      exact ⟨c, more, hw.trans hmore, hblank⟩
  obtain ⟨c, more, rfl, hblank⟩ := hstart
  exact ⟨front, c, more ++ rest, by simp, hplace, hblank⟩

/-- The line of a story where a token stands has something to see. -/
theorem scan_lineOf? {m : ScanMode} {source : String} {tokens : List Token}
    (h : (scan m source.toList).tokens = .ok tokens) {u : Token} (hu : u ∈ tokens)
    (hk : u.kind.isLayout = false) :
    ∃ line, Diagnostic.lineOf? source u.line = some line ∧ Text.trim line.toList ≠ [] := by
  have hvalid := (scan_ok h).valid u hu
  have hstands := (scan_transcript h).each u (List.mem_filter.2 ⟨hu, by simp [Token.isCode, hk]⟩)
  obtain ⟨front, c, rest, htext, hplace, hblank⟩ := hstands.starts hvalid hk
  have hnewline : c ≠ '\n' := by
    rintro rfl
    exact absurd hblank (by decide)
  have hline := Text.mem_splitOn hnewline rest front .first
  rw [← htext, ← hplace] at hline
  have hmark : ∃ line, (Text.splitOn '\n' source.toList)[u.line - 1]? = some line ∧ c ∈ line := by
    revert hline
    cases source.toList with
    | nil => exact id
    | cons d cs =>
      rw [Text.dropMark]
      split
      · rename_i hd
        have hne : Text.byteOrderMark ≠ '\n' := by decide
        rw [show Text.splitOn '\n' (d :: cs) = Text.consFirst d (Text.splitOn '\n' cs) from
          if_neg (by rw [hd]; exact hne)]
        exact Text.mem_consFirst
      · exact id
  obtain ⟨line, hline, hmem⟩ := hmark
  obtain ⟨n, hn⟩ : ∃ n, u.line = n + 1 := ⟨u.line - 1, by have := hvalid.place.1; omega⟩
  rw [hn, Nat.add_sub_cancel] at hline
  refine ⟨String.ofList (Text.dropReturn line), by simp [hn, Diagnostic.lineOf?, hline], ?_⟩
  rw [String.toList_ofList, Text.trim_dropReturn]
  exact Text.trim_ne hmem hblank

namespace Script

variable {source : String} {t : Tree}

/-- Every record cites its own line. -/
def Cites (source : String) (s : Script) : Prop := ∀ r ∈ s.records, r.source = sourceOf source r.line

theorem kept_cites (source : String) : Kept source (Cites source) where
  declare _ _ _ h := h
  add _ _ _ h hadd q hq := by
    rcases mem_insertRecord (records_add hadd) hq with rfl | hq
    · rfl
    · exact h q hq

theorem mem_linked {rs : List Record} {r : Record} (h : r ∈ linked rs) :
    ∃ q ∈ rs, ∃ next, r = { q with next } := by
  fun_induction linked rs with
  | case1 => cases h
  | case2 q =>
    obtain rfl := List.mem_singleton.1 h
    exact ⟨r, by simp, r.next, rfl⟩
  | case3 q q' rest ih =>
    rcases List.mem_cons.1 h with rfl | h
    · exact ⟨q, by simp, _, rfl⟩
    · obtain ⟨p, hp, hnext⟩ := ih h
      exact ⟨p, List.mem_cons_of_mem _ hp, hnext⟩

/-- The records of a story cite their lines. -/
theorem ofTree_cites {s : Script} (h : ofTree source t = .ok s) : Cites source s := by
  obtain ⟨s', hs, rfl⟩ := ofTree_kept (kept_cites source) (by simp [Cites, empty]) h
  intro r hr
  obtain ⟨q, hq, next, rfl⟩ := mem_linked hr
  exact hs q hq

end Script

namespace Hoist

/-- A token that is no string has a text. -/
def Spoken (u : Token) : Prop := u.kind ≠ .string → u.literal ≠ ""

theorem spelt_token {u : Token} (h : Spoken u) : (Tree.token u).Spelt := by
  intro v hv
  obtain rfl := List.mem_singleton.1 hv
  exact h

theorem spelt_of_parts {rule : Rule} {line : Option Coord} {ps : List Tree} (h : ∀ p ∈ ps, p.Spelt) :
    (Tree.node rule line ps).Spelt := by
  intro u hu
  rw [Tree.yield] at hu
  obtain ⟨p, hp, hu⟩ := Tree.of_mem_yieldAll hu
  exact h p hp u hu

theorem spelt_path (c : Coord) (place : Position) : (c.path place).Spelt := by
  refine spelt_of_parts (List.forall_mem_singleton.2 (spelt_token fun _ => ?_))
  simp [Coord.variable]

theorem spelt_sum {place : Position} {first : Tree} {rest : List Tree} (hf : first.Spelt)
    (hr : ∀ t ∈ rest, t.Spelt) : (sum place first rest).Spelt := by
  induction rest generalizing first with
  | nil => exact hf
  | cons next rest ih =>
    simp only [List.forall_mem_cons] at hr
    refine ih (spelt_of_parts ?_) hr.2
    simp only [List.forall_mem_cons]
    exact ⟨hf, spelt_token fun _ => by simp, hr.1, by simp⟩

theorem spelt_castToString {v : Tree} (h : v.Spelt) (place : Position) : (castToString v place).Spelt := by
  refine spelt_of_parts ?_
  simp only [List.forall_mem_cons]
  refine ⟨h, spelt_token fun _ => by simp, spelt_of_parts ?_, by simp⟩
  exact List.forall_mem_singleton.2 (spelt_token fun _ => by simp)

theorem spelt_resolved (t : Token) (ps : List Piece) {vs : List Tree} (h : ∀ v ∈ vs, v.Spelt) :
    ∀ v ∈ resolved t ps vs, v.Spelt := by
  fun_induction resolved t ps vs with
  | case1 raw ps vs ih =>
    have hraw := spelt_token (u := ⟨.string, String.ofList raw, t.position⟩) fun hk => absurd rfl hk
    exact List.forall_mem_cons.2 ⟨spelt_of_parts (List.forall_mem_singleton.2 hraw), ih h⟩
  | case2 source offset ps v vs ih =>
    obtain ⟨hv, hvs⟩ := List.forall_mem_cons.1 h
    exact List.forall_mem_cons.2 ⟨spelt_castToString hv _, ih hvs⟩
  | case3 => simp

/-- What making a tree plain puts there has a text, too. -/
theorem Sourced.spelt {t : Tree} (h : Sourced Spoken t) : t.Spelt := by
  induction h with
  | token written => exact spelt_token written
  | node _ ih => exact spelt_of_parts ih
  | reading => exact spelt_path _ _
  | taken _ ih =>
    refine spelt_of_parts ?_
    simp only [List.forall_mem_cons]
    exact ⟨spelt_path _ _, spelt_token fun _ => by simp, ih, by simp⟩
  | @interpolated u _ vs _ written quoted code _ pieces ih =>
    have hall := spelt_resolved u (Pieces.split u.literal.toList) ih
    rw [pieces, List.forall_mem_cons] at hall
    exact spelt_sum hall.1 hall.2

end Hoist

namespace Story

variable {m : ScanMode} {text : List Char} {tokens : List Token} {s s' : Story} {o o' : Options}
  {c c' : CompiledStory}

theorem spoken_scanned (hs : (scan m text).tokens = .ok tokens) :
    ∀ u ∈ tokens.filter Token.isCode, Hoist.Spoken u := by
  intro u hu hk hempty
  obtain ⟨hu, hcode⟩ := List.mem_filter.1 hu
  obtain ⟨c, hc, -⟩ := ((scan_ok hs).valid u hu).visible (by simpa [Token.isCode] using hcode) hk
  simp [hempty] at hc

theorem hoisted_spelt (hg : m.grammar.KeepsLayout) (hs : (scan m text).tokens = .ok tokens) {t : Tree}
    (ht : hoistedTreeOf m tokens = .ok t) : t.Spelt := by
  refine (hoisted_sourced hg ?_ (spoken_scanned hs) ht).spelt
  rintro t source offset v - hk hpiece hread u hu
  obtain ⟨tokens, hscan, hfrom⟩ := Hoist.readCode_scanned hg hread
  obtain ⟨u, hmem, rfl⟩ := hfrom u hu
  exact spoken_scanned hscan u hmem

/-- A coordinate that was not made up is that of a line with a token. -/
theorem hoisted_lines (hg : m.grammar.KeepsLayout) (hs : (scan m text).tokens = .ok tokens) {t : Tree}
    (ht : hoistedTreeOf m tokens = .ok t) {line : Coord} (hn : line.isSynthetic = false)
    (hl : some line ∈ t.outline) : ∃ u ∈ tokens, u.kind.isLayout = false ∧ u.line = line.base := by
  obtain ⟨read, hread, ht⟩ := ok_of_bind ht
  have hgives := treeOf_gives hg hs
  rw [hread] at hgives
  obtain ⟨used, trees, rfl, hr, hused⟩ := hgives
  obtain ⟨cs, left, i, rfl, hruns, hh⟩ := Hoist.story_does_any hg
    (fun t ht => ⟨Tree.isNode_of_isStatement (hr.formed t ht).2, (hr.formed t ht).1⟩) ht
  have hraised : Hoist.Raised (Tree.stationsAll true trees) (Tree.stationsAll true left) :=
    hh.raised hg hr.formed hruns.increasing hruns.synthetic
  obtain ⟨ls, hls, -, hmem⟩ := hr.lines hg
  have hown := hraised.own hn hl
  rw [hls] at hown
  obtain ⟨l, hlmem, hline⟩ := List.mem_map.1 hown
  obtain rfl := Option.some.inj hline
  obtain ⟨u, hu, hk, rfl⟩ := hmem l hlmem
  exact ⟨u, hused hu, hk, rfl⟩

/-- In the document of a compiled story everything that is there says something. -/
theorem compile_full (hg : o.grammarInUse.Accepted) (hd : o.debugTree = false)
    (hc : (s.compile o).compiled = some c) : c.Full := by
  obtain ⟨f, ts, t, t', analysis, c', hf, hts, ht, hcheck, hscript, rfl⟩ := compile_stages hc
  have hkeeps := hg.keepsLayout
  have hspelt := hoisted_spelt (m := modeOf o f) hkeeps hts ht
  have hplain := hoistedTreeOf_gives (m := modeOf o f) hkeeps hts
  rw [ht] at hplain
  obtain ⟨trees, lines, rfl, hplain⟩ := hplain
  have hlegible : ∀ t ∈ trees, Value.Legible Token.Sound o.grammarInUse t := fun t ht =>
    ⟨(hplain.formed t ht).1, hspelt.part ht⟩
  -- checking changes no token
  have hchecked := hplain.checked f o.registry o.scope
  have hretold := @Check.story_retold _ trees f o.registry o.scope fun t ht =>
    (hplain.formed t ht).1
  rw [hcheck] at hchecked hretold
  obtain ⟨-, trees', rfl, hplain'⟩ := hchecked
  obtain ⟨-, trees'', htrees, hretold⟩ := hretold
  obtain rfl := (Tree.node.inj htrees).2.2
  have hspelt' : (Tree.of .start trees').Spelt := by
    intro u hu
    refine hspelt u ?_
    rw [Tree.of, Tree.yield] at hu ⊢
    rwa [Check.Retold.yieldAll hretold] at hu
  have hlegible' : ∀ t ∈ trees', Value.Legible Token.Sound o.grammarInUse t := fun t ht =>
    ⟨(hplain'.formed t ht).1, hspelt'.part ht⟩
  have hservices := Check.story_services (N := (· ≠ ""))
    ⟨fun t ht p hp => ht.part hp, fun t ht _ path hp hpath u hu hempty =>
      Script.firstToken_ne (ht.part hp) hpath (by rw [hu, Option.map_some, hempty])⟩ hlegible hcheck
  obtain ⟨hmade, hnamed, hwritten, hlines⟩ := hplain'.written hscript
  refine ⟨fun r hr => hwritten.full hlegible' hr ?_, fun h => hservices _ (hnamed ▸ h) rfl, by simp [hd]⟩
  -- a token stands on the line that a record cites
  rw [Script.ofTree_cites hmade r hr]
  unfold Script.sourceOf
  split
  · simp
  · rename_i hn
    have hline : r.line ∈ lines := hlines ▸ List.mem_map_of_mem hr
    obtain ⟨u, hu, hk, hplace⟩ := hoisted_lines (m := modeOf o f) hkeeps hts ht
      (Bool.eq_false_iff.2 hn) (by rw [hplain.outline]; exact List.mem_map_of_mem hline)
    obtain ⟨line, hline, htrim⟩ := scan_lineOf? hts hu hk
    rw [← hplace, hline, Option.map_some, Ne, Option.some.injEq, String.ofList_eq_empty_iff]
    exact htrim

/-- Stories that are compiled without showing their trees and have the same concise document have
the same full document. -/
theorem compile_concise (hg : o.grammarInUse.Accepted) (hg' : o'.grammarInUse.Accepted)
    (hd : o.debugTree = false) (hd' : o'.debugTree = false)
    (hc : (s.compile o).compiled = some c) (hc' : (s'.compile o').compiled = some c')
    (h : c.document true = c'.document true) : c.document false = c'.document false :=
  (compile_full hg hd hc).document_eq (compile_full hg' hd' hc') h

/-- An empty text is left out of the value of an assignment, and a comment is not in a document. -/
theorem compile_concise_comment : Grammar.builtIn.Accepted ∧ Options.standard.debugTree = false ∧
    ∃ c c', ((unnamed "a = \"\"\n").compile .standard).compiled = some c ∧
      ((unnamed "a = \"\"\n# nothing\n").compile .standard).compiled = some c' ∧
      c.document true = c'.document true ∧ c.document true ≠ c.document false ∧
      c.document false = c'.document false := by
  have hdocuments : ((unnamed "a = \"\"\n").compile .standard).compiled.bind (fun c =>
      ((unnamed "a = \"\"\n# nothing\n").compile .standard).compiled.map fun c' =>
        (decide (c.document true = c'.document true), decide (c.document true = c.document false))) =
      some (true, false) := by
    decide +kernel
  obtain ⟨c, hc, hdocuments⟩ := Option.bind_eq_some_iff.1 hdocuments
  obtain ⟨c', hc', hdocuments⟩ := Option.map_eq_some_iff.1 hdocuments
  obtain ⟨hsame, hless⟩ := Prod.mk.inj hdocuments
  have hsame := of_decide_eq_true hsame
  exact ⟨.builtIn, rfl, c, c', hc, hc', hsame, of_decide_eq_false hless,
    @compile_concise _ _ .standard .standard _ _ .builtIn .builtIn rfl rfl hc hc' hsame⟩

end Story

end StoryLang
