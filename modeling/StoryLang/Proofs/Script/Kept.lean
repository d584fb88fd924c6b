/-
What stays true of a script while it is made.

The script of a tree is made by declaring functions and adding records, one
after the other. So whatever these two keep is true of the script of every
tree, up to the links between its records (`ofTree_kept`). Coordinates increase
along a script for that reason, whatever the coordinates of the tree are like,
and a record is found at its coordinate.
-/
import StoryLang.Proofs.Script.OfTree

namespace StoryLang.Script

variable {source : String} {P : Script → Prop} {t : Tree} {ps : List Tree} {r q : Record}
  {rs rs' : List Record} {s s' : Script}

/-- Declaring functions and adding records keeps a property of scripts. -/
structure Kept (source : String) (P : Script → Prop) : Prop where
  declare : ∀ s name line, P s → P (s.declare name line)
  add : ∀ s s' r, P s → add source s r = .ok s' → P s'

/-- What is made of a script with the property has it too. -/
def Keeps (P : Script → Prop) (f : Script → Except Fault Script) : Prop :=
  ∀ s s', P s → f s = .ok s' → P s'

theorem keeps_same : Keeps P fun s => .ok s :=
  fun _ _ hs h => Except.ok.inj h ▸ hs

theorem Keeps.bind {f g : Script → Except Fault Script} (hf : Keeps P f) (hg : Keeps P g) :
    Keeps P fun s => f s >>= g := by
  intro s s' hs h
  obtain ⟨s₁, h₁, h⟩ := ok_of_bind h
  exact hg s₁ s' (hf s s₁ hs h₁) h

theorem Kept.keeps_add (hP : Kept source P) (r : Record) : Keeps P fun s => Script.add source s r :=
  fun s s' => hP.add s s' r

/-! ## Following a tree -/

/-- The records of a row of parts keep the property, whichever way it is followed. -/
structure RowKeeps (P : Script → Prop) (source : String) (ps : List Tree) : Prop where
  statements : ∀ place, Keeps P (ofStatements source place · ps)
  body : ∀ place, Keeps P (ofBody source place · ps)
  continuations : ∀ rules place, Keeps P (ofContinuations source rules place · ps)

/-- The records of a statement keep the property. -/
structure TreeKeeps (P : Script → Prop) (source : String) (t : Tree) : Prop where
  statement : ∀ place, Keeps P (ofStatement source place · t)
  rows : RowKeeps P source t.parts

theorem RowKeeps.nil : RowKeeps P source [] :=
  ⟨fun _ => keeps_same, fun _ => keeps_same, fun _ _ => keeps_same⟩

theorem RowKeeps.token {u : Token} (h : RowKeeps P source ps) : RowKeeps P source (.token u :: ps) where
  statements place := by
    unfold ofStatements
    exact h.statements place
  body place := by
    unfold ofBody
    exact h.body place
  continuations rules place := by
    unfold ofContinuations
    exact h.continuations rules place

theorem RowKeeps.node {rule : Rule} {own : Option Coord} {inner : List Tree} (hP : Kept source P)
    (ht : TreeKeeps P source (.node rule own inner)) (h : RowKeeps P source ps) :
    RowKeeps P source (.node rule own inner :: ps) where
  statements place := by
    unfold ofStatements
    exact (ht.statement _).bind (h.statements place)
  body place := by
    by_cases hr : rule = .block
    · subst hr
      exact ht.rows.statements place
    · have hc : ∀ s, ofBody source place s (.node rule own inner :: ps) = ofBody source place s ps := by
        intro s
        cases rule <;> first | exact absurd rfl hr | rfl
      simp only [hc]
      exact h.body place
  continuations rules place := by
    unfold ofContinuations
    dsimp only
    split
    · intro s s' hs h'
      obtain ⟨line, -, h'⟩ := ok_of_bind h'
      obtain ⟨r, -, h'⟩ := ok_of_bind h'
      exact ((hP.keeps_add _).bind ((ht.rows.body _).bind (h.continuations rules place))) s s' hs h'
    · exact h.continuations rules place

theorem RowKeeps.of (hP : Kept source P) (h : ∀ p ∈ ps, TreeKeeps P source p) : RowKeeps P source ps :=
  Tree.byRow h .nil .token (.node hP)

theorem Kept.treeKeeps (hP : Kept source P) (t : Tree) : TreeKeeps P source t := by
  induction t using Tree.byParts with
  | token u => exact ⟨fun _ => keeps_same, .nil⟩
  | node rule own ps ih =>
    have rows : RowKeeps P source ps := .of hP ih
    refine ⟨fun place s s' hs h => ?_, rows⟩
    dsimp only at h
    unfold ofStatement at h
    obtain ⟨line, -, h⟩ := ok_of_bind h
    dsimp only at h
    split at h
    · cases h
    · obtain ⟨r, -, h⟩ := ok_of_bind h
      -- a function is declared in front of its record
      split at h
      · refine ((hP.keeps_add _).bind ((rows.body _).bind (rows.continuations _ place))) _ s' ?_ h
        split
        · exact hP.declare s _ line hs
        · exact hs
      · refine hP.keeps_add _ _ s' ?_ h
        split
        · exact hP.declare s _ line hs
        · exact hs

/-- Before its records are linked, the script of a tree has the property. -/
theorem ofTree_kept (hP : Kept source P) (hempty : P .empty) (h : ofTree source t = .ok s) :
    ∃ s', P s' ∧ s = { s' with records := linked s'.records } := by
  obtain ⟨s', h', h⟩ := ok_of_bind h
  obtain rfl := Except.ok.inj h
  have hrows : RowKeeps P source t.parts := .of hP fun p _ => hP.treeKeeps p
  exact ⟨s', hrows.statements ⟨none, none⟩ .empty s' hempty h', rfl⟩

/-! ## Adding records -/

/-- A record comes with its line of the story. -/
theorem records_add (h : add source s r = .ok s') :
    insertRecord { r with source := sourceOf source r.line } s.records = some s'.records := by
  unfold add insert at h
  split at h
  · rename_i records hrecords
    obtain rfl := Except.ok.inj h
    exact hrecords
  · cases h

theorem mem_insertRecord (h : insertRecord r rs = some rs') : q ∈ rs' → q = r ∨ q ∈ rs := by
  induction rs generalizing rs' with
  | nil =>
    obtain rfl := Option.some.inj h
    simp
  | cons other rs ih =>
    unfold insertRecord at h
    split at h
    · obtain rfl := Option.some.inj h
      simp
    · split at h
      · cases h
      · obtain ⟨others, hothers, rfl⟩ := Option.map_eq_some_iff.1 h
        simp only [List.mem_cons]
        rintro (hq | hq)
        · exact .inr (.inl hq)
        · exact (ih hothers hq).imp_right .inr

/-! ## Coordinates -/

/-- The coordinates of the records increase. -/
def Increasing (s : Script) : Prop := s.records.Pairwise (·.line < ·.line)

theorem insertRecord_increasing (h : insertRecord r rs = some rs')
    (hrs : rs.Pairwise (·.line < ·.line)) : rs'.Pairwise (·.line < ·.line) := by
  induction rs generalizing rs' with
  | nil =>
    obtain rfl := Option.some.inj h
    exact List.pairwise_singleton _ _
  | cons other rs ih =>
    obtain ⟨hfirst, hothers⟩ := List.pairwise_cons.1 hrs
    unfold insertRecord at h
    split at h
    · rename_i hlt
      obtain rfl := Option.some.inj h
      refine List.pairwise_cons.2 ⟨List.forall_mem_cons.2 ⟨hlt, fun q hq => ?_⟩, hrs⟩
      exact Coord.lt_trans hlt (hfirst q hq)
    · rename_i hnot
      split at h
      · cases h
      · rename_i hne
        obtain ⟨inserted, hinserted, rfl⟩ := Option.map_eq_some_iff.1 h
        refine List.pairwise_cons.2 ⟨fun q hq => ?_, ih hinserted hothers⟩
        rcases mem_insertRecord hinserted hq with rfl | hq
        · exact ((Coord.lt_or_eq_or_lt q.line other.line).resolve_left hnot).resolve_left hne
        · exact hfirst q hq

theorem kept_increasing (source : String) : Kept source Increasing where
  declare _ _ _ h := h
  add _ _ _ h hadd := insertRecord_increasing (records_add hadd) h

/-- Links do not move records. -/
theorem ofTree_increasing (h : ofTree source t = .ok s) : s.Increasing := by
  obtain ⟨s', hs, rfl⟩ := ofTree_kept (kept_increasing source) .nil h
  have hlines := List.pairwise_map.2 hs
  rw [← linked_map_line] at hlines
  exact List.pairwise_map.1 hlines

/-- A record is found at its coordinate. -/
theorem get?_line (h : s.Increasing) (hr : r ∈ s.records) : s.get? r.line = some r := by
  unfold get?
  obtain ⟨front, rest, hs⟩ := List.append_of_mem hr
  rw [Increasing, hs] at h
  rw [hs, List.find?_append, List.find?_eq_none.2 fun q hq => ?_, Option.none_or,
    List.find?_cons_of_pos (by simp)]
  have hlt := (List.pairwise_append.1 h).2.2 q hq r List.mem_cons_self
  simp only [decide_eq_true_eq]
  exact fun heq => Coord.lt_irrefl _ (heq ▸ hlt)

end StoryLang.Script
