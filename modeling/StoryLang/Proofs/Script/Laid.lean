/-
How the records of a script lie in each other's blocks.

The records of a row are in the block of the same record, and behind each of
them are those of its own block. So what is under a record stands right behind
it. A record goes on to one further on in its row or to where the whole row
goes on to, and so does what is in its block.
-/
import StoryLang.Proofs.Fault
import StoryLang.Script.OfTree

namespace StoryLang

/-- Whether the records of a method always have a block. -/
def Method.hasBlock : Method → Bool
  | .ifMethod | .elifMethod | .elseMethod | .forMethod | .whileMethod | .tryMethod | .catchMethod
  | .finallyMethod | .function | .whenMethod => true
  | _ => false

namespace Script

variable {rs us body rest : List Record} {r p q owner : Record} {place : Place} {dest : Option Coord}
  {c : Coord}

/-! ## Rows -/

/-- Where a statement of a row goes on: where the row does, or to one that is
further on in the row. -/
def Ahead (place : Place) (rest : List Record) (dest : Option Coord) : Prop :=
  ∀ c, dest = some c → place.after = some c ∨ ∃ q ∈ rest, q.parent = place.parent ∧ q.line = c

/-- Records of a row, each with those of its block behind it. -/
inductive Laid : Place → List Record → Prop where
  | nil {place : Place} : Laid place []
  | cons {place : Place} {r : Record} {inner : Option Coord} {body rest : List Record}
      (parent : r.parent = place.parent)
      (enter : r.enter = body.head?.map (·.line)) (owns : r.method.hasBlock = true → body ≠ [])
      (exit : Ahead place rest r.exit) (after : Ahead place rest inner)
      (function : r.method = .function → inner = none) (inside : Laid ⟨some r.line, inner⟩ body)
      (others : Laid place rest) : Laid place (r :: (body ++ rest))

theorem Ahead.none : Ahead place rs .none := nofun

theorem Ahead.after : Ahead place rs place.after := fun _ h => .inl h

/-- Rows that follow each other in one block. -/
theorem Ahead.append {after : Option Coord} (h : Ahead { place with after } rs dest)
    (ha : Ahead place us after) : Ahead place (rs ++ us) dest := by
  intro c hc
  rcases h c hc with h | ⟨q, hq, hl⟩
  · exact (ha c h).imp_right fun ⟨q, hq, hl⟩ => ⟨q, by simp [hq], hl⟩
  · exact .inr ⟨q, by simp [hq], hl⟩

namespace Laid

theorem append {after : Option Coord} (h : Laid { place with after } rs) (h' : Laid place us)
    (ha : Ahead place us after) : Laid place (rs ++ us) := by
  generalize hp : ({ place with after } : Place) = row at h
  induction h with
  | nil => exact h'
  | cons parent enter owns exit inner function inside _ _ ih =>
    subst hp
    rw [List.cons_append, List.append_assoc]
    exact .cons parent enter owns (exit.append ha) (inner.append ha) function inside (ih rfl)

theorem first (h : Laid place (r :: rs)) : r.parent = place.parent := by
  cases h with
  | cons parent => exact parent

/-- Where a row starts, statements before it can go on. -/
theorem ahead (h : Laid place rs) (hc : (rs.map (·.line)).head? = some c) :
    ∃ q ∈ rs, q.parent = place.parent ∧ q.line = c := by
  cases rs with
  | nil => cases hc
  | cons r rs => exact ⟨r, by simp, h.first, Option.some.inj hc⟩

/-- The record after each one does not count. -/
theorem of_next {f : Record → Record} (hf : ∀ r, ∃ next, f r = { r with next })
    (h : Laid place (rs.map f)) : Laid place rs := by
  generalize hrs : rs.map f = rs' at h
  induction h generalizing rs with
  | nil =>
    obtain rfl := List.map_eq_nil_iff.1 hrs
    exact .nil
  | cons parent enter owns exit inner function inside others ih ih' =>
    obtain ⟨r, tail, rfl, rfl, htail⟩ := List.map_eq_cons_iff.1 hrs
    obtain ⟨body, rest, rfl, rfl, rfl⟩ := List.map_eq_append_iff.1 htail
    have hahead : ∀ {place : Place} {dest}, Ahead place (rest.map f) dest → Ahead place rest dest := by
      intro place dest h c hc
      refine (h c hc).imp_right fun ⟨_, hm, hp, hl⟩ => ?_
      obtain ⟨q, hq, rfl⟩ := List.mem_map.1 hm
      obtain ⟨next, hn⟩ := hf q
      exact ⟨q, hq, by rw [← hp, hn], by rw [← hl, hn]⟩
    have hlines : ∀ rs : List Record, (rs.map f).head?.map (·.line) = rs.head?.map (·.line) := by
      intro rs
      cases rs with
      | nil => rfl
      | cons r rs =>
        obtain ⟨next, hn⟩ := hf r
        simp [hn]
    obtain ⟨next, hn⟩ := hf r
    rw [hlines] at enter
    rw [hn] at parent enter owns exit function ih
    exact .cons parent enter (fun h hnil => owns h (by simp [hnil])) (hahead exit) (hahead inner)
      function (ih rfl) (ih' rfl)

/-- Every record is in the block of the row or in that of another record of the row. -/
theorem parents (h : Laid place rs) :
    ∀ q ∈ rs, q.parent = place.parent ∨ ∃ p ∈ rs, q.parent = some p.line := by
  induction h with
  | nil => simp
  | @cons place r inner body rest parent _ _ _ _ _ _ _ ih ih' =>
    refine List.forall_mem_cons.2 ⟨.inl parent, List.forall_mem_append.2 ⟨fun q hq => ?_, fun q hq => ?_⟩⟩
    · rcases ih q hq with h | ⟨p, hp, h⟩
      · exact .inr ⟨r, by simp, h⟩
      · exact .inr ⟨p, by simp [hp], h⟩
    · exact (ih' q hq).imp_right fun ⟨p, hp, h⟩ => ⟨p, by simp [hp], h⟩

/-- Nothing exits from a row but to where the row goes on. -/
theorem exits (h : Laid place rs) :
    ∀ q ∈ rs, ∀ c, q.exit = some c → place.after = some c ∨ ∃ p ∈ rs, p.line = c := by
  induction h with
  | nil => simp
  | @cons place r inner body rest _ _ _ exit after _ _ _ ih ih' =>
    have hahead : ∀ {dest}, Ahead place rest dest → ∀ c, dest = some c →
        place.after = some c ∨ ∃ p ∈ r :: (body ++ rest), p.line = c := fun h c hc =>
      (h c hc).imp_right fun ⟨p, hp, _, hl⟩ => ⟨p, by simp [hp], hl⟩
    refine List.forall_mem_cons.2 ⟨hahead exit,
      List.forall_mem_append.2 ⟨fun q hq c hc => ?_, fun q hq c hc => ?_⟩⟩
    · rcases ih q hq c hc with h | ⟨p, hp, hl⟩
      · exact hahead after c h
      · exact .inr ⟨p, by simp [hp], hl⟩
    · exact (ih' q hq c hc).imp_right fun ⟨p, hp, hl⟩ => ⟨p, by simp [hp], hl⟩

end Laid

/-! ## What is under a record -/

/-- The record is in the block of the owner, or in that of a record under it. -/
inductive Under (rs : List Record) (owner : Record) : Record → Prop where
  | child {q : Record} (mem : q ∈ rs) (parent : q.parent = some owner.line) : Under rs owner q
  | deeper {p q : Record} (above : Under rs owner p) (mem : q ∈ rs) (parent : q.parent = some p.line) :
    Under rs owner q

namespace Under

theorem mem (h : Under rs owner q) : q ∈ rs := by
  cases h <;> assumption

theorem mono (h : Under rs owner q) (hs : rs ⊆ us) : Under us owner q := by
  induction h with
  | child mem parent => exact .child (hs mem) parent
  | deeper _ mem parent ih => exact .deeper ih (hs mem) parent

theorem trans (h : Under rs owner p) (h' : Under rs p q) : Under rs owner q := by
  induction h' with
  | child mem parent => exact .deeper h mem parent
  | deeper _ mem parent ih => exact .deeper ih mem parent

end Under

/-- All of a block is under its owner. -/
theorem Laid.under (h : Laid place rs) (hp : place.parent = some owner.line) (hs : rs ⊆ us) :
    ∀ q ∈ rs, Under us owner q := by
  induction h generalizing owner with
  | nil => simp
  | cons parent _ _ _ _ _ _ _ ih ih' =>
    simp only [List.cons_subset, List.append_subset] at hs
    have hr := Under.child hs.1 (parent.trans hp)
    refine List.forall_mem_cons.2 ⟨hr, List.forall_mem_append.2 ⟨fun q hq => ?_, ih' hp hs.2.2⟩⟩
    exact hr.trans (ih rfl hs.2.1 q hq)

/-- The coordinates of a row increase, and come after the one of the record it is in. -/
def Ordered (place : Place) (rs : List Record) : Prop :=
  (place.parent.toList ++ rs.map (·.line)).Pairwise (· < ·)

/-- A record with what is under it, and with what comes before and after that. -/
structure Around (place : Place) (rs : List Record) (r : Record) (front body rest : List Record) :
    Prop where
  split : rs = front ++ r :: (body ++ rest)
  under : ∀ q ∈ body, Under rs r q
  owned : ∀ q ∈ rs, ∀ p ∈ r :: body, q.parent = some p.line → q ∈ body
  enter : r.enter = body.head?.map (·.line)
  owns : r.method.hasBlock = true → body ≠ []
  first : ∀ q ∈ body.head?, q.parent = some r.line
  exit : ∀ c, r.exit = some c → place.after = some c ∨ ∃ q ∈ rest, q.line = c ∧
    ∃ a, (a = r ∨ a ∈ front ∧ Under rs a r) ∧ q.parent = a.parent
  function : r.method = .function → ∀ q ∈ body, ∀ c, q.exit = some c → ∃ p ∈ body, p.line = c

/-- What is under a record stands right behind it. -/
theorem Around.under_mem {front : List Record} (h : Around place rs r front body rest)
    (hq : Under rs r q) : q ∈ body := by
  induction hq with
  | child mem parent => exact h.owned _ mem r (by simp) parent
  | deeper _ mem parent ih => exact h.owned _ mem _ (by simp [ih]) parent

/-- The first record of a row with its block, and the rest of the row: neither
has a record that is in a block of the other. -/
structure Parted (r : Record) (body rest : List Record) : Prop where
  first : ∀ p ∈ r :: (body ++ rest), r.parent ≠ some p.line
  inBlock : ∀ q ∈ body, ∀ p ∈ rest, q.parent ≠ some p.line
  behind : ∀ q ∈ rest, ∀ p ∈ r :: body, q.parent ≠ some p.line

theorem Laid.parted {inner : Option Coord} (parent : r.parent = place.parent)
    (inside : Laid ⟨some r.line, inner⟩ body) (others : Laid place rest)
    (ho : Ordered place (r :: (body ++ rest))) : Parted r body rest := by
  rw [Ordered, List.pairwise_append] at ho
  obtain ⟨-, ho, hparent⟩ := ho
  have hfirst : ∀ p ∈ r :: (body ++ rest), place.parent ≠ some p.line := by
    intro p hp h
    exact Coord.lt_irrefl _ (hparent p.line (by simp [h]) p.line (List.mem_map_of_mem hp))
  -- everything in the block comes before the rest
  have hlt : ∀ p ∈ r :: body, ∀ q ∈ rest, p.line ≠ q.line := by
    intro p hp q hq h
    rw [← List.cons_append, List.map_append, List.pairwise_append] at ho
    exact Coord.lt_irrefl _ (h ▸ ho.2.2 p.line (List.mem_map_of_mem hp) q.line (List.mem_map_of_mem hq))
  refine ⟨fun p hp => parent ▸ hfirst p hp, fun q hq p hp h => ?_, fun q hq p hp h => ?_⟩
  · rcases inside.parents q hq with h' | ⟨p', hp', h'⟩
    · exact hlt r (by simp) p hp (Option.some.inj (h'.symm.trans h))
    · exact hlt p' (by simp [hp']) p hp (Option.some.inj (h'.symm.trans h))
  · rcases others.parents q hq with h' | ⟨p', hp', h'⟩
    · exact hfirst p (List.mem_append_left rest hp) (h'.symm.trans h)
    · exact hlt p hp p' hp' (Option.some.inj (h.symm.trans h'))

section Around

variable {r₀ : Record} {inner : Option Coord} {body₀ rest₀ front : List Record}

/-- What is around the first record of a row. -/
theorem Around.here (parent : r₀.parent = place.parent) (enter : r₀.enter = body₀.head?.map (·.line))
    (owns : r₀.method.hasBlock = true → body₀ ≠ []) (exit : Ahead place rest₀ r₀.exit)
    (function : r₀.method = .function → inner = none) (inside : Laid ⟨some r₀.line, inner⟩ body₀)
    (hp : Parted r₀ body₀ rest₀) :
    Around place (r₀ :: (body₀ ++ rest₀)) r₀ [] body₀ rest₀ where
  split := rfl
  under := inside.under rfl (by simp)
  owned q hq p hp' h := by
    simp only [List.mem_cons, List.mem_append] at hq
    rcases hq with rfl | hq | hq
    · exact absurd h (hp.first p (List.mem_append_left rest₀ hp'))
    · exact hq
    · exact absurd h (hp.behind q hq p hp')
  enter := enter
  owns := owns
  first q hq := by
    cases inside with
    | nil => cases hq
    | cons first =>
      obtain rfl := Option.some.inj hq
      exact first
  exit c hc := (exit c hc).imp_right fun ⟨q, hq, hqp, hl⟩ =>
    ⟨q, hq, hl, r₀, .inl rfl, hqp.trans parent.symm⟩
  function hm q hq c hc := by
    rcases inside.exits q hq c hc with h | h
    · cases (function hm).symm.trans h
    · exact h

/-- What is around a record in the block of the first one of a row. -/
theorem Around.inBlock (h : Around ⟨some r₀.line, inner⟩ body₀ r front body rest)
    (parent : r₀.parent = place.parent) (after : Ahead place rest₀ inner)
    (inside : Laid ⟨some r₀.line, inner⟩ body₀) (hr : r ∈ body₀) (hp : Parted r₀ body₀ rest₀) :
    Around place (r₀ :: (body₀ ++ rest₀)) r (r₀ :: front) body (rest ++ rest₀) := by
  have hsub : body₀ ⊆ r₀ :: (body₀ ++ rest₀) := by simp
  have hmem : ∀ p ∈ r :: body, p ∈ body₀ := by
    rw [h.split]
    grind
  refine ⟨by simp [h.split], fun q hq => (h.under q hq).mono hsub, fun q hq p hp' hqp => ?_, h.enter,
    h.owns, h.first, fun c hc => ?_, h.function⟩
  · simp only [List.mem_cons, List.mem_append] at hq
    rcases hq with rfl | hq | hq
    · exact absurd hqp (hp.first p (by simp [hmem p hp']))
    · exact h.owned q hq p hp' hqp
    · exact absurd hqp (hp.behind q hq p (by simp [hmem p hp']))
  · rcases h.exit c hc with hi | ⟨q, hq, hl, a, ha, hqp⟩
    · exact (after c hi).imp_right fun ⟨q, hq, hqp, hl⟩ => ⟨q, by simp [hq], hl, r₀,
        .inr ⟨by simp, inside.under rfl hsub r hr⟩, hqp.trans parent.symm⟩
    · exact .inr ⟨q, by simp [hq], hl, a, ha.imp_right fun ⟨ha, hu⟩ => ⟨by simp [ha], hu.mono hsub⟩, hqp⟩

/-- What is around a record behind the block of the first one of a row. -/
theorem Around.behind (h : Around place rest₀ r front body rest) (hp : Parted r₀ body₀ rest₀) :
    Around place (r₀ :: (body₀ ++ rest₀)) r (r₀ :: (body₀ ++ front)) body rest := by
  have hsub : rest₀ ⊆ r₀ :: (body₀ ++ rest₀) := by simp
  have hmem : ∀ p ∈ r :: body, p ∈ rest₀ := by
    rw [h.split]
    grind
  refine ⟨by simp [h.split], fun q hq => (h.under q hq).mono hsub, fun q hq p hp' hqp => ?_, h.enter,
    h.owns, h.first, fun c hc => ?_, h.function⟩
  · simp only [List.mem_cons, List.mem_append] at hq
    rcases hq with rfl | hq | hq
    · exact absurd hqp (hp.first p (by simp [hmem p hp']))
    · exact absurd hqp (hp.inBlock q hq p (hmem p hp'))
    · exact h.owned q hq p hp' hqp
  · exact (h.exit c hc).imp_right fun ⟨q, hq, hl, a, ha, hqp⟩ =>
      ⟨q, hq, hl, a, ha.imp_right fun ⟨ha, hu⟩ => ⟨by simp [ha], hu.mono hsub⟩, hqp⟩

end Around

/-- Every record of a row that is laid, with what is around it. -/
theorem Laid.around (h : Laid place rs) :
    Ordered place rs → ∀ r ∈ rs, ∃ front body rest, Around place rs r front body rest := by
  induction h with
  | nil => simp
  | @cons place r₀ inner body₀ rest₀ parent enter owns exit after function inside others ih ih' =>
    intro ho
    have hp := parted parent inside others ho
    have ho' : (place.parent.toList ++ r₀.line :: (body₀.map (·.line) ++ rest₀.map (·.line))).Pairwise
        (· < ·) := by simpa [Ordered] using ho
    refine List.forall_mem_cons.2 ⟨⟨_, _, _, .here parent enter owns exit function inside hp⟩,
      List.forall_mem_append.2 ⟨fun r hr => ?_, fun r hr => ?_⟩⟩
    · obtain ⟨front, body, rest, h⟩ := ih (ho'.sublist (by simp)) r hr
      exact ⟨_, _, _, h.inBlock parent after inside hr hp⟩
    · obtain ⟨front, body, rest, h⟩ := ih' (ho'.sublist (by simp)) r hr
      exact ⟨_, _, _, h.behind hp⟩

/-! ## Records with their successors -/

theorem linked_map_unlink (rs : List Record) : (linked rs).map ({ · with next := none }) =
    rs.map ({ · with next := none }) := by
  fun_induction linked rs <;> simp_all

/-- Linking sets the successors alone. -/
theorem unlink_linked (hn : ∀ r ∈ rs, r.next = none) : (linked rs).map ({ · with next := none }) = rs := by
  rw [linked_map_unlink]
  refine (List.map_congr_left fun r hr => ?_).trans (List.map_id rs)
  rw [← hn r hr]
  rfl

/-- Rows stay as they are when their records are linked. -/
theorem Laid.linked (h : Laid place rs) (hn : ∀ r ∈ rs, r.next = none) : Laid place (linked rs) := by
  refine of_next (fun r => ⟨none, rfl⟩) ?_
  rwa [unlink_linked hn]

theorem head_linked (rs : List Record) : (linked rs).head?.map (·.line) = rs.head?.map (·.line) := by
  rw [← List.head?_map, linked_map_line, List.head?_map]

/-- The successor of a record is the one behind it. -/
theorem next_linked {front : List Record} (hn : ∀ r ∈ rs, r.next = none)
    (h : linked rs = front ++ r :: rest) : r.next = rest.head?.map (·.line) := by
  induction rs generalizing front with
  | nil => simp [Script.linked] at h
  | cons r₁ rs ih =>
    simp only [List.forall_mem_cons] at hn
    cases rs with
    | nil =>
      obtain ⟨rfl, rfl, rfl⟩ : front = [] ∧ r₁ = r ∧ rest = [] := by
        cases front <;> simp_all [Script.linked]
      exact hn.1
    | cons r₂ rs =>
      rw [Script.linked] at h
      cases front with
      | nil =>
        obtain ⟨rfl, rfl⟩ := List.cons.inj h
        exact (head_linked (r₂ :: rs)).symm
      | cons _ front => exact ih hn.2 (List.cons.inj h).2

end Script

end StoryLang
