/-
Which names a record of a script reads, and which are known where it stands.

This is said of the records alone. A record declares names for those behind it
in its block, and names for its own block. A block sees what the blocks around
it see, but that of a function does so only with the feature for it. `Scoped`
says the same of statements, and what is scoped is written as records that
read only what is known.

What a value reads goes by what it is the value of.
-/
import StoryLang.Proofs.Script.Record

namespace StoryLang

namespace Value

mutual

/-- The paths in a value at any depth, each by its parts. -/
def paths : Value → List (List Value)
  | path parts => parts :: pathsAll parts
  | list items => pathsAll items
  | dict entries => pathsAll entries
  | entry key item => paths key ++ paths item
  | expression _ operands => pathsAll operands
  | cast target source => paths target ++ paths source
  | type _ parts => pathsAll parts
  | argument _ value => paths value
  | mutation _ arguments => pathsAll arguments
  | null | boolean _ | int _ | float _ | string _ | name _ => []

/-- The paths in the values of a row. -/
def pathsAll : List Value → List (List Value)
  | [] => []
  | v :: vs => paths v ++ pathsAll vs

end

theorem mem_pathsAll {parts : List Value} {vs : List Value} :
    parts ∈ pathsAll vs ↔ ∃ v ∈ vs, parts ∈ paths v := by
  induction vs with
  | nil => simp [pathsAll]
  | cons v vs ih => simp [pathsAll, ih]

/-- The path starts with a known name. -/
def Rooted (known : String → Prop) (parts : List Value) : Prop :=
  ∃ n, parts.head? = some (.name n) ∧ known n

/-- All paths in the value start with known names. -/
def Within (known : String → Prop) (v : Value) : Prop := ∀ parts ∈ v.paths, Rooted known parts

theorem Rooted.mono {known known' : String → Prop} {parts : List Value} (h : Rooted known parts)
    (hk : ∀ n, known n → known' n) : Rooted known' parts :=
  h.imp fun n ⟨hn, hkn⟩ => ⟨hn, hk n hkn⟩

end Value

namespace Record

/-- The paths that a record reads: those in its arguments, and what it assigns to if
that is a part of a variable. -/
def paths (r : Record) : List (List Value) :=
  Value.pathsAll r.args ++
    match r.target with
    | some (root :: part :: parts) => (Value.path (root :: part :: parts)).paths
    | _ => []

/-- The names that a record declares for those behind it in its block: a variable that is
assigned to as a whole, the outputs of a call or a mutation that is a statement, and
what a file is imported as. -/
def declared (r : Record) : List String :=
  match r.target, r.method with
  | some [.name n], _ => [n]
  | some _, _ => []
  | none, .execute | none, .mutation | none, .importMethod => r.output
  | none, _ => []

/-- The names that a record declares in the block that it owns. -/
def bound (r : Record) : List String :=
  match r.method with
  | .forMethod | .catchMethod | .whenMethod => r.output
  | .function => r.args.filterMap fun
    | .argument n _ => some n
    | _ => none
  | _ => []

/-- The names known at the start of the block of a record, from those known at the record. -/
def within (globals : Bool) (known : String → Prop) (r : Record) (n : String) : Prop :=
  n ∈ r.bound ∨ (globals = true ∨ r.method ≠ .function) ∧ (known n ∨ n ∈ r.declared)

/-- The record reads only known names. -/
def Reads (known : String → Prop) (r : Record) : Prop := ∀ parts ∈ r.paths, Value.Rooted known parts

theorem Reads.mono {known known' : String → Prop} {r : Record} (h : r.Reads known)
    (hk : ∀ n, known n → known' n) : r.Reads known' :=
  fun parts hp => (h parts hp).mono hk

end Record

namespace Script

/-- A name that some records make known in the block of `parent`: one of the block declares it,
or its owner does, or it is known where the owner is. With `globals` off nothing is known of
what is around a function. -/
inductive Known (globals : Bool) (rs : List Record) : Option Coord → String → Prop where
  | declared {q : Record} {n : String} (mem : q ∈ rs) (name : n ∈ q.declared) :
    Known globals rs q.parent n
  | bound {owner : Record} {n : String} (mem : owner ∈ rs) (name : n ∈ owner.bound) :
    Known globals rs (some owner.line) n
  | outer {owner : Record} {n : String} (mem : owner ∈ rs)
      (sees : globals = true ∨ owner.method ≠ .function)
      (known : Known globals rs owner.parent n) : Known globals rs (some owner.line) n

variable {globals : Bool} {parent : Option Coord} {known known' : String → Prop} {n : String}
  {t : Tree} {ts us : List Tree} {r : Record} {front rs rest : List Record}

/-- Nothing is known where no record is in front. -/
theorem not_known_nil : ¬ Known globals [] parent n := by
  intro h
  cases h with
  | declared mem | bound mem | outer mem => cases mem

theorem Known.mono (h : Known globals rs parent n) (hs : rs ⊆ rest) : Known globals rest parent n := by
  induction h with
  | declared mem name => exact .declared (hs mem) name
  | bound mem name => exact .bound (hs mem) name
  | outer mem sees _ ih => exact .outer (hs mem) sees ih

/-- What is known in the block of a record. -/
theorem Known.of_within (hr : r ∈ rs) (hk : ∀ n, known n → Known globals rs r.parent n)
    (h : r.within globals known n) : Known globals rs (some r.line) n := by
  rcases h with h | ⟨sees, h | h⟩
  · exact .bound hr h
  · exact .outer hr sees (hk n h)
  · exact .outer hr sees (.declared hr h)

/-- The statements or branches of a row read only known names, where each declares its own
for those behind it. Of imports it is not said. -/
inductive Scoped (globals : Bool) : (String → Prop) → List Tree → Prop where
  | nil {known : String → Prop} : Scoped globals known []
  | cons {known : String → Prop} {t : Tree} {ts : List Tree}
      (reads : ∀ r, Describes r t → r.method ≠ .importMethod → r.Reads known)
      (inside : ∀ r, Describes r t → Scoped globals (r.within globals known) (blockOf t.parts))
      (behind : Scoped globals known (branchesOf t))
      (others : ∀ r, Describes r t → Scoped globals (fun n => known n ∨ n ∈ r.declared) ts) :
      Scoped globals known (t :: ts)

theorem Scoped.mono (h : Scoped globals known ts) (hk : ∀ n, known n → known' n) :
    Scoped globals known' ts := by
  induction h generalizing known' with
  | nil => exact .nil
  | cons reads inside behind others ih ih' ih'' =>
    refine .cons (fun r hr hm => (reads r hr hm).mono hk) (fun r hr => ih r hr fun n hn => ?_) (ih' hk)
      fun r hr => ih'' r hr fun n hn => hn.imp_left (hk n)
    exact hn.imp_right fun ⟨sees, h⟩ => ⟨sees, h.imp_left (hk n)⟩

/-- Each record of a row reads only what those before it make known, unless it imports. -/
def Reading (globals : Bool) (front : List Record) : List Record → Prop
  | [] => True
  | r :: rs => (r.method ≠ .importMethod → r.Reads (Known globals front r.parent)) ∧
    Reading globals (front ++ [r]) rs

theorem Reading.append (h : Reading globals front rs) (h' : Reading globals (front ++ rs) rest) :
    Reading globals front (rs ++ rest) := by
  induction rs generalizing front with
  | nil => simpa using h'
  | cons r rs ih => exact ⟨h.1, ih h.2 (by simpa using h')⟩

theorem Reading.at {before : List Record} (h : Reading globals front (before ++ r :: rest))
    (hm : r.method ≠ .importMethod) : r.Reads (Known globals (front ++ before) r.parent) := by
  induction before generalizing front with
  | nil => simpa using h.1 hm
  | cons q before ih => simpa using ih h.2

/-- Statements that are scoped are written as records that read only what is known. -/
theorem Written.reading (h : Written parent ts rs) (hs : Scoped globals known ts)
    (hk : ∀ n, known n → Known globals front parent n) : Reading globals front rs := by
  induction h generalizing known front with
  | nil => trivial
  | @cons parent t r body branches rest ts describes place inside behind others ih ih' ih'' =>
    subst place
    cases hs with
    | cons reads hinside hbehind hothers =>
      -- what was known stays known behind more records
      have kept : ∀ {more : List Record}, ∀ n, known n → Known globals (front ++ more) r.parent n :=
        fun n hn => (hk n hn).mono (List.subset_append_left _ _)
      refine ⟨fun hm => (reads r describes hm).mono hk, .append (ih (hinside r describes) fun n hn => ?_)
        (.append (ih' hbehind fun n hn => ?_) (ih'' (hothers r describes) fun n hn => ?_))⟩
      · exact .of_within (by simp) kept hn
      · rw [List.append_assoc]
        exact kept n hn
      · rw [List.append_assoc, List.append_assoc]
        rcases hn with hn | hn
        · exact kept n hn
        · exact .declared (by simp) hn

end Script

end StoryLang

/-! # What values read, by what they are values of -/

namespace StoryLang

namespace Value

variable {known : String → Prop} {v : Value} {vs : List Value} {ts ps : List Tree}

/-- A value reads what the values in it read. -/
theorem Within.of_parts (h : v.paths = pathsAll vs) (hv : ∀ u ∈ vs, u.Within known) :
    v.Within known := by
  intro parts hp
  rw [h] at hp
  obtain ⟨u, hu, hp⟩ := mem_pathsAll.1 hp
  exact hv u hu parts hp

theorem Within.of_nil (h : v.paths = []) : v.Within known := @of_parts _ _ [] h nofun

mutual

/-- Types read nothing. -/
theorem paths_ofTypes : ∀ t : Tree, (ofTypes t).paths = []
  | .token _ => rfl
  | .node _ _ ps => pathsAll_ofTypesParts ps

theorem pathsAll_ofTypesParts : ∀ ps : List Tree, pathsAll (ofTypesParts ps) = []
  | [] => rfl
  | .token _ :: ts => pathsAll_ofTypesParts ts
  | .node r l ps :: ts => by
    simp [ofTypesParts, pathsAll, paths_ofTypes (.node r l ps), pathsAll_ofTypesParts ts]

end

/-- The value, if there is one, reads only known names. -/
def Emits (known : String → Prop) (x : Except Fault Value) : Prop :=
  ∀ v, x = .ok v → v.Within known

/-- So do the values, if there are any. -/
def EmitsAll (known : String → Prop) (x : Except Fault (List Value)) : Prop :=
  ∀ vs, x = .ok vs → ∀ v ∈ vs, v.Within known

theorem emits_ok (h : v.Within known) : Emits known (.ok v) := by
  rintro _ h'
  exact Except.ok.inj h' ▸ h

/-- Of what is no value nothing is written. -/
theorem emits_error {fault : Fault} : Emits known (.error fault) := by
  intro v h
  cases h

theorem emitsAll_nil : EmitsAll known (.ok []) := by
  rintro _ h
  exact Except.ok.inj h ▸ nofun

/-- What comes after a step that may fail. -/
theorem Emits.after {α : Type} {x : Except Fault α} {f : α → Except Fault Value}
    (h : ∀ a, Emits known (f a)) : Emits known (x >>= f) := fun v hv =>
  have ⟨a, _, hv⟩ := ok_of_bind hv
  h a v hv

theorem Emits.bind {x : Except Fault Value} {f : Value → Except Fault Value}
    (h : Emits known x) (hf : ∀ v, v.Within known → Emits known (f v)) :
    Emits known (x >>= f) := fun v hv =>
  have ⟨u, hx, hv⟩ := ok_of_bind hv
  hf u (h u hx) v hv

theorem EmitsAll.bind {x : Except Fault (List Value)} {f : List Value → Except Fault Value}
    (h : EmitsAll known x) (hf : ∀ vs, (∀ v ∈ vs, v.Within known) → Emits known (f vs)) :
    Emits known (x >>= f) := fun v hv =>
  have ⟨vs, hx, hv⟩ := ok_of_bind hv
  hf vs (h vs hx) v hv

/-- A value that is made of others and reads what they read. -/
theorem EmitsAll.made {x : Except Fault (List Value)} {f : List Value → Value}
    (h : EmitsAll known x) (hf : ∀ vs, (f vs).paths = pathsAll vs) :
    Emits known (do return f (← x)) :=
  h.bind fun vs hvs => emits_ok (.of_parts (hf vs) hvs)

theorem emits_ofNumber (u : Token) : Emits known (ofNumber u) := by
  unfold ofNumber
  split
  · cases Text.signed64? u.literal.toList with
    | none => nofun
    | some n => exact emits_ok (.of_nil rfl)
  · cases Binary64.literal? u.literal.toList with
    | none => nofun
    | some x => exact emits_ok (.of_nil rfl)

/-- A value before others. -/
theorem Emits.cons {x : Except Fault Value} {y : Except Fault (List Value)} (h : Emits known x)
    (h' : EmitsAll known y) : EmitsAll known (do return (← x) :: (← y)) := by
  intro vs hv
  obtain ⟨v, hx, hv⟩ := ok_of_bind hv
  obtain ⟨us, hy, hv⟩ := ok_of_bind hv
  obtain rfl := Except.ok.inj hv
  exact List.forall_mem_cons.2 ⟨h v hx, h' us hy⟩

/-- A path with a known name. -/
theorem EmitsAll.path {root : Token} {line : Option Coord} (hr : known root.literal)
    (h : EmitsAll known (ofPathParts (.token root :: ts))) :
    Emits known (ofTree (.node .path line (.token root :: ts))) := by
  intro v hv
  obtain ⟨vs, hvs, hv⟩ := ok_of_bind hv
  obtain rfl := Except.ok.inj hv
  have hwithin := h vs hvs
  unfold ofPathParts at hvs
  obtain ⟨rest, -, hvs⟩ := ok_of_bind hvs
  obtain rfl := Except.ok.inj hvs
  rintro parts (hp | ⟨_, hp⟩)
  · exact ⟨root.literal, rfl, hr⟩
  · obtain ⟨u, hu, hp⟩ := mem_pathsAll.1 hp
    exact hwithin u hu parts hp

/-! ## The first nodes of a row -/

theorem ofFirst_zero (ps : List Tree) : ofFirst 0 ps = .ok [] := by
  induction ps with
  | nil => rfl
  | cons p ps ih =>
    cases p with
    | token u => simpa [ofFirst] using ih
    | node r l inner => rfl

theorem EmitsAll.ofNode (d : Defect) (h : EmitsAll known (ofFirst 1 ps)) :
    Emits known (ofNode d ps) := by
  induction ps with
  | nil => nofun
  | cons p ps ih =>
    cases p with
    | token u => exact ih (by simpa [ofFirst] using h)
    | node r l inner =>
      intro v hv
      have hv : ofTree (.node r l inner) = .ok v := hv
      exact h [v] (by simp [ofFirst, hv, ofFirst_zero]; rfl) v (by simp)

theorem ofNode_eq {d : Defect} {t : Tree} (h : (ps.filter Tree.isNode)[0]? = some t) :
    Value.ofNode d ps = ofTree t := by
  induction ps with
  | nil => cases h
  | cons p ps ih =>
    cases p with
    | token u => exact ih (by simpa [Tree.isNode] using h)
    | node r l inner =>
      obtain rfl : Tree.node r l inner = t := by simpa [Tree.isNode, List.filter_cons] using h
      rfl

/-- An argument reads what its value does. -/
theorem EmitsAll.ofArgument {rule : Rule} {line : Option Coord} (h : EmitsAll known (ofFirst 1 ps)) :
    Emits known (Value.ofArgument (.node rule line ps)) := by
  intro v hv
  unfold Value.ofArgument at hv
  split at hv
  · rename_i called value _ hnode
    obtain ⟨u, hu, hv⟩ := ok_of_bind hv
    obtain rfl := Except.ok.inj hv
    have hvalue : Value.ofNode .badArgument ps = .ok u := (ofNode_eq hnode).trans hu
    exact h.ofNode .badArgument u hvalue
  · cases hv

/-- An entry of a map, before others. -/
theorem EmitsAll.entry {rule : Rule} {line : Option Coord} (h : EmitsAll known (ofFirst 2 ps))
    (h' : EmitsAll known (ofEntries ts)) : EmitsAll known (ofEntries (.node rule line ps :: ts)) := by
  intro vs hv
  unfold ofEntries at hv
  dsimp only at hv
  split at hv
  · cases hv
  · obtain ⟨us, hus, hv⟩ := ok_of_bind hv
    split at hv
    · rename_i key item
      obtain ⟨rest, hrest, hv⟩ := ok_of_bind hv
      obtain rfl := Except.ok.inj hv
      have hentry : (Value.entry key item).paths = pathsAll [key, item] := by simp [paths, pathsAll]
      exact List.forall_mem_cons.2 ⟨.of_parts hentry (h _ hus), h' rest hrest⟩
    · cases hv

/-- A part of a path, before others. -/
theorem Emits.part {rule : Rule} {line : Option Coord} (h : Emits known (ofPathPart ps))
    (h' : EmitsAll known (ofPathParts ts)) :
    EmitsAll known (ofPathParts (.node rule line ps :: ts)) := by
  rw [ofPathParts_node]
  exact h.cons h'

/-- What an index is reads what its value does. -/
theorem EmitsAll.ofPathPart (h : EmitsAll known (ofFirst 1 ps)) : Emits known (Value.ofPathPart ps) := by
  unfold Value.ofPathPart
  split
  · exact emits_ok (.of_nil rfl)
  · exact h.ofNode _

end Value

namespace Script

open Value (Emits EmitsAll)

variable {known : String → Prop} {t : Tree}

/-- A record that is filled with the value reads only known names. -/
def Fills (known : String → Prop) (t : Tree) : Prop :=
  ∀ r r', fill r t = .ok r' → ∀ v ∈ r'.args, v.Within known

/-- A value that is no call fills a record by itself. -/
theorem Fills.of_emits (hc : t.isCall = false) (h : Emits known (Value.ofTree t)) : Fills known t := by
  intro r r' hr
  have hval : ∀ {f : Value → Record}, (∀ v, (f v).args = [v]) →
      (Value.ofTree t >>= fun v => pure (f v)) = .ok r' → ∀ v ∈ r'.args, v.Within known := by
    intro f hf hr
    obtain ⟨v, hv, hr⟩ := ok_of_bind hr
    obtain rfl := Except.ok.inj hr
    rw [hf]
    exact List.forall_mem_singleton.2 (h v hv)
  unfold fill at hr
  split at hr
  · simp_all [Tree.isCall, Rule.isCall]
  · simp_all [Tree.isCall, Rule.isCall]
  · simp_all [Tree.isCall, Rule.isCall]
  all_goals exact hval (fun _ => rfl) hr

/-- A call fills a record with its arguments. -/
theorem Fills.of_arguments {rule : Rule} {line : Option Coord} {ps : List Tree}
    (hr : rule = .serviceCall ∨ rule = .functionCall) (h : EmitsAll known (Value.ofArguments ps)) :
    Fills known (.node rule line ps) := by
  intro r r' hf
  rcases hr with rfl | rfl
  · obtain ⟨_, -, hf⟩ := ok_of_bind hf
    obtain ⟨vs, hvs, hf⟩ := ok_of_bind hf
    obtain rfl := Except.ok.inj hf
    exact h vs hvs
  · obtain ⟨_, -, hf⟩ := ok_of_bind hf
    obtain ⟨vs, hvs, hf⟩ := ok_of_bind hf
    obtain rfl := Except.ok.inj hf
    exact h vs hvs

/-- A link reads what its arguments do. -/
theorem emits_ofMutation {line : Option Coord} {ps : List Tree} (h : EmitsAll known (Value.ofArguments ps)) :
    Emits known (Value.ofMutation (.node .mutationFragment line ps)) := by
  unfold Value.ofMutation
  refine .after fun called => h.bind fun vs hvs => Value.emits_ok ?_
  exact .of_parts rfl hvs

/-- A mutation fills a record with its subject and its links. -/
theorem Fills.of_mutation {line : Option Coord} {subject : Tree} {ts : List Tree}
    (hn : subject.isNode = true) (hs : subject.isA .mutationFragment = false)
    (h : Emits known (Value.ofTree subject))
    (hl : EmitsAll known ((ts.filter (·.isA .mutationFragment)).mapM Value.ofMutation)) :
    Fills known (.node .mutation line (subject :: ts)) := by
  intro r r' hf
  obtain ⟨v, hv, hf⟩ := ok_of_bind hf
  obtain ⟨vs, hvs, hf⟩ := ok_of_bind hf
  obtain rfl := Except.ok.inj hf
  rw [Tree.findAll, Tree.parts, List.filter_cons_of_neg (by simp [hs])] at hvs
  cases subject with
  | token u => simp [Tree.isNode] at hn
  | node rule own ps => exact List.forall_mem_cons.2 ⟨h v hv, hl vs hvs⟩

end Script

end StoryLang
