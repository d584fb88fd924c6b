/-
A concise document can be filled up again.

What a concise document leaves out says nothing, but it is missed where it
stood. An object of a document shows by its tag, and a record by where it is,
which members it had, and each member has only one value that says nothing. So
all of them can be put back, as long as nothing is left out of a list and a
text that is there is not empty.
-/
import Mathlib.Data.List.Forall2
import StoryLang.Proofs.Coord
import StoryLang.Script.OfTree

namespace StoryLang

namespace Json

/-! ## Putting members back -/

/-- The members with these names, in their order. One that is missing has the value given here. -/
def fill : List (String × Json) → List (String × Json) → List (String × Json)
  | [], _ => []
  | (key, missing) :: layout, [] => (key, missing) :: fill layout []
  | (key, missing) :: layout, (k, v) :: members =>
    if k = key then (key, v) :: fill layout members
    else (key, missing) :: fill layout ((k, v) :: members)

/-- The value that is missed, or one that `f` restores from what is left of it. -/
def Returns (f : Json → Json) (missing v : Json) : Prop :=
  if v.clean.isBlank then v = missing else f v.clean = v

/-- What is left of a row of members, each changed by its name. -/
def leftOver (f : String → Json → Json) (members : List (String × Json)) : List (String × Json) :=
  (cleanMembers members).map fun p => (p.1, f p.1 p.2)

/-- A row of members has the names of a layout, each once, and `f` brings each member back. -/
structure Fills (f : String → Json → Json) (layout members : List (String × Json)) : Prop where
  nodup : (members.map (·.1)).Nodup
  each : List.Forall₂ (fun d m => m.1 = d.1 ∧ Returns (f m.1) d.2 m.2) layout members

variable {f : String → Json → Json} {layout members : List (String × Json)} {key : String} {v : Json}

theorem leftOver_blank (h : v.clean.isBlank = true) :
    leftOver f ((key, v) :: members) = leftOver f members := by
  simp [leftOver, cleanMembers, h]

theorem leftOver_kept (h : v.clean.isBlank = false) :
    leftOver f ((key, v) :: members) = (key, f key v.clean) :: leftOver f members := by
  simp [leftOver, cleanMembers, h]

theorem mem_leftOver {p : String × Json} (h : p ∈ leftOver f members) :
    p.1 ∈ members.map (·.1) := by
  induction members with
  | nil => cases h
  | cons q members ih =>
    obtain ⟨key, v⟩ := q
    cases hv : v.clean.isBlank with
    | true =>
      rw [leftOver_blank hv] at h
      exact List.mem_cons_of_mem _ (ih h)
    | false =>
      rw [leftOver_kept hv] at h
      rcases List.mem_cons.1 h with rfl | h
      · exact List.mem_cons_self
      · exact List.mem_cons_of_mem _ (ih h)

theorem kept_mem_leftOver (hm : (key, v) ∈ members) (h : v.clean.isBlank = false) :
    (key, f key v.clean) ∈ leftOver f members := by
  induction members with
  | nil => cases hm
  | cons q members ih =>
    obtain ⟨k, u⟩ := q
    rcases List.mem_cons.1 hm with heq | hm
    · obtain ⟨rfl, rfl⟩ := Prod.mk.inj heq
      rw [leftOver_kept h]
      exact List.mem_cons_self
    · cases hu : u.clean.isBlank with
      | true => rw [leftOver_blank hu]; exact ih hm
      | false => rw [leftOver_kept hu]; exact List.mem_cons_of_mem _ (ih hm)

/-- Filling what is left of a row of members restores the row. -/
theorem Fills.fill_leftOver (h : Fills f layout members) :
    fill layout (leftOver f members) = members := by
  obtain ⟨hn, h⟩ := h
  induction h with
  | nil => rfl
  | @cons d m layout members hd _ ih =>
    obtain ⟨_, missing⟩ := d
    obtain ⟨key, v⟩ := m
    obtain ⟨rfl, hv⟩ := hd
    obtain ⟨hk, hn⟩ := List.nodup_cons.1 hn
    have ih := ih hn
    unfold Returns at hv
    split at hv
    · rename_i hblank
      have hne : ∀ p ∈ leftOver f members, p.1 ≠ key := by
        rintro p hp rfl
        have hmem := mem_leftOver hp
        exact hk hmem
      obtain rfl : v = missing := hv
      rw [leftOver_blank hblank]
      -- the member that comes next belongs to another name
      cases hl : leftOver f members with
      | nil => rw [fill, ← hl, ih]
      | cons p others =>
        rw [fill, if_neg (hne p (by simp [hl])), ← hl, ih]
    · rename_i hkept
      have hkept : v.clean.isBlank = false := by simpa using hkept
      rw [leftOver_kept hkept, fill, if_pos rfl, ih, show f key v.clean = v from hv]

/-! ## Tagged objects -/

/-- The members of a tagged object besides its tag, with what they are if they are missing. What a
type is made of is a member only if there is something. -/
def layoutOf (tag : String) (members : List (String × Json)) : List (String × Json) :=
  match tag with
  | "boolean" => [("boolean", bool false)]
  | "int" => [("int", null)]
  | "float" => [("float", null)]
  | "string" => [("string", str "")]
  | "list" | "dict" => [("items", arr [])]
  | "path" => [("paths", arr [])]
  | "expression" => [("expression", str ""), ("values", arr [])]
  | "type_cast" => [("type", null), ("value", null)]
  | "type" =>
    if members.any (·.1 = "values") then [("type", str ""), ("values", arr [])]
    else [("type", str "")]
  | "arg" => [("name", str ""), ("arg", null)]
  | "mutation" => [("mutation", str ""), ("args", arr [])]
  | _ => []

theorem layoutOf_type_alone (h : ∀ v, ("values", v) ∉ members) :
    layoutOf "type" members = [("type", str "")] :=
  if_neg (by simpa using h)

theorem layoutOf_type_parts (h : ("values", v) ∈ members) :
    layoutOf "type" members = [("type", str ""), ("values", arr [])] :=
  if_pos (by simpa using ⟨v, h⟩)

/-- The members of a tagged object, all of them. -/
def tagFill : List (String × Json) → List (String × Json)
  | ("$OBJECT", str tag) :: members => ("$OBJECT", str tag) :: fill (layoutOf tag members) members
  | members => members

mutual

/-- A value with what a concise document leaves out of it. -/
def expand : Json → Json
  | arr items => arr (expandItems items)
  | obj members => obj (tagFill (expandMembers members))
  | null => null
  | bool b => bool b
  | int n => int n
  | float x => float x
  | str s => str s

def expandItems : List Json → List Json
  | [] => []
  | v :: rest => expand v :: expandItems rest

def expandMembers : List (String × Json) → List (String × Json)
  | [] => []
  | (key, v) :: rest => (key, expand v) :: expandMembers rest

end

theorem expandMembers_clean (members : List (String × Json)) :
    expandMembers (cleanMembers members) = leftOver (fun _ => expand) members := by
  unfold leftOver
  induction cleanMembers members with
  | nil => rfl
  | cons p others ih => simp [expandMembers, ih]

/-- A value says something and comes back from its concise form. -/
structure Restored (v : Json) : Prop where
  kept : v.clean.isBlank = false
  restored : expand v.clean = v

theorem Restored.returns (h : Restored v) (missing : Json) : Returns expand missing v := by
  rw [Returns, if_neg (by simp [h.kept]), h.restored]

theorem returns_str (s : String) : Returns expand (str "") (str s) := by
  unfold Returns
  split
  · rename_i hs
    have hs : s = "" := by simpa [clean, isBlank] using hs
    rw [hs]
  · rfl

theorem returns_arr {items : List Json} (h : expandItems (cleanItems items) = items) :
    Returns expand (arr []) (arr items) := by
  unfold Returns
  split
  · rename_i hs
    have hs : cleanItems items = [] := by simpa [clean, isBlank] using hs
    rw [← h, hs]
    rfl
  · rw [clean, expand, h]

theorem restored_tagged {tag : String} {members : List (String × Json)} (ht : tag ≠ "")
    (h : Fills (fun _ => expand) (layoutOf tag (leftOver (fun _ => expand) members)) members) :
    Restored (Value.tagged tag members) := by
  have hclean : (Value.tagged tag members).clean = .obj (("$OBJECT", .str tag) :: cleanMembers members) := by
    simp [Value.tagged, clean, cleanMembers, isBlank, ht]
  refine ⟨by rw [hclean]; rfl, ?_⟩
  rw [hclean, expand, expandMembers, expandMembers_clean]
  show obj (("$OBJECT", str tag) :: fill _ _) = _
  rw [h.fill_leftOver]
  rfl

end Json

/-! ## Values -/

namespace Value

mutual

/-- No name that is written bare is empty. -/
def Named : Value → Prop
  | null | boolean _ | int _ | float _ | string _ => True
  | name s => s ≠ ""
  | list vs | dict vs | path vs | expression _ vs | type _ vs | mutation _ vs => AllNamed vs
  | entry v w | cast v w => v.Named ∧ w.Named
  | argument _ v => v.Named

def AllNamed : List Value → Prop
  | [] => True
  | v :: vs => v.Named ∧ AllNamed vs

end

open Json

mutual

theorem restored_toJson (v : Value) (h : v.Named) : Restored v.toJson := by
  cases v with
  | null => exact restored_tagged (by simp) ⟨by simp, .nil⟩
  | boolean b =>
    refine restored_tagged (by simp) ⟨by simp, .cons ⟨rfl, ?_⟩ .nil⟩
    cases b <;> rfl
  | int n => exact restored_tagged (by simp) ⟨by simp, .cons ⟨rfl, rfl⟩ .nil⟩
  | float x =>
    refine restored_tagged (by simp) ⟨by simp, .cons ⟨rfl, ?_⟩ .nil⟩
    cases x <;> rfl
  | string s => exact restored_tagged (by simp) ⟨by simp, .cons ⟨rfl, returns_str s⟩ .nil⟩
  | list vs | dict vs | path vs =>
    have hvs := returns_arr (restored_allToJson vs h)
    exact restored_tagged (by simp) ⟨by simp, .cons ⟨rfl, hvs⟩ .nil⟩
  | entry v w =>
    have hv := restored_toJson v h.1
    have hw := restored_toJson w h.2
    have hclean : (entry v w).toJson.clean = .arr [v.toJson.clean, w.toJson.clean] := by
      simp [toJson, clean, cleanItems, hv.kept, hw.kept]
    refine ⟨by rw [hclean]; rfl, ?_⟩
    rw [hclean, expand, expandItems, expandItems, expandItems, hv.restored, hw.restored, toJson]
  | name s =>
    refine ⟨?_, rfl⟩
    have hs : s ≠ "" := h
    simp [toJson, clean, isBlank, hs]
  | expression operation vs =>
    have hvs := returns_arr (restored_allToJson vs h)
    exact restored_tagged (by simp)
      ⟨by simp, .cons ⟨rfl, returns_str _⟩ (.cons ⟨rfl, hvs⟩ .nil)⟩
  | cast v w =>
    have hv := restored_toJson v h.1
    have hw := restored_toJson w h.2
    exact restored_tagged (by simp)
      ⟨by simp, .cons ⟨rfl, hv.returns _⟩ (.cons ⟨rfl, hw.returns _⟩ .nil)⟩
  | type known vs =>
    have hvs := returns_arr (restored_allToJson vs h)
    cases vs with
    | nil =>
      refine restored_tagged (by simp) ⟨by simp, ?_⟩
      rw [layoutOf_type_alone fun v hv => by simpa using mem_leftOver hv]
      exact .cons ⟨rfl, returns_str _⟩ .nil
    | cons v vs =>
      have hkept : (arr (allToJson (v :: vs))).clean.isBlank = false := by
        simp only [allToJson, clean, cleanItems, (restored_toJson v h.1).kept]
        rfl
      refine restored_tagged (by simp) ⟨by simp, ?_⟩
      rw [layoutOf_type_parts (kept_mem_leftOver (by simp) hkept)]
      exact .cons ⟨rfl, returns_str _⟩ (.cons ⟨rfl, hvs⟩ .nil)
  | argument given v =>
    have hv := restored_toJson v h
    exact restored_tagged (by simp)
      ⟨by simp, .cons ⟨rfl, returns_str _⟩ (.cons ⟨rfl, hv.returns _⟩ .nil)⟩
  | mutation called vs =>
    have hvs := returns_arr (restored_allToJson vs h)
    exact restored_tagged (by simp)
      ⟨by simp, .cons ⟨rfl, returns_str _⟩ (.cons ⟨rfl, hvs⟩ .nil)⟩

theorem restored_allToJson (vs : List Value) (h : AllNamed vs) :
    expandItems (cleanItems (allToJson vs)) = allToJson vs := by
  cases vs with
  | nil => rfl
  | cons v vs =>
    have hv := restored_toJson v h.1
    simp [allToJson, cleanItems, expandItems, hv.kept, hv.restored, restored_allToJson vs h.2]

end

/-- Something is left of a list of values if it has one. -/
theorem cleanItems_ne {vs : List Value} (h : AllNamed vs) (hne : vs ≠ []) :
    cleanItems (allToJson vs) ≠ [] := by
  intro hc
  have hr := restored_allToJson vs h
  rw [hc] at hr
  cases vs with
  | nil => exact hne rfl
  | cons v vs => cases hr

end Value

/-! ## Records and documents -/

namespace Json

/-- What a concise document leaves as it is. -/
theorem returns_unchanged {missing v : Json} (h : v.clean = v) (hb : v.isBlank = true → v = missing) :
    Returns (fun v => v) missing v := by
  rw [Returns, h]
  split
  · exact hb ‹_›
  · rfl

/-- A text comes back if it is not empty where there is one. -/
theorem returns_ofText? {f : Json → Json} {o : Option String} (h : o ≠ some "")
    (hf : ∀ s, f (str s) = str s) : Returns f null (ofText? o) := by
  unfold Returns
  cases o with
  | none => rfl
  | some s =>
    have hs : s ≠ "" := fun hs => h (hs ▸ rfl)
    rw [if_neg (by simp [ofText?, clean, isBlank, hs])]
    exact hf s

/-- Texts stay as they are in a list, as none of them is empty. -/
theorem cleanItems_strs {texts : List String} (h : "" ∉ texts) :
    cleanItems (texts.map str) = texts.map str := by
  induction texts with
  | nil => rfl
  | cons s texts ih =>
    simp only [List.mem_cons, not_or] at h
    simp [cleanItems, clean, isBlank, Ne.symm h.1, ih h.2]

theorem expandItems_strs (texts : List String) : expandItems (texts.map str) = texts.map str := by
  induction texts with
  | nil => rfl
  | cons s texts ih => simp [expandItems, expand, ih]

/-- The members of a record, with what they are if they are missing. -/
def recordLayout : List (String × Json) :=
  [("method", str ""), ("ln", str ""), ("container", null), ("command", null), ("name", null),
   ("function", null), ("args", arr []), ("output", arr []), ("enter", null), ("exit", null),
   ("parent", null), ("next", null), ("src", null)]

/-- A record with what a concise document leaves out of it. -/
def expandRecord : Json → Json
  | obj members => obj (fill recordLayout (expandMembers members))
  | v => v

/-- The records of a script with what a concise document leaves out of them. -/
def expandScript : Json → Json
  | obj members => obj (members.map fun (line, r) => (line, expandRecord r))
  | v => v

/-- The members of a document, with what they are if they are missing. -/
def documentLayout : List (String × Json) :=
  [("script", obj []), ("entrypoint", null), ("functions", obj []), ("services", arr []),
   ("version", str "")]

/-- A document with what a concise one leaves out. -/
def expandDocument : Json → Json
  | obj members =>
    obj (fill documentLayout (members.map fun (key, v) =>
      (key, if key = "script" then expandScript v else v)))
  | v => v

end Json

/-- A record in which everything that is there says something. -/
structure Record.Full (r : Record) : Prop where
  container : r.container ≠ some ""
  command : r.command ≠ some ""
  target : ∀ parts ∈ r.target, parts ≠ [] ∧ Value.AllNamed parts
  function : r.function ≠ some ""
  args : Value.AllNamed r.args
  output : "" ∉ r.output
  source : r.source ≠ some ""

namespace Record.Full

open Json

variable {r : Record}

/-- A record says at least what it does. -/
theorem kept (r : Record) : r.toJson.clean.isBlank = false := by
  have hm : r.method.name ≠ "" := by cases r.method <;> simp [Method.name]
  simp [Record.toJson, clean, cleanMembers, isBlank, hm]

theorem target_returns (h : r.Full) : Returns expand null
    (match r.target with
      | some parts => arr (Value.allToJson parts)
      | none => null) := by
  cases ht : r.target with
  | none => rfl
  | some parts =>
    obtain ⟨hne, hnamed⟩ := h.target parts ht
    rw [Returns, if_neg (by simpa [clean, isBlank] using Value.cleanItems_ne hnamed hne), clean, expand,
      Value.restored_allToJson parts hnamed]

theorem fills (h : r.Full) : ∃ members, r.toJson = obj members ∧
    Fills (fun _ => expand) recordLayout members := by
  have text : ∀ {o : Option String}, o ≠ some "" → Returns expand null (ofText? o) :=
    fun ho => returns_ofText? ho fun _ => rfl
  have coord : ∀ o, Returns expand null (Record.coordJson o) := by
    intro o
    exact text (by cases o <;> simp [Coord.text_ne])
  have hargs := returns_arr (Value.restored_allToJson r.args h.args)
  have houtput : Returns expand (arr []) (arr (r.output.map str)) :=
    returns_arr (by rw [cleanItems_strs h.output, expandItems_strs])
  refine ⟨_, (rfl : r.toJson = obj _), by simp, ?_⟩
  exact .cons ⟨rfl, returns_str _⟩ <| .cons ⟨rfl, returns_str _⟩ <|
    .cons ⟨rfl, text h.container⟩ <| .cons ⟨rfl, text h.command⟩ <|
    .cons ⟨rfl, h.target_returns⟩ <| .cons ⟨rfl, text h.function⟩ <|
    .cons ⟨rfl, hargs⟩ <| .cons ⟨rfl, houtput⟩ <|
    .cons ⟨rfl, coord _⟩ <| .cons ⟨rfl, coord _⟩ <| .cons ⟨rfl, coord _⟩ <|
    .cons ⟨rfl, coord _⟩ <| .cons ⟨rfl, text h.source⟩ .nil

theorem restored (h : r.Full) : expandRecord r.toJson.clean = r.toJson := by
  obtain ⟨members, hr, hf⟩ := h.fills
  rw [hr, clean, expandRecord, expandMembers_clean, hf.fill_leftOver]

end Record.Full

/-- A story in whose document everything that is there says something. -/
structure CompiledStory.Full (c : CompiledStory) : Prop where
  records : ∀ r ∈ c.script.records, r.Full
  services : "" ∉ c.services
  tree : c.tree = none

namespace CompiledStory.Full

open Json

variable {c c' : CompiledStory}

theorem script_returns {rs : List Record} (h : ∀ r ∈ rs, r.Full) :
    Returns expandScript (obj []) (obj (rs.map fun r => (r.line.text, r.toJson))) := by
  have hleft : cleanMembers (rs.map fun r => (r.line.text, r.toJson)) =
      rs.map fun r => (r.line.text, r.toJson.clean) := by
    clear h
    induction rs with
    | nil => rfl
    | cons r rs ih => simp [cleanMembers, Record.Full.kept, ih]
  unfold Returns
  rw [clean, hleft]
  split
  · rename_i hblank
    have hrs : rs = [] := by simpa [isBlank] using hblank
    rw [hrs]
    rfl
  · rw [expandScript, List.map_map]
    congr 1
    exact List.map_congr_left fun r hr => by simp [(h r hr).restored]

theorem functions_clean (entries : List (String × Coord)) :
    (obj (entries.map fun (name, line) => (name, str line.text))).clean =
      obj (entries.map fun (name, line) => (name, str line.text)) := by
  rw [clean]
  congr 1
  induction entries with
  | nil => rfl
  | cons p rest ih => simp [cleanMembers, clean, isBlank, Coord.text_ne, ih]

/-- The full document can be told from the concise one. -/
theorem expand_document (h : c.Full) : expandDocument (c.document true) = c.document false := by
  have hfills : Fills (fun key v => if key = "script" then expandScript v else v) documentLayout
      [("script", obj (c.script.records.map fun r => (r.line.text, r.toJson))),
       ("entrypoint", Record.coordJson c.entrypoint),
       ("functions", obj (c.script.functions.entries.map fun (name, line) => (name, str line.text))),
       ("services", arr (c.services.map str)), ("version", str version)] := by
    refine ⟨by simp, .cons ⟨rfl, script_returns h.records⟩ <| .cons ⟨rfl, ?_⟩ <|
      .cons ⟨rfl, ?_⟩ <| .cons ⟨rfl, ?_⟩ <| .cons ⟨rfl, rfl⟩ .nil⟩
    · exact returns_ofText? (by cases c.entrypoint <;> simp [Coord.text_ne]) fun _ => rfl
    · exact returns_unchanged (functions_clean _) fun hb => by simpa [isBlank] using hb
    · exact returns_unchanged (by rw [clean, cleanItems_strs h.services]) fun hb => by
        simpa [isBlank] using hb
  rw [document, document, if_pos rfl, if_neg (by simp), toJson, h.tree, List.append_nil, clean,
    expandDocument]
  exact congrArg obj hfills.fill_leftOver

/-- Stories with the same concise document have the same full one. -/
theorem document_eq (h : c.Full) (h' : c'.Full) (hd : c.document true = c'.document true) :
    c.document false = c'.document false := by
  rw [← h.expand_document, hd, h'.expand_document]

end CompiledStory.Full

end StoryLang
