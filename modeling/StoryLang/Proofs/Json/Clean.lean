/-
What is left of a JSON value when it is cleaned.

A list or an object may become empty only by losing all that was in it, so
whether it says nothing is seen after its parts are clean. That is enough: one
pass leaves nothing blank inside the value, a second pass finds nothing to do,
and besides blank parts nothing goes. `Json.clean_normal` puts this together.
-/
import Mathlib.Data.List.Forall2
import StoryLang.Json.Basic

namespace StoryLang.Json

variable {v w : Json} {items : List Json} {members : List (String × Json)}

/-! ## Values by their parts -/

/-- Whether a value is neither a list nor an object. -/
def isScalar : Json → Bool
  | arr _ | obj _ => false
  | null | bool _ | int _ | float _ | str _ => true

/-- What holds of a list and of an object if it holds of their parts holds of every value, as long
as it holds of those without parts. -/
@[elab_as_elim]
theorem byParts {motive : Json → Prop} (scalar : ∀ v, v.isScalar = true → motive v)
    (arr : ∀ items, (∀ v ∈ items, motive v) → motive (.arr items))
    (obj : ∀ members, (∀ p ∈ members, motive p.2) → motive (.obj members)) : ∀ v, motive v
  | .arr items => arr items fun v _ => byParts scalar arr obj v
  | .obj members => obj members fun p _ => byParts scalar arr obj p.2
  | .null => scalar _ rfl
  | .bool _ => scalar _ rfl
  | .int _ => scalar _ rfl
  | .float _ => scalar _ rfl
  | .str _ => scalar _ rfl
termination_by v => sizeOf v
decreasing_by
  · have := List.sizeOf_lt_of_mem ‹_›
    simp only [Json.arr.sizeOf_spec]
    omega
  · have := List.sizeOf_lt_of_mem ‹p ∈ members›
    cases p
    simp only [Json.obj.sizeOf_spec, Prod.mk.sizeOf_spec] at *
    omega

theorem clean_scalar (h : v.isScalar = true) : v.clean = v := by
  cases v <;> first | rfl | cases h

theorem cleanItems_eq (items : List Json) :
    cleanItems items = (items.map clean).filter fun v => !v.isBlank := by
  induction items with
  | nil => rfl
  | cons v items ih =>
    rw [cleanItems, ih]
    cases h : v.clean.isBlank <;> simp [h]

theorem cleanMembers_eq (members : List (String × Json)) : cleanMembers members =
    (members.map fun p => (p.1, p.2.clean)).filter fun p => !p.2.isBlank := by
  induction members with
  | nil => rfl
  | cons p members ih =>
    obtain ⟨key, v⟩ := p
    rw [cleanMembers, ih]
    cases h : v.clean.isBlank <;> simp [h]

/-! ## Values with nothing blank inside -/

mutual

/-- The items and the values of members in a value, at any depth. -/
def inside : Json → List Json
  | arr items => insideItems items
  | obj members => insideMembers members
  | null | bool _ | int _ | float _ | str _ => []

/-- A row of items and what is inside them. -/
def insideItems : List Json → List Json
  | [] => []
  | v :: rest => v :: (inside v ++ insideItems rest)

/-- The values of a row of members and what is inside them. -/
def insideMembers : List (String × Json) → List Json
  | [] => []
  | (_, v) :: rest => v :: (inside v ++ insideMembers rest)

end

/-- A value in which no item and no member is null, false, an empty text, an empty list or an empty
object, at any depth. -/
def Tidy (v : Json) : Prop :=
  ∀ w ∈ v.inside, w ≠ null ∧ w ≠ bool false ∧ w ≠ str "" ∧ w ≠ arr [] ∧ w ≠ obj []

theorem isBlank_eq_false :
    v.isBlank = false ↔ v ≠ null ∧ v ≠ bool false ∧ v ≠ str "" ∧ v ≠ arr [] ∧ v ≠ obj [] := by
  cases v with
  | bool b => cases b <;> simp [isBlank]
  | str s => simp [isBlank]
  | arr items => cases items <;> simp [isBlank]
  | obj members => cases members <;> simp [isBlank]
  | null | int | float => simp [isBlank]

theorem tidy_scalar (h : v.isScalar = true) : v.Tidy := by
  cases v <;> simp_all [Tidy, inside, isScalar]

theorem mem_insideItems : w ∈ insideItems items ↔ ∃ v ∈ items, w = v ∨ w ∈ v.inside := by
  induction items with
  | nil => simp [insideItems]
  | cons v items ih => simp [insideItems, ih, or_assoc]

theorem mem_insideMembers :
    w ∈ insideMembers members ↔ ∃ p ∈ members, w = p.2 ∨ w ∈ p.2.inside := by
  induction members with
  | nil => simp [insideMembers]
  | cons p members ih => simp [insideMembers, ih, or_assoc]

theorem tidy_arr : (arr items).Tidy ↔ ∀ v ∈ items, v.isBlank = false ∧ v.Tidy := by
  simp only [Tidy, inside, mem_insideItems, isBlank_eq_false]
  exact ⟨fun h v hv => ⟨h v ⟨v, hv, .inl rfl⟩, fun w hw => h w ⟨v, hv, .inr hw⟩⟩,
    fun h w ⟨v, hv, hw⟩ => hw.elim (fun he => he ▸ (h v hv).1) ((h v hv).2 w)⟩

theorem tidy_obj : (obj members).Tidy ↔ ∀ p ∈ members, p.2.isBlank = false ∧ p.2.Tidy := by
  simp only [Tidy, inside, mem_insideMembers, isBlank_eq_false]
  exact ⟨fun h p hp => ⟨h p.2 ⟨p, hp, .inl rfl⟩, fun w hw => h w ⟨p, hp, .inr hw⟩⟩,
    fun h w ⟨p, hp, hw⟩ => hw.elim (fun he => he ▸ (h p hp).1) ((h p hp).2 w)⟩

theorem tidy_clean (v : Json) : v.clean.Tidy := by
  induction v using byParts with
  | scalar v h =>
    rw [clean_scalar h]
    exact tidy_scalar h
  | arr items ih =>
    rw [clean, tidy_arr, cleanItems_eq]
    intro w hw
    obtain ⟨hw, hkept⟩ := List.mem_filter.1 hw
    obtain ⟨v, hv, rfl⟩ := List.mem_map.1 hw
    exact ⟨by simpa using hkept, ih v hv⟩
  | obj members ih =>
    rw [clean, tidy_obj, cleanMembers_eq]
    intro q hq
    obtain ⟨hq, hkept⟩ := List.mem_filter.1 hq
    obtain ⟨p, hp, rfl⟩ := List.mem_map.1 hq
    exact ⟨by simpa using hkept, ih p hp⟩

/-- There is nothing to clean in a value with nothing blank inside. -/
theorem Tidy.clean_eq (h : v.Tidy) : v.clean = v := by
  induction v using byParts with
  | scalar v hs => exact clean_scalar hs
  | arr items ih =>
    have hitems := tidy_arr.1 h
    rw [clean, cleanItems_eq, List.map_congr_left fun v hv => ih v hv (hitems v hv).2, List.map_id',
      List.filter_eq_self.2 fun v hv => by rw [(hitems v hv).1]; rfl]
  | obj members ih =>
    have hmembers := tidy_obj.1 h
    rw [clean, cleanMembers_eq,
      List.map_congr_left (g := id) fun p hp => by rw [ih p hp (hmembers p hp).2]; rfl, List.map_id,
      List.filter_eq_self.2 fun p hp => by rw [(hmembers p hp).1]; rfl]

/-! ## What stays -/

mutual

/-- A value with items and members left out at any depth. What stays is in its order. -/
inductive Thinned : Json → Json → Prop where
  | refl (v : Json) : Thinned v v
  | arr {kept items : List Json} (each : List.SublistForall₂ Thinned kept items) :
    Thinned (.arr kept) (.arr items)
  | obj {kept members : List (String × Json)}
    (each : List.SublistForall₂ ThinnedMember kept members) : Thinned (.obj kept) (.obj members)

/-- A member that stays keeps its name. -/
inductive ThinnedMember : String × Json → String × Json → Prop where
  | of (key : String) {kept v : Json} (h : Thinned kept v) : ThinnedMember (key, kept) (key, v)

end

/-- What is left of a row when each part is changed and some are left out. -/
theorem sublistForall₂_filter_map {α β : Type} {R : β → α → Prop} {f : α → β} (p : β → Bool)
    {as : List α} (h : ∀ a ∈ as, R (f a) a) : List.SublistForall₂ R ((as.map f).filter p) as := by
  induction as with
  | nil => exact .nil
  | cons a as ih =>
    have ih := ih fun b hb => h b (List.mem_cons_of_mem a hb)
    rw [List.map_cons, List.filter_cons]
    split
    · exact .cons (h a List.mem_cons_self) ih
    · exact .cons_right ih

theorem thinned_clean (v : Json) : Thinned v.clean v := by
  induction v using byParts with
  | scalar v h =>
    rw [clean_scalar h]
    exact .refl v
  | arr items ih =>
    rw [clean, cleanItems_eq]
    exact .arr (sublistForall₂_filter_map _ ih)
  | obj members ih =>
    rw [clean, cleanMembers_eq]
    exact .obj (sublistForall₂_filter_map _ fun p hp => .of p.1 (ih p hp))

/-- The way to a part of a value from outside to inside: through a member with its name, or through
an item. -/
abbrev Way : Type := List (Option String)

mutual

/-- What is neither a list nor an object in a value, with the ways there, in order. -/
def scalars : Json → List (Way × Json)
  | arr items => scalarsOfItems items
  | obj members => scalarsOfMembers members
  | v => [([], v)]

/-- The same in a row of items. -/
def scalarsOfItems : List Json → List (Way × Json)
  | [] => []
  | v :: rest => (scalars v).map (fun s => (none :: s.1, s.2)) ++ scalarsOfItems rest

/-- The same in a row of members. -/
def scalarsOfMembers : List (String × Json) → List (Way × Json)
  | [] => []
  | (key, v) :: rest => (scalars v).map (fun s => (some key :: s.1, s.2)) ++ scalarsOfMembers rest

end

/-- The scalars of a value that are not null, false or an empty text. -/
def told (v : Json) : List (Way × Json) :=
  v.scalars.filter fun s => s.2 ≠ null ∧ s.2 ≠ bool false ∧ s.2 ≠ str ""

theorem told_blank (h : v.isBlank = true) : v.told = [] := by
  cases v with
  | bool b => cases b <;> simp_all [told, scalars, isBlank]
  | str s => simp_all [told, scalars, isBlank]
  | arr items => cases items <;> simp_all [told, scalars, scalarsOfItems, isBlank]
  | obj members => cases members <;> simp_all [told, scalars, scalarsOfMembers, isBlank]
  | null => simp [told, scalars]
  | int | float => cases h

theorem told_arr (items : List Json) :
    (arr items).told = items.flatMap fun v => v.told.map fun s => (none :: s.1, s.2) := by
  induction items with
  | nil => rfl
  | cons v items ih =>
    rw [List.flatMap_cons, ← ih]
    simp [told, scalars, scalarsOfItems, List.filter_map, Function.comp_def]

theorem told_obj (members : List (String × Json)) :
    (obj members).told = members.flatMap fun p => p.2.told.map fun s => (some p.1 :: s.1, s.2) := by
  induction members with
  | nil => rfl
  | cons p members ih =>
    rw [List.flatMap_cons, ← ih]
    simp [told, scalars, scalarsOfMembers, List.filter_map, Function.comp_def]

/-- What is left out gives nothing. -/
theorem flatMap_filter {α β : Type} {p : α → Bool} {g : α → List β}
    (h : ∀ a, p a = false → g a = []) (as : List α) :
    (as.filter p).flatMap g = as.flatMap g := by
  induction as with
  | nil => rfl
  | cons a as ih => cases ha : p a <;> simp [ha, ih, h a]

theorem told_clean (v : Json) : v.clean.told = v.told := by
  induction v using byParts with
  | scalar v h => rw [clean_scalar h]
  | arr items ih =>
    rw [clean, cleanItems_eq, told_arr, told_arr,
      flatMap_filter fun w hw => by rw [told_blank (by simpa using hw)]; rfl, List.flatMap_map]
    exact List.flatMap_congr fun v hv => by rw [ih v hv]
  | obj members ih =>
    rw [clean, cleanMembers_eq, told_obj, told_obj,
      flatMap_filter fun q hq => by rw [told_blank (by simpa using hq)]; rfl, List.flatMap_map]
    exact List.flatMap_congr fun p hp => by rw [ih p hp]

/-- A clean value has nothing blank inside, is not changed by cleaning it again, and is the value
itself if that has nothing blank inside. It is the value with some items and members left out, the
others in order and under their names, and no scalar that tells something is among those. -/
theorem clean_normal (v : Json) :
    v.clean.Tidy ∧ v.clean.clean = v.clean ∧ (v.Tidy → v.clean = v) ∧ Thinned v.clean v ∧
      v.clean.told = v.told :=
  ⟨tidy_clean v, (tidy_clean v).clean_eq, Tidy.clean_eq, thinned_clean v, told_clean v⟩

/-- A list that is empty but for an object that is empty but for a list is left out, zero is not. -/
theorem clean_normal_nested :
    (obj [("a", null), ("g", arr [null, int 0, obj [("h", arr [])]]), ("i", bool true)]).clean =
        obj [("g", arr [int 0]), ("i", bool true)] ∧
      (obj [("g", arr [int 0]), ("i", bool true)]).Tidy ∧
      (obj [("g", arr [int 0]), ("i", bool true)]).clean =
        obj [("g", arr [int 0]), ("i", bool true)] := by
  have htidy : (obj [("g", arr [int 0]), ("i", bool true)]).Tidy := by
    simp [Tidy, inside, insideMembers, insideItems]
  exact ⟨by decide, htidy, (clean_normal _).2.2.1 htidy⟩

end StoryLang.Json
