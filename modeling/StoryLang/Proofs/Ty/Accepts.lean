/-
Which types take which, and operations on what can be anything.

`any` takes and is taken by every type, and null is taken by every type: so
"takes" is neither one-sided nor transitive. It is reflexive on types whose
objects have each field once, and transitive as long as no part of a type is
one of the two that go everywhere. The common type of two types takes both,
whatever they are.

An operand that can be anything stands for every type it may turn out to be, so
what is said of the operation should take what the operation gives then. It
does for sizes, equality, truth, texts, lists and maps. In arithmetic with an
int the other operand is taken for an int as well, and its quotient for an int
too: there a float comes out that the type does not take.
-/
import StoryLang.Ty.Basic
import StoryLang.Ty.Operation

namespace StoryLang

namespace Ty

@[simp] theorem accepts_any (a : Ty) : a.accepts any = true := by
  cases a <;> rfl

@[simp] theorem accepts_null (a : Ty) : a.accepts null = true := by
  cases a <;> rfl

@[simp] theorem any_accepts (a : Ty) : any.accepts a = true := by
  simp [accepts]

mutual

/-- Whether each object in a type has each of its fields once. -/
def proper : Ty → Bool
  | list a => a.proper
  | map k v => k.proper && v.proper
  | object fields => (fields.map (·.1)).Nodup && properFields fields
  | _ => true

def properFields : List (String × Ty) → Bool
  | [] => true
  | (_, a) :: fields => a.proper && properFields fields

end

mutual

/-- Whether no part of a type is `any` and no map in it is by null. -/
def firm : Ty → Bool
  | any => false
  | list a => a.firm
  | map k v => k != null && k.firm && v.firm
  | object fields => firmFields fields
  | _ => true

def firmFields : List (String × Ty) → Bool
  | [] => true
  | (_, a) :: fields => a.firm && firmFields fields

end

theorem firm_of_field {fields : List (String × Ty)} {name : String} {a : Ty}
    (h : firmFields fields = true) (ha : fieldType? name fields = some a) : a.firm = true := by
  induction fields with
  | nil => cases ha
  | cons field fields ih =>
    obtain ⟨x, b⟩ := field
    simp only [firmFields, Bool.and_eq_true] at h
    by_cases hx : x = name
    · obtain rfl : b = a := by simpa [fieldType?, hx] using ha
      exact h.1
    · exact ih h.2 (by simpa [fieldType?, hx] using ha)

theorem acceptsFields_iff {fields others : List (String × Ty)} :
    acceptsFields fields others = true ↔
      ∀ f ∈ fields, ∃ b, fieldType? f.1 others = some b ∧ f.2.accepts b = true := by
  induction fields with
  | nil => simp [acceptsFields]
  | cons field fields ih =>
    obtain ⟨x, a⟩ := field
    simp only [acceptsFields, Bool.and_eq_true, ih, List.forall_mem_cons]
    cases fieldType? x others <;> simp

theorem fieldType?_of_mem {fields : List (String × Ty)} {f : String × Ty}
    (hd : (fields.map (·.1)).Nodup) (hf : f ∈ fields) : fieldType? f.1 fields = some f.2 := by
  induction fields with
  | nil => cases hf
  | cons g fields ih =>
    simp only [List.map_cons, List.nodup_cons, List.mem_map, not_exists, not_and] at hd
    rcases List.mem_cons.1 hf with rfl | hf
    · simp [fieldType?]
    · have hne : g.1 ≠ f.1 := fun h => hd.1 f hf h.symm
      simpa [fieldType?, hne] using ih hd.2 hf

theorem mem_of_fieldType? {fields : List (String × Ty)} {name : String} {a : Ty}
    (h : fieldType? name fields = some a) : (name, a) ∈ fields := by
  obtain ⟨⟨x, b⟩, hf, rfl⟩ := Option.map_eq_some_iff.1 h
  have hx := List.find?_some hf
  obtain rfl : x = name := by simpa using hx
  exact List.mem_of_find?_eq_some hf

mutual

theorem accepts_self (a : Ty) (h : a.proper = true) : a.accepts a = true := by
  match a with
  | int | float | string | boolean | regex | time | null | any | function _ _ => simp [accepts]
  | service s c => simp [accepts]
  | list a => simpa [accepts] using accepts_self a h
  | map k v =>
    simp only [proper, Bool.and_eq_true] at h
    simp [accepts, accepts_self k h.1, accepts_self v h.2]
  | object fields =>
    simp only [proper, Bool.and_eq_true, decide_eq_true_eq] at h
    simp only [accepts]
    refine acceptsFields_iff.2 fun f hf => ⟨f.2, fieldType?_of_mem h.1 hf, ?_⟩
    exact accepts_selfFields fields h.2 f hf

theorem accepts_selfFields (fields : List (String × Ty)) (h : properFields fields = true) :
    ∀ f ∈ fields, f.2.accepts f.2 = true := by
  match fields with
  | [] => exact nofun
  | (x, a) :: fields =>
    simp only [properFields, Bool.and_eq_true] at h
    exact List.forall_mem_cons.2 ⟨accepts_self a h.1, accepts_selfFields fields h.2⟩

end

/-- A type that null takes is `any` or null. -/
theorem null_accepts {a : Ty} : null.accepts a = true ↔ a = any ∨ a = null := by
  cases a <;> simp [accepts]

theorem acceptsFields_nil {fields : List (String × Ty)} :
    acceptsFields fields [] = true ↔ fields = [] := by
  cases fields <;> simp [acceptsFields, fieldType?]

/-- What takes texts as keys does so as well where a key it takes is asked for. -/
theorem takesText_of_accepted {a b : Ty} (ha : a.firm = true) (hb : b.firm = true) (hn : b ≠ null)
    (ht : a.takesText = true) (h : a.accepts b = true) : b.takesText = true := by
  cases a <;> simp [takesText, firm] at ha ht
  cases b <;> simp [accepts, takesText, firm] at h hb hn ⊢

mutual

/-- Among firm types, what a type takes is taken as well by a type that takes that type. -/
theorem accepts_trans (a : Ty) {b c : Ty} (hb : b.firm = true) (hc : c.firm = true)
    (hab : a.accepts b = true) (hbc : b.accepts c = true) : a.accepts c = true := by
  by_cases hnull : b = null
  · subst hnull
    rcases null_accepts.1 hbc with rfl | rfl <;> simp
  match a with
  | any => simp
  | int | float | string | boolean | regex | time | null | function _ _ | service _ _ =>
    cases b <;> simp [accepts, firm] at hab hb hnull <;> cases c <;> simp_all [accepts]
  | list a =>
    cases b <;> simp [accepts, firm] at hab hb hnull
    cases c <;> simp [accepts, firm] at hbc hc ⊢
    exact accepts_trans a hb hc hab hbc
  | map k v =>
    cases b <;> simp [accepts, firm] at hab hb hnull
    cases c <;> simp [accepts, firm] at hbc hc ⊢
    exact ⟨accepts_trans k hb.1.2 hc.1.2 hab.1 hbc.1, accepts_trans v hb.2 hc.2 hab.2 hbc.2⟩
  | object fields =>
    cases b <;> simp [accepts, firm] at hab hb hnull
    case map k v =>
      cases c <;> simp [accepts, firm] at hbc hc ⊢
      exact ⟨hab.1, takesText_of_accepted hb.1.2 hc.1.2 hc.1.1 hab.2 hbc.1⟩
    case object others =>
      cases c <;> simp [accepts, firm] at hbc hc ⊢
      · exact ⟨acceptsFields_nil.1 (hbc.1 ▸ hab), hbc.2⟩
      · exact acceptsFields_trans fields hb hc hab hbc

theorem acceptsFields_trans (fields : List (String × Ty)) {others third : List (String × Ty)}
    (ho : firmFields others = true) (ht : firmFields third = true)
    (h : acceptsFields fields others = true) (h' : acceptsFields others third = true) :
    acceptsFields fields third = true := by
  match fields with
  | [] => rfl
  | (x, a) :: fields =>
    obtain ⟨⟨b, hb, hab⟩, h⟩ := List.forall_mem_cons.1 (acceptsFields_iff.1 h)
    obtain ⟨c, hc, hbc⟩ := acceptsFields_iff.1 h' _ (mem_of_fieldType? hb)
    refine acceptsFields_iff.2 (List.forall_mem_cons.2 ⟨⟨c, hc, ?_⟩, acceptsFields_iff.1 ?_⟩)
    · exact accepts_trans a (firm_of_field ho hb) (firm_of_field ht hc) hab hbc
    · exact acceptsFields_trans fields ho ht (acceptsFields_iff.2 h) h'

end

/-! ## The common type of types -/

theorem common_cases (a b : Ty) :
    (a.common b = a ∧ a.accepts b = true ∧ a ≠ any) ∨ (a.common b = b ∧ b.accepts a = true ∧ b ≠ any) ∨
      (a.common b = any ∧ (a.accepts b = true → a = any) ∧ (b.accepts a = true → b = any)) := by
  have isAny {t : Ty} : t.isAny = true ↔ t = any := by cases t <;> simp [isAny]
  unfold common
  split
  · rename_i h
    simp only [Bool.and_eq_true, Bool.not_eq_true', ← Bool.not_eq_true, isAny] at h
    exact .inl ⟨rfl, h⟩
  · split
    · rename_i h
      simp only [Bool.and_eq_true, Bool.not_eq_true', ← Bool.not_eq_true, isAny] at h
      exact .inr (.inl ⟨rfl, h⟩)
    · rename_i h h'
      simp only [Bool.and_eq_true, Bool.not_eq_true', ← Bool.not_eq_true, isAny, not_and, Classical.not_not] at h h'
      exact .inr (.inr ⟨rfl, h, h'⟩)

theorem accepts_common {a b : Ty} (ha : a.proper = true) (hb : b.proper = true) :
    (a.common b).accepts a = true ∧ (a.common b).accepts b = true := by
  rcases common_cases a b with ⟨h, htakes, -⟩ | ⟨h, htakes, -⟩ | ⟨h, -, -⟩ <;> rw [h]
  · exact ⟨accepts_self a ha, htakes⟩
  · exact ⟨htakes, accepts_self b hb⟩
  · exact ⟨any_accepts a, any_accepts b⟩

/-! ## The order of types -/

mutual

/-- Whether no part of a type is `any` or null. What a function takes and returns is no part of it. -/
def plain : Ty → Bool
  | any | null => false
  | list a => a.plain
  | map k v => k.plain && v.plain
  | object fields => plainFields fields
  | _ => true

def plainFields : List (String × Ty) → Bool
  | [] => true
  | (_, a) :: fields => a.plain && plainFields fields

end

mutual

theorem firm_of_plain (a : Ty) (h : a.plain = true) : a.firm = true := by
  match a with
  | any | null => simp [plain] at h
  | int | float | string | boolean | regex | time | function _ _ | service _ _ => simp [firm]
  | list a => exact firm_of_plain a h
  | map k v =>
    simp only [plain, Bool.and_eq_true] at h
    have hk : k ≠ null := by
      rintro rfl
      simp [plain] at h
    simp [firm, hk, firm_of_plain k h.1, firm_of_plain v h.2]
  | object fields => exact firm_of_plainFields fields h

theorem firm_of_plainFields (fields : List (String × Ty)) (h : plainFields fields = true) :
    firmFields fields = true := by
  match fields with
  | [] => rfl
  | (x, a) :: fields =>
    simp only [plainFields, Bool.and_eq_true] at h
    simp [firmFields, firm_of_plain a h.1, firm_of_plainFields fields h.2]

end

/-- Away from `any` and null, "takes" orders the types: each takes itself, and what a type takes is
taken as well by whatever takes that type. `any` takes and is taken by every type, every type
takes null, and the common type of any two types takes both. -/
theorem accepts_ordered :
    (∀ a : Ty, a.proper = true → a.accepts a = true) ∧
    (∀ a b c : Ty, b.plain = true → c.plain = true →
      a.accepts b = true → b.accepts c = true → a.accepts c = true) ∧
    (∀ a : Ty, any.accepts a = true ∧ a.accepts any = true ∧ a.accepts null = true) ∧
    ∀ a b : Ty, a.proper = true → b.proper = true →
      (a.common b).accepts a = true ∧ (a.common b).accepts b = true := by
  refine ⟨accepts_self, fun a b c hb hc hab hbc => ?_,
    fun a => ⟨any_accepts a, accepts_any a, accepts_null a⟩, fun a b => accepts_common⟩
  exact accepts_trans a (firm_of_plain b hb) (firm_of_plain c hc) hab hbc

/-- A record takes one with more fields, and that one takes one with ints for its floats. -/
theorem accepts_ordered_records :
    let wide := object [("x", list float), ("y", function [any] null)]
    let narrow := object [("x", list int), ("y", function [] any), ("z", map string boolean)]
    (wide.plain = true ∧ narrow.plain = true ∧
      anyObject.accepts wide = true ∧ wide.accepts narrow = true ∧ anyObject.accepts narrow = true) ∧
    wide.proper = true ∧ narrow.proper = true ∧ wide.accepts wide = true ∧
      (narrow.common wide).accepts narrow = true ∧ (narrow.common wide).accepts wide = true := by
  intro wide narrow
  obtain ⟨hself, htrans, -, hcommon⟩ := accepts_ordered
  have hwide : wide.plain = true ∧ wide.proper = true := by decide
  have hnarrow : narrow.plain = true ∧ narrow.proper = true := by decide
  have hab : anyObject.accepts wide = true := by decide
  have hbc : wide.accepts narrow = true := by decide
  exact ⟨⟨hwide.1, hnarrow.1, hab, hbc, htrans _ _ _ hwide.1 hnarrow.1 hab hbc⟩,
    hwide.2, hnarrow.2, hself _ hwide.2, hcommon _ _ hnarrow.2 hwide.2⟩

end Ty

end StoryLang

namespace StoryLang.Ty

/-! ## Arithmetic on an operand that can be anything -/

/-- What is said of arithmetic on a type and something unknown. -/
def guess (t : Ty) : Ty := if t.isNumeric then t else any

theorem arithmetic?_any (op : Symbol) (t : Ty) : arithmetic? op any t = some t.guess := by
  simp [arithmetic?, guess]

/-- With a number it does not matter which operand comes first. -/
theorem arithmetic?_comm {op : Symbol} {l : Ty} (hl : l.isNumeric = true) (r : Ty) :
    arithmetic? op l r = arithmetic? op r l := by
  cases l <;> simp [isNumeric] at hl <;> cases r <;> rfl

theorem arithmetic?_any_right (op : Symbol) (t : Ty) : arithmetic? op t any = some t.guess := by
  cases t <;> rfl

theorem arithmetic?_int {op : Symbol} {r t : Ty} (h : arithmetic? op int r = some t) :
    t = int ∨ t = float := by
  cases r <;> simp [arithmetic?, isNumeric] at h
  case int => split at h <;> simp [h]
  case float => exact .inr h.symm
  case any => exact .inl h.symm

theorem arithmetic?_float {op : Symbol} {r t : Ty} (h : arithmetic? op float r = some t) :
    t = float := by
  cases r <;> simp [arithmetic?, isNumeric] at h <;> exact h.symm

/-- The guess takes what comes out, unless that is a float and the guess was an int. -/
theorem guess_accepts {op : Symbol} {l r t : Ty} (h : arithmetic? op l r = some t) :
    l.guess.accepts t = true ↔ ¬ (l = int ∧ t = float) := by
  by_cases hl : l.isNumeric = true
  · cases l <;> simp [isNumeric] at hl
    case int => rcases arithmetic?_int h with rfl | rfl <;> simp [guess, isNumeric, accepts]
    case float =>
      obtain rfl := arithmetic?_float h
      simp [guess, isNumeric, accepts]
  · have hint : l ≠ int := by
      rintro rfl
      exact hl rfl
    simp [guess, hl, hint]

/-- From the right an operand is guessed like from the left. -/
theorem guess_accepts_right {op : Symbol} {l r t : Ty} (h : arithmetic? op l r = some t) :
    r.guess.accepts t = true ↔ ¬ (r = int ∧ t = float) := by
  by_cases hr : r.isNumeric = true
  · exact guess_accepts (arithmetic?_comm hr l ▸ h)
  · have hint : r ≠ int := by
      rintro rfl
      exact hr rfl
    simp [guess, hr, hint]

/-! ## All operations -/

@[simp] theorem any_ordered (t : Ty) : any.ordered t = true := rfl

@[simp] theorem ordered_any (t : Ty) : t.ordered any = true := by
  cases t <;> rfl

/-- An operation is one of arithmetic, or gives true or false, whichever operand is unknown. -/
theorem between?_cases {op : TokenKind} {l r t : Ty} (h : between? op l r = some t) :
    (∃ s, ∀ a b, between? op a b = arithmetic? s a b) ∨
      t = boolean ∧ between? op l any = some boolean ∧ between? op any r = some boolean := by
  unfold between? at h
  split at h
  case h_1 | h_2 | h_3 | h_4 | h_5 | h_6 => exact .inl ⟨_, fun _ _ => rfl⟩
  case h_7 | h_8 => exact .inr (by simp_all [between?])
  case h_9 | h_10 | h_11 | h_12 => exact .inr (by simp_all [between?])
  case h_13 | h_14 => exact .inr (by simp_all [between?, logical])
  case h_15 => cases h

/-- Where an operation has a type, it has one with either operand unknown, and that type takes
the first one unless the known operand is an int and the operation gives a float. -/
theorem between?_unknown (op : TokenKind) (l r t : Ty) (h : between? op l r = some t) :
    ∃ t₁ t₂, between? op l any = some t₁ ∧ between? op any r = some t₂ ∧
      (t₁.accepts t = true ↔ ¬ (l = int ∧ t = float)) ∧
      (t₂.accepts t = true ↔ ¬ (r = int ∧ t = float)) := by
  rcases between?_cases h with ⟨s, hs⟩ | ⟨rfl, hl, hr⟩
  · rw [hs] at h
    exact ⟨l.guess, r.guess, (hs l any).trans (arithmetic?_any_right s l),
      (hs any r).trans (arithmetic?_any s r), guess_accepts h, guess_accepts_right h⟩
  · exact ⟨boolean, boolean, hl, hr, by simp [accepts], by simp [accepts]⟩

/-- A list of numbers behind an unknown list is in a list of anything. -/
theorem between?_unknown_lists : ∃ t₁ t₂,
    between? (.symbol .plus) (list int) any = some t₁ ∧ between? (.symbol .plus) any (list float) = some t₂ ∧
      t₁.accepts (list float) = true ∧ t₂.accepts (list float) = true := by
  have h := between?_unknown (.symbol .plus) (list int) (list float) (list float) (by decide)
  simpa using h

/-- The quotient of two ints is a float, but with something unknown it is said to be an int. -/
theorem between?_unknown_quotient : between? (.symbol .slash) int int = some float ∧
    between? (.symbol .slash) int any = some int ∧ between? (.symbol .slash) any int = some int ∧
    int.accepts float = false := by
  decide

end StoryLang.Ty
