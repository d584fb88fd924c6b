/-
Maps from names, in the order of their names.

Names are ordered by their characters, which is also the order of their bytes.
A name that is inserted again keeps its place and changes its value.
-/

namespace StoryLang

/-- A map from names: its entries, in the order of their names. -/
structure NameMap (α : Type) where
  entries : List (String × α)
  deriving DecidableEq, Repr

namespace NameMap

variable {α : Type}

/-- No names. -/
def empty : NameMap α := ⟨[]⟩

/-- The value of a name. -/
def get? (m : NameMap α) (name : String) : Option α :=
  (m.entries.find? (·.1 = name)).map (·.2)

/-- Puts an entry in its place among entries. -/
def insertEntry (name : String) (value : α) : List (String × α) → List (String × α)
  | [] => [(name, value)]
  | (key, old) :: rest =>
    if name < key then (name, value) :: (key, old) :: rest
    else if name = key then (name, value) :: rest
    else (key, old) :: insertEntry name value rest

/-- The map with a value for a name. -/
def insert (m : NameMap α) (name : String) (value : α) : NameMap α :=
  ⟨insertEntry name value m.entries⟩

/-- The map of some entries; of two with one name the later counts. -/
def ofList (entries : List (String × α)) : NameMap α :=
  entries.foldl (fun m (name, value) => m.insert name value) empty

/-- The names in order. -/
def names (m : NameMap α) : List String := m.entries.map (·.1)

/-- The values in the order of their names. -/
def values (m : NameMap α) : List α := m.entries.map (·.2)

def isEmpty (m : NameMap α) : Bool := m.entries.isEmpty

theorem find?_insertEntry_self (l : List (String × α)) (name : String) (value : α) :
    (insertEntry name value l).find? (·.1 = name) = some (name, value) := by
  induction l with
  | nil => simp [insertEntry]
  | cons p l ih =>
    simp only [insertEntry]
    split
    · simp
    · split
      · simp
      · rename_i h
        have hp : p.1 ≠ name := fun e => h e.symm
        simpa [hp] using ih

theorem find?_insertEntry_other (l : List (String × α)) {name other : String} (value : α)
    (h : name ≠ other) :
    (insertEntry name value l).find? (·.1 = other) = l.find? (·.1 = other) := by
  induction l with
  | nil => simp [insertEntry, h]
  | cons p l ih =>
    simp only [insertEntry]
    split
    · simp [h]
    · split
      · rename_i e
        simp [h, ← e]
      · obtain ⟨key, old⟩ := p
        by_cases hp : key = other
        · simp [hp]
        · simpa [hp] using ih

@[simp] theorem get?_insert_self (m : NameMap α) (name : String) (value : α) :
    (m.insert name value).get? name = some value := by
  simp only [get?, insert, find?_insertEntry_self, Option.map_some]

theorem get?_insert_other (m : NameMap α) {name other : String} (value : α)
    (h : other ≠ name) : (m.insert name value).get? other = m.get? other := by
  simp only [get?, insert, find?_insertEntry_other m.entries value fun e => h e.symm]

theorem mem_insertEntry {l : List (String × α)} {name : String} {value : α} {p : String × α}
    (h : p ∈ insertEntry name value l) : p = (name, value) ∨ p ∈ l := by
  induction l with
  | nil => simpa [insertEntry] using h
  | cons q l ih =>
    simp only [insertEntry] at h
    split at h
    · simpa using h
    · split at h
      · rcases List.mem_cons.1 h with h | h
        · exact .inl h
        · exact .inr (by simp [h])
      · rcases List.mem_cons.1 h with h | h
        · exact .inr (by simp [h])
        · exact (ih h).imp_right fun h => by simp [h]

/-- The entries of a map that got one more are those it had, and that one. -/
theorem mem_insert {m : NameMap α} {name : String} {value : α} {p : String × α}
    (h : p ∈ (m.insert name value).entries) : p = (name, value) ∨ p ∈ m.entries :=
  mem_insertEntry h

/-- The names of a map that got one more are those it had, and that one. -/
theorem mem_names_insert {m : NameMap α} {name n : String} {value : α} :
    n ∈ (m.insert name value).names ↔ n = name ∨ n ∈ m.names := by
  obtain ⟨l⟩ := m
  simp only [names, insert]
  induction l with
  | nil => simp [insertEntry]
  | cons p l ih =>
    obtain ⟨key, old⟩ := p
    simp only [insertEntry]
    split
    · simp
    · split
      · rename_i h
        subst h
        simp
      · simp only [List.map_cons, List.mem_cons, ih, or_left_comm]

/-- The names of a map that got one more are in order if they were. -/
theorem sorted_insert {m : NameMap α} {name : String} {value : α}
    (h : m.names.Pairwise (· < ·)) : (m.insert name value).names.Pairwise (· < ·) := by
  obtain ⟨l⟩ := m
  simp only [names, insert] at h ⊢
  induction l with
  | nil => simp [insertEntry]
  | cons p l ih =>
    obtain ⟨key, old⟩ := p
    obtain ⟨hkey, hl⟩ := List.pairwise_cons.1 h
    simp only [insertEntry]
    split
    · rename_i hlt
      refine List.pairwise_cons.2 ⟨?_, h⟩
      simp only [List.map_cons, List.forall_mem_cons]
      exact ⟨hlt, fun n hn => String.lt_trans hlt (hkey n hn)⟩
    · split
      · rename_i heq
        subst heq
        exact h
      · rename_i hlt hne
        refine List.pairwise_cons.2 ⟨fun n hn => ?_, ih hl⟩
        have hn := (mem_names_insert (m := ⟨l⟩)).1 hn
        rcases hn with rfl | hn
        · exact String.not_le.1 fun hle => hne (String.le_antisymm hle (String.not_lt.1 hlt))
        · exact hkey n hn

end NameMap

end StoryLang
