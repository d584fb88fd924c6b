/-
Numbers that have to stay in a range.

What counts is never below zero, what is looked up by a number has to be there,
and a text is cut between two of its bytes only where characters meet. The
functions under `Ranged` say so: where a number leaves its range they have no
value. They are the other functions of the same names, with the numbers that
places and counts are kept in.
-/

namespace StoryLang.Ranged

/-- One count less another. -/
def minus? (a b : Nat) : Option Nat := if b ≤ a then some (a - b) else none

/-- The entries from one number on, up to another. -/
def slice? {α : Type} (xs : List α) (start stop : Nat) : Option (List α) :=
  if start ≤ stop ∧ stop ≤ xs.length then some ((xs.take stop).drop start) else none

/-- The entries with another one at a number. -/
def set? {α : Type} (xs : List α) (n : Nat) (a : α) : Option (List α) :=
  if n < xs.length then some (xs.set n a) else none

/-- How many bytes a text has. -/
def size : List Char → Nat
  | [] => 0
  | c :: cs => c.utf8Size + size cs

/-- How many characters the first bytes of a text are, if no character is cut. -/
def boundary? : List Char → Nat → Option Nat
  | _, 0 => some 0
  | [], _ + 1 => none
  | c :: cs, n => do return (← boundary? cs (← minus? n c.utf8Size)) + 1

/-- The text between two of its bytes. -/
def bytes? (cs : List Char) (start stop : Nat) : Option (List Char) := do
  slice? cs (← boundary? cs start) (← boundary? cs stop)

/-- Each character with the number of bytes in front of it. -/
def charIndices : Nat → List Char → List (Nat × Char)
  | _, [] => []
  | n, c :: cs => (n, c) :: charIndices (n + c.utf8Size) cs

variable {α : Type}

theorem minus?_of_le {a b : Nat} (h : b ≤ a) : minus? a b = some (a - b) := if_pos h

theorem slice?_of_le {xs : List α} {start stop : Nat} (h : start ≤ stop) (h' : stop ≤ xs.length) :
    slice? xs start stop = some ((xs.take stop).drop start) := if_pos ⟨h, h'⟩

theorem mapM_some {β : Type} {f : α → Option β} {g : α → β} {as : List α}
    (h : ∀ a ∈ as, f a = some (g a)) : as.mapM f = some (as.map g) := by
  induction as with
  | nil => rfl
  | cons a as ih =>
    rw [List.mapM_cons, h a List.mem_cons_self, ih fun b hb => h b (List.mem_cons_of_mem a hb)]
    rfl

/-- An entry that is there has a number in the range. -/
theorem set?_append (front back : List α) (a b : α) :
    set? (front ++ a :: back) front.length b = some (front ++ b :: back) := by
  rw [set?, if_pos (by simp), List.set_append_right _ _ (Nat.le_refl _), Nat.sub_self]
  rfl

theorem size_cons (c : Char) (cs : List Char) : size (c :: cs) = c.utf8Size + size cs := rfl

theorem size_append (cs ds : List Char) : size (cs ++ ds) = size cs + size ds := by
  induction cs with
  | nil => rw [List.nil_append, size, Nat.zero_add]
  | cons c cs ih => rw [List.cons_append, size_cons, size_cons, ih, Nat.add_assoc]

theorem size_concat {c : Char} (hc : c.utf8Size = 1) (cs : List Char) :
    size (cs ++ [c]) = size cs + 1 := by
  rw [size_append, size_cons, hc]
  rfl

theorem boundary?_size (cs ds : List Char) : boundary? (cs ++ ds) (size cs) = some cs.length := by
  induction cs with
  | nil => cases ds <;> rfl
  | cons c cs ih =>
    have hpos : size (c :: cs) ≠ 0 := by
      have := c.utf8Size_pos
      rw [size_cons]
      omega
    rw [List.cons_append, boundary?.eq_3 _ _ _ hpos, size_cons, minus?_of_le (Nat.le_add_right _ _),
      Nat.add_sub_cancel_left, Option.bind_eq_bind, Option.bind_some, ih]
    rfl

/-- Between a run of text and what stands around it no character is cut. -/
theorem bytes?_between (front cs back : List Char) :
    bytes? (front ++ (cs ++ back)) (size front) (size front + size cs) = some cs := by
  have hstop := boundary?_size (front ++ cs) back
  rw [List.append_assoc, size_append] at hstop
  simp only [bytes?, boundary?_size, hstop, Option.bind_eq_bind, Option.bind_some]
  rw [slice?_of_le (by simp) (by simp), ← List.append_assoc, List.take_left, List.drop_left]

theorem bytes?_behind (front cs : List Char) :
    bytes? (front ++ cs) (size front) (size (front ++ cs)) = some cs := by
  have h := bytes?_between front cs []
  rwa [List.append_nil, ← size_append] at h

theorem getElem?_charIndices (n : Nat) (front cs : List Char) (c : Char) :
    (charIndices n (front ++ c :: cs))[front.length]? = some (n + size front, c) := by
  induction front generalizing n with
  | nil => rfl
  | cons d front ih =>
    rw [List.cons_append, charIndices, List.length_cons, List.getElem?_cons_succ, ih, size_cons,
      Nat.add_assoc]

theorem length_charIndices (n : Nat) (cs : List Char) : (charIndices n cs).length = cs.length := by
  induction cs generalizing n with
  | nil => rfl
  | cons c cs ih => rw [charIndices, List.length_cons, List.length_cons, ih]

end StoryLang.Ranged
