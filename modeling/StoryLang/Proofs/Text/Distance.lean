/-
The edit distance is the least number of edits.

An edit puts a character into a word, takes one out, or replaces one. How many
edits are needed is first counted by recursion on both words (`leastEdits`),
and an edit changes this count by one at most: so it is the least number.

The rows are counted along the beginnings of the words. Read from their ends,
these are words that grow in front, one character at a time. So each row is the
row of `leastEdits` for the reversed words, and as edits can be reversed with
the words, the last entry of the last row is the count itself.
-/
import Mathlib.Order.Bounds.Basic
import StoryLang.Text.Distance

namespace StoryLang.Text

variable {a b c p q : List Char} {x : Char} {n k : Nat}

/-! ## Edits -/

/-- One character is put in, taken out or replaced. -/
inductive Edit : List Char → List Char → Prop where
  | insert (front : List Char) (x : Char) (rest : List Char) : Edit (front ++ rest) (front ++ x :: rest)
  | delete (front : List Char) (x : Char) (rest : List Char) : Edit (front ++ x :: rest) (front ++ rest)
  | replace (front : List Char) (x y : Char) (rest : List Char) :
    Edit (front ++ x :: rest) (front ++ y :: rest)

theorem Edit.symm (h : Edit a b) : Edit b a := by
  cases h with
  | insert front x rest => exact .delete front x rest
  | delete front x rest => exact .insert front x rest
  | replace front x y rest => exact .replace front y x rest

theorem Edit.cons (x : Char) (h : Edit a b) : Edit (x :: a) (x :: b) := by
  cases h with
  | insert front y rest => exact .insert (x :: front) y rest
  | delete front y rest => exact .delete (x :: front) y rest
  | replace front y z rest => exact .replace (x :: front) y z rest

theorem Edit.reverse (h : Edit a b) : Edit a.reverse b.reverse := by
  cases h with
  | insert front x rest => simpa using Edit.insert rest.reverse x front.reverse
  | delete front x rest => simpa using Edit.delete rest.reverse x front.reverse
  | replace front x y rest => simpa using Edit.replace rest.reverse x y front.reverse

/-- So many edits, one after the other, turn a word into another one. -/
inductive Edits : Nat → List Char → List Char → Prop where
  | none (a : List Char) : Edits 0 a a
  | step {n : Nat} {a b c : List Char} (first : Edit a b) (more : Edits n b c) : Edits (n + 1) a c

namespace Edits

theorem trans (h : Edits n a b) (h' : Edits k b c) : Edits (n + k) a c := by
  induction h with
  | none => rwa [Nat.zero_add]
  | step first _ ih =>
    rw [Nat.add_right_comm]
    exact .step first (ih h')

theorem add (h : Edits n a b) (last : Edit b c) : Edits (n + 1) a c := h.trans (.step last (.none c))

theorem symm (h : Edits n a b) : Edits n b a := by
  induction h with
  | none a => exact .none a
  | step first _ ih => exact ih.add first.symm

/-- Edits of one kind of words are as many edits of another one. -/
theorem map {f : List Char → List Char} (hf : ∀ {a b}, Edit a b → Edit (f a) (f b))
    (h : Edits n a b) : Edits n (f a) (f b) := by
  induction h with
  | none a => exact .none (f a)
  | step first _ ih => exact .step (hf first) ih

/-- Without edits a word stays as it is. -/
theorem eq_of_zero (h : Edits 0 a b) : a = b := by
  cases h with
  | none => rfl

theorem insertAll (b : List Char) : Edits b.length [] b := by
  induction b with
  | nil => exact .none []
  | cons x b ih => exact ih.add (.insert [] x b)

end Edits

/-! ## The least number of edits -/

/-- The number of edits between two words, by recursion on both: the first character of one of
them is taken out or put in, or it is replaced unless it stands in both. -/
def leastEdits : List Char → List Char → Nat
  | [], b => b.length
  | a, [] => a.length
  | x :: a, y :: b =>
    min (min (leastEdits a (y :: b) + 1) (leastEdits (x :: a) b + 1))
      (leastEdits a b + if x = y then 0 else 1)
termination_by a b => a.length + b.length

@[simp] theorem leastEdits_nil_left (b : List Char) : leastEdits [] b = b.length := by
  rw [leastEdits]

@[simp] theorem leastEdits_nil_right (a : List Char) : leastEdits a [] = a.length := by
  cases a <;> simp [leastEdits]

theorem leastEdits_cons (x y : Char) (a b : List Char) : leastEdits (x :: a) (y :: b) =
    min (min (leastEdits a (y :: b) + 1) (leastEdits (x :: a) b + 1))
      (leastEdits a b + if x = y then 0 else 1) := by
  rw [leastEdits]

theorem leastEdits_self (a : List Char) : leastEdits a a = 0 := by
  induction a with
  | nil => simp
  | cons x a ih => simp [leastEdits_cons, ih]

/-- So many edits are enough. -/
theorem edits_leastEdits (a b : List Char) : Edits (leastEdits a b) a b := by
  fun_induction leastEdits a b with
  | case1 b => exact .insertAll b
  | case2 a => exact (Edits.insertAll a).symm
  | case3 x a y b delete insert keep =>
    have hcases (i j k : Nat) : min (min i j) k = i ∨ min (min i j) k = j ∨ min (min i j) k = k := by
      omega
    rcases hcases (leastEdits a (y :: b) + 1) (leastEdits (x :: a) b + 1)
      (leastEdits a b + if x = y then 0 else 1) with h | h | h <;> rw [h]
    · exact .step (.delete [] x a) delete
    · exact insert.add (.insert [] y b)
    · have hkeep : Edits (leastEdits a b) (y :: a) (y :: b) := keep.map (.cons y)
      split
      · rename_i hxy
        rwa [hxy]
      · exact .step (.replace [] x y a) hkeep

theorem leastEdits_insert (a b : List Char) (y : Char) : leastEdits a (y :: b) ≤ leastEdits a b + 1 := by
  cases a with
  | nil => simp
  | cons x a =>
    rw [leastEdits_cons]
    omega

/-- The counts from two words to any third one differ by one at most. -/
def Near (a b : List Char) : Prop := ∀ c, leastEdits a c ≤ leastEdits b c + 1

namespace Near

theorem longer (x : Char) (a : List Char) : Near (x :: a) a := by
  intro c
  cases c with
  | nil => simp
  | cons y c =>
    rw [leastEdits_cons]
    omega

theorem shorter (x : Char) (a : List Char) : Near a (x :: a) := by
  intro c
  induction c with
  | nil =>
    rw [leastEdits_nil_right, leastEdits_nil_right, List.length_cons]
    omega
  | cons y c ih =>
    have hinsert := leastEdits_insert a c y
    rw [leastEdits_cons]
    omega

theorem replaced (x y : Char) (a : List Char) : Near (x :: a) (y :: a) := by
  intro c
  induction c with
  | nil => simp
  | cons z c ih =>
    rw [leastEdits_cons, leastEdits_cons]
    split <;> split <;> omega

theorem cons (x : Char) (h : Near a b) : Near (x :: a) (x :: b) := by
  intro c
  induction c with
  | nil =>
    have := h []
    simp only [leastEdits_nil_right, List.length_cons] at this ⊢
    omega
  | cons y c ih =>
    have hdelete := h (y :: c)
    have hkeep := h c
    rw [leastEdits_cons, leastEdits_cons]
    omega

theorem behind (front : List Char) (h : Near a b) : Near (front ++ a) (front ++ b) := by
  induction front with
  | nil => exact h
  | cons x front ih => exact ih.cons x

end Near

theorem Edit.near (h : Edit a b) : Near a b := by
  cases h with
  | insert front x rest => exact (Near.shorter x rest).behind front
  | delete front x rest => exact (Near.longer x rest).behind front
  | replace front x y rest => exact (Near.replaced x y rest).behind front

/-- Fewer edits are not enough. -/
theorem Edits.leastEdits_le (h : Edits n a b) : leastEdits a b ≤ n := by
  have hfrom (c : List Char) : leastEdits a c ≤ leastEdits b c + n := by
    induction h with
    | none => exact Nat.le_refl _
    | step first _ ih =>
      have := first.near c
      omega
  simpa [leastEdits_self] using hfrom b

/-- Both words can be read from their ends. -/
theorem leastEdits_reverse (a b : List Char) : leastEdits a.reverse b.reverse = leastEdits a b := by
  refine Nat.le_antisymm ((edits_leastEdits a b).map .reverse).leastEdits_le ?_
  simpa using ((edits_leastEdits a.reverse b.reverse).map .reverse).leastEdits_le

/-! ## Rows -/

/-- The counts between a word and another one that grows in front, character by character. -/
def countsFrom (p q : List Char) : List Char → List Nat
  | [] => [leastEdits p q]
  | d :: ds => leastEdits p q :: countsFrom p (d :: q) ds

theorem countsFrom_eq_cons (p q ds : List Char) :
    countsFrom p q ds = leastEdits p q :: (countsFrom p q ds).tail := by
  cases ds <;> rfl

/-- What is still to write of the next row continues what is written of it. -/
theorem nextEntries_countsFrom (x : Char) (p q ds : List Char) :
    nextEntries x (leastEdits (x :: p) q) (leastEdits p q) ds (countsFrom p q ds).tail =
      (countsFrom (x :: p) q ds).tail := by
  induction ds generalizing q with
  | nil => rfl
  | cons d ds ih =>
    simp only [countsFrom, List.tail_cons]
    rw [countsFrom_eq_cons p, countsFrom_eq_cons (x :: p), nextEntries, ← leastEdits_cons, ih]

theorem nextRow_countsFrom (x : Char) (p b : List Char) :
    nextRow x b (countsFrom p [] b) = countsFrom (x :: p) [] b := by
  have hfirst : leastEdits p [] + 1 = leastEdits (x :: p) [] := by simp
  rw [countsFrom_eq_cons, nextRow, hfirst, nextEntries_countsFrom, ← countsFrom_eq_cons]

theorem foldl_nextRow (a p b : List Char) :
    a.foldl (fun row x => nextRow x b row) (countsFrom p [] b) = countsFrom (a.reverse ++ p) [] b := by
  induction a generalizing p with
  | nil => rfl
  | cons x a ih =>
    rw [List.foldl_cons, nextRow_countsFrom, ih, List.reverse_cons, List.append_assoc]
    rfl

theorem countsFrom_nil (q ds : List Char) :
    countsFrom [] q ds = List.range' q.length (ds.length + 1) := by
  induction ds generalizing q with
  | nil => simp [countsFrom]
  | cons d ds ih =>
    rw [countsFrom, ih, leastEdits_nil_left]
    rfl

theorem getLast?_countsFrom (p q ds : List Char) :
    (countsFrom p q ds).getLast? = some (leastEdits p (ds.reverse ++ q)) := by
  induction ds generalizing q with
  | nil => rfl
  | cons d ds ih =>
    rw [countsFrom, countsFrom_eq_cons, List.getLast?_cons_cons, ← countsFrom_eq_cons, ih]
    simp

/-- The last entry of the last row counts the edits between the two words. -/
theorem distance_eq_leastEdits (a b : List Char) : distance a b = leastEdits a b := by
  have hstart : List.range (b.length + 1) = countsFrom [] [] b := by
    rw [countsFrom_nil, List.range_eq_range', List.length_nil]
  rw [distance, hstart, foldl_nextRow, getLast?_countsFrom, Option.getD_some, List.append_nil,
    List.append_nil, leastEdits_reverse]

/-! ## The distance -/

theorem isLeast_distance (a b : List Char) : IsLeast {n | Edits n a b} (distance a b) := by
  rw [distance_eq_leastEdits]
  exact ⟨edits_leastEdits a b, fun _ h => h.leastEdits_le⟩

theorem distance_comm (a b : List Char) : distance a b = distance b a :=
  Nat.le_antisymm ((isLeast_distance a b).2 (isLeast_distance b a).1.symm)
    ((isLeast_distance b a).2 (isLeast_distance a b).1.symm)

theorem distance_eq_zero : distance a b = 0 ↔ a = b := by
  constructor
  · intro h
    have hedits : Edits (distance a b) a b := (isLeast_distance a b).1
    rw [h] at hedits
    exact hedits.eq_of_zero
  · rintro rfl
    rw [distance_eq_leastEdits, leastEdits_self]

theorem distance_triangle (a b c : List Char) : distance a c ≤ distance a b + distance b c :=
  (isLeast_distance a c).2 ((isLeast_distance a b).1.trans (isLeast_distance b c).1)

/-- The rows come to what the recursion on both words counts, and this is the least number of edits
that turn one word into the other. So it is a metric of words. -/
theorem distance_metric (a b : List Char) :
    distance a b = leastEdits a b ∧ IsLeast {n | Edits n a b} (distance a b) ∧
      distance a b = distance b a ∧ (distance a b = 0 ↔ a = b) ∧
      ∀ c, distance a c ≤ distance a b + distance b c :=
  ⟨distance_eq_leastEdits a b, isLeast_distance a b, distance_comm a b, distance_eq_zero,
    distance_triangle a b⟩

example : distance "kitten".toList "sitting".toList = 3 := by decide

end StoryLang.Text
