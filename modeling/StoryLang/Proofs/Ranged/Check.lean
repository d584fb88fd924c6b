/-
What checking counts and cuts stays in range.

A row has one entry more than the second word has characters, however often it
is written over, and the number of a character is the first entry of its row.
The brackets and commas of a type are one byte long, so what stands between
them starts and ends at characters. Stacked scopes are never none, since the
root is not taken off.
-/
import StoryLang.Proofs.Ty.Text
import StoryLang.Ranged.Check

namespace StoryLang.Ranged

variable {c : Char} {b cs ds text : List Char} {row : List Nat} {depth fuel n : Nat}

/-! ## Words -/

/-- What is written over is what the next row has there. -/
theorem nextEntries_eq (written aboves : List Nat) (left diagonal : Nat) (h : aboves.length = ds.length) :
    nextEntries c ds written.length diagonal (written ++ left :: aboves) =
      some (written ++ left :: Text.nextEntries c left diagonal ds aboves) := by
  induction ds generalizing written left diagonal aboves with
  | nil =>
    obtain rfl := List.length_eq_zero_iff.1 h
    rfl
  | cons d ds ih =>
    obtain ⟨above, aboves, rfl⟩ := List.exists_cons_of_length_eq_add_one h
    have hlength : (written ++ [left]).length = written.length + 1 := List.length_append
    have habove : (written ++ left :: above :: aboves)[written.length + 1]? = some above := by simp
    have hleft : (written ++ left :: above :: aboves)[written.length]? = some left := by simp
    have hset := set?_append (written ++ [left]) aboves above
      (min (min (above + 1) (left + 1)) (diagonal + if c = d then 0 else 1))
    have hnext := ih (written ++ [left]) aboves
      (min (min (above + 1) (left + 1)) (diagonal + if c = d then 0 else 1)) above
      (Nat.succ.inj h)
    rw [hlength, List.append_assoc, List.append_assoc] at hset hnext
    simp only [List.singleton_append] at hset hnext
    simp only [nextEntries, habove, hleft, hset, hnext, Option.bind_eq_bind, Option.bind_some]
    rfl

theorem nextRow_eq (row : List Nat) (i : Nat) (h : row.length = b.length) :
    nextRow c b i (i :: row) = some (Text.nextRow c b (i :: row)) := by
  have hnext := nextEntries_eq (c := c) [] row (i + 1) i h
  have hset : set? (i :: row) 0 (i + 1) = some ((i + 1) :: row) := set?_append [] row i (i + 1)
  simp only [nextRow, List.getElem?_cons_zero, hset, Option.bind_eq_bind, Option.bind_some]
  exact hnext

theorem length_nextEntries (left diagonal : Nat) (h : row.length = ds.length) :
    (Text.nextEntries c left diagonal ds row).length = ds.length := by
  induction ds generalizing left diagonal row with
  | nil => rw [List.length_eq_zero_iff.1 h]; rfl
  | cons d ds ih =>
    obtain ⟨above, row, rfl⟩ := List.exists_cons_of_length_eq_add_one h
    rw [Text.nextEntries, List.length_cons, ih _ _ (Nat.succ.inj h), List.length_cons]

/-- A row starts with the number of characters that were read. -/
theorem lastRow_eq (i : Nat) (row : List Nat) (h : row.length = b.length) :
    ∃ row', row'.length = b.length ∧ lastRow b cs i (i :: row) = some ((i + cs.length) :: row') ∧
      cs.foldl (fun row c => Text.nextRow c b row) (i :: row) = (i + cs.length) :: row' := by
  induction cs generalizing i row with
  | nil => exact ⟨row, h, rfl, rfl⟩
  | cons c cs ih =>
    obtain ⟨row', hlength, hrow, hfold⟩ := ih (i + 1) (Text.nextEntries c (i + 1) i b row)
      (length_nextEntries _ _ h)
    rw [Nat.add_right_comm, Nat.add_assoc] at hrow hfold
    exact ⟨row', hlength, by rw [lastRow, nextRow_eq row i h]; exact hrow, hfold⟩

theorem distance_eq (a b : List Char) : distance a b = some (Text.distance a b) := by
  obtain ⟨row, hlength, hrow, hfold⟩ := @lastRow_eq b a 0
    ((List.range b.length).map (· + 1)) (by simp)
  rw [← List.range_succ_eq_map] at hrow hfold
  rw [distance, Text.distance, hrow, hfold, Option.bind_eq_bind, Option.bind_some,
    List.getLast?_eq_getElem?, List.length_cons, hlength, Nat.add_sub_cancel,
    List.getElem?_eq_getElem (by simp [hlength])]
  rfl

/-! ## Types -/

theorem find?_charIndices (text : List Char) (n : Nat) :
    (charIndices n text).find? (·.2 = c) =
      (Text.splitFirst? c text).map fun found => (n + size found.1, c) := by
  induction text generalizing n with
  | nil => rfl
  | cons d ds ih =>
    rw [charIndices, List.find?_cons, Text.splitFirst?]
    by_cases hd : d = c
    · simp [hd, size]
    · rw [if_neg hd, ih]
      cases Text.splitFirst? c ds with
      | none => simp [hd]
      | some found => simp [hd, size_cons, Nat.add_assoc]

/-- What was passed since the last comma belongs to the first of the parts to come. -/
theorem partsFrom_eq {front part : List Char} (htext : text = front ++ (part ++ cs)) :
    partsFrom text (charIndices (size (front ++ part)) cs) depth (size front) =
      some (part.foldr Text.consFirst (Ty.splitParts depth cs)) := by
  induction cs generalizing front part depth with
  | nil =>
    rw [List.append_nil] at htext
    rw [charIndices, partsFrom, htext, bytes?_behind, Ty.splitParts, Text.foldr_consFirst, List.append_nil]
    rfl
  | cons c cs ih =>
    rw [charIndices, partsFrom, Ty.splitParts]
    split
    · rename_i hc
      have hpart : bytes? text (size front) (size (front ++ part)) = some part := by
        rw [htext, size_append, bytes?_between]
      have hnext := @ih depth (front ++ part ++ [c]) [] (by simp [htext])
      have hsize : c.utf8Size = 1 := by rw [hc.1]; rfl
      rw [List.append_nil, size_concat hsize] at hnext
      rw [hsize, hpart, Option.bind_eq_bind, Option.bind_some, hnext, Text.foldr_consFirst, List.append_nil]
      rfl
    · have hnext := @ih (if c = '[' then depth + 1 else if c = ']' then depth - 1 else depth) front
        (part ++ [c]) (by simp [htext])
      rw [← List.append_assoc, size_append _ [c], List.foldr_append] at hnext
      exact hnext

theorem readParts_eq {read : List Char → Option (Option Ty)} {f : List Char → Option Ty}
    {parts : List (List Char)} (h : ∀ part ∈ parts, read part = some (f part)) :
    readParts read parts = some (parts.mapM f) := by
  induction parts with
  | nil => rfl
  | cons part parts ih =>
    rw [readParts, List.mapM_cons, h part List.mem_cons_self,
      ih fun other hother => h other (List.mem_cons_of_mem part hother)]
    cases f part with
    | none => rfl
    | some ty => cases parts.mapM f <;> rfl

theorem readWith_eq (h : cs.length < fuel) : readWith fuel cs = some (Ty.readWith fuel cs) := by
  induction fuel generalizing cs with
  | zero => omega
  | succ fuel ih =>
    rw [readWith, Ty.readWith, find?_charIndices]
    cases hsplit : Text.splitFirst? '[' (Text.trim cs) with
    | none => rfl
    | some found =>
      obtain ⟨name, rest⟩ := found
      have htrim := Text.splitFirst?_some hsplit
      have hname : bytes? (Text.trim cs) 0 (size name) = some name := by
        have h := bytes?_between [] name ('[' :: rest)
        rw [← htrim] at h
        simpa [size] using h
      have hrest : bytes? (Text.trim cs) (size name + 1) (size (Text.trim cs)) = some rest := by
        have h := bytes?_behind (name ++ ['[']) rest
        rwa [List.append_assoc, List.singleton_append, ← htrim, size_concat rfl] at h
      simp only [Option.map_some, Nat.zero_add, hrest, Option.bind_eq_bind, Option.bind_some]
      cases hdrop : Ty.dropBracket? rest with
      | none => rfl
      | some inner =>
        have hparts : readParts (readWith fuel) (Ty.splitParts 0 inner) =
            some ((Ty.splitParts 0 inner).mapM (Ty.readWith fuel)) :=
          readParts_eq fun part hpart => ih (by have := Ty.length_part hsplit hdrop hpart; omega)
        have hcut : partsFrom inner (charIndices 0 inner) 0 0 = some (Ty.splitParts 0 inner) :=
          @partsFrom_eq inner inner 0 [] [] rfl
        simp only [hcut, hparts, hname, Option.bind_some]
        cases (Ty.splitParts 0 inner).mapM (Ty.readWith fuel) <;> rfl

theorem ofText?_eq (s : String) : ofText? s = some (Ty.ofText? s) := readWith_eq (Nat.lt_succ_self _)

/-! ## Scopes -/

theorem stack_push (s : Scopes) : stack s.push = .empty :: stack s := rfl

/-- The root is the scope that is not taken off. -/
theorem stack_dropTop (s : Scopes) : stack s.dropTop = dropTop (stack s) := by
  unfold stack Scopes.dropTop dropTop
  cases s.inner with
  | nil => rfl
  | cons top rest => simp

theorem stack_declare (s : Scopes) (b : Binding) : (s.declare b).map stack = declare b (stack s) := by
  obtain ⟨inner, root⟩ := s
  cases inner with
  | nil =>
    change ((root.declare b).map _).map _ = (root.declare b).map _
    cases root.declare b <;> rfl
  | cons top rest =>
    change ((top.declare b).map _).map _ = (top.declare b).map _
    cases top.declare b <;> rfl

theorem topNumber_stack (s : Scopes) : topNumber (stack s) = some (s.depth - 1) := by
  rw [topNumber, stack, minus?_of_le (by simp), List.length_append]
  rfl

end StoryLang.Ranged
