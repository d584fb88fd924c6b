/-
Moving through a text, and the places that are met on the way.

Places are ordered by line and column. Reading on never goes back, and on one
line every character is one column.
-/
import StoryLang.Text.Blank
import StoryLang.Token.Spot

namespace StoryLang

namespace Position

/-- Not later in the text. -/
instance : LE Position := ⟨fun p q => p.line < q.line ∨ (p.line = q.line ∧ p.column ≤ q.column)⟩

theorem le_iff {p q : Position} :
    p ≤ q ↔ p.line < q.line ∨ (p.line = q.line ∧ p.column ≤ q.column) :=
  Iff.rfl

theorem le_refl (p : Position) : p ≤ p := .inr ⟨rfl, Nat.le_refl _⟩

theorem le_trans {p q r : Position} (h : p ≤ q) (h' : q ≤ r) : p ≤ r := by
  rw [le_iff] at *
  omega

theorem line_le {p q : Position} (h : p ≤ q) : p.line ≤ q.line := by
  rw [le_iff] at h
  omega

/-- The place behind some characters. -/
def behind (p : Position) (cs : List Char) : Position := cs.foldl after p

theorem behind_append (p : Position) (cs ds : List Char) :
    p.behind (cs ++ ds) = (p.behind cs).behind ds :=
  List.foldl_append

theorem le_after (p : Position) (c : Char) : p ≤ p.after c := by
  unfold after
  split
  · exact .inl (Nat.lt_succ_self _)
  · exact .inr ⟨rfl, Nat.le_succ _⟩

theorem le_behind (p : Position) (cs : List Char) : p ≤ p.behind cs := by
  induction cs generalizing p with
  | nil => exact le_refl p
  | cons c cs ih => exact le_trans (le_after p c) (ih _)

/-- Within a line every character is one column. -/
theorem behind_line {p : Position} {cs : List Char} (h : '\n' ∉ cs) :
    p.behind cs = ⟨p.line, p.column + cs.length⟩ := by
  induction cs generalizing p with
  | nil => rfl
  | cons c cs ih =>
    simp only [List.mem_cons, not_or] at h
    have hc : p.after c = ⟨p.line, p.column + 1⟩ := if_neg fun e => h.1 e.symm
    rw [show p.behind (c :: cs) = (p.after c).behind cs from rfl, ih h.2, hc]
    simp only [List.length_cons, mk.injEq, true_and]
    omega

/-- Each newline is a line. -/
theorem line_behind_count (p : Position) (cs : List Char) :
    (p.behind cs).line = p.line + cs.count '\n' := by
  induction cs generalizing p with
  | nil => rfl
  | cons c cs ih =>
    rw [show p.behind (c :: cs) = (p.after c).behind cs from rfl, ih]
    by_cases hc : c = '\n'
    · subst hc
      rw [after, if_pos rfl, List.count_cons_self]
      change p.line + 1 + cs.count '\n' = _
      omega
    · rw [after, if_neg hc, List.count_cons_of_ne hc]

/-- Both are on the same line behind the same characters. -/
theorem line_behind {p p' : Position} (h : p'.line = p.line) (cs : List Char) :
    (p'.behind cs).line = (p.behind cs).line := by
  induction cs generalizing p p' with
  | nil => exact h
  | cons c cs ih =>
    refine ih ?_
    unfold after
    split <;> simp [h]

/-- Characters lead away from a place. -/
theorem behind_ne {cs : List Char} (h : cs ≠ []) (p : Position) : p.behind cs ≠ p := by
  obtain ⟨c, cs, rfl⟩ := List.exists_cons_of_ne_nil h
  intro he
  have hle : p.after c ≤ p := by
    have := le_behind (p.after c) cs
    rwa [show (p.after c).behind cs = p from he] at this
  rw [le_iff, after] at hle
  split at hle <;> dsimp only at hle <;> omega

/-- Two starts of a text that lead to the same place are the same. -/
theorem behind_inj {p : Position} {cs ds text : List Char} (hc : cs <+: text) (hd : ds <+: text)
    (h : p.behind cs = p.behind ds) : cs = ds := by
  have shorter {cs ds : List Char} (hc : cs <+: text) (hd : ds <+: text)
      (h : p.behind cs = p.behind ds) (hle : cs.length ≤ ds.length) : cs = ds := by
    obtain ⟨es, rfl⟩ := List.prefix_of_prefix_length_le hc hd hle
    cases es with
    | nil => rw [List.append_nil]
    | cons e es =>
      rw [behind_append] at h
      exact absurd h.symm (behind_ne (by simp) _)
  rcases Nat.le_total cs.length ds.length with hle | hle
  · exact shorter hc hd h hle
  · exact (shorter hd hc h.symm hle).symm

theorem column_after (p : Position) (c : Char) : 1 ≤ (p.after c).column := by
  unfold after
  split
  · exact Nat.le_refl _
  · exact Nat.le_add_left _ _

theorem column_behind {p : Position} (h : 1 ≤ p.column) (cs : List Char) :
    1 ≤ (p.behind cs).column := by
  induction cs generalizing p with
  | nil => exact h
  | cons c cs ih => exact ih (column_after p c)

end Position

namespace Text

theorem length_dropMark (cs : List Char) : (dropMark cs).length ≤ cs.length := by
  cases cs with
  | nil => exact Nat.le_refl _
  | cons c cs =>
    simp only [dropMark]
    split <;> simp

theorem not_mem_dropMark {cs : List Char} {c : Char} (h : c ∉ cs) : c ∉ dropMark cs := by
  cases cs with
  | nil => exact h
  | cons d cs =>
    simp only [dropMark]
    split
    · exact fun hm => h (List.mem_cons_of_mem _ hm)
    · exact h

end Text

namespace Spot

/-- Reading some characters leads from one spot to another. -/
def Reaches (s s' : Spot) : Prop :=
  ∃ cs, s.rest = cs ++ s'.rest ∧ s'.place = s.place.behind cs

namespace Reaches

theorem refl (s : Spot) : s.Reaches s := ⟨[], rfl, rfl⟩

theorem trans {s s' s'' : Spot} (h : s.Reaches s') (h' : s'.Reaches s'') : s.Reaches s'' := by
  obtain ⟨cs, hr, hp⟩ := h
  obtain ⟨ds, hr', hp'⟩ := h'
  exact ⟨cs ++ ds, by rw [hr, hr', List.append_assoc],
    by rw [hp', hp, Position.behind_append]⟩

theorem le {s s' : Spot} (h : s.Reaches s') : s.place ≤ s'.place := by
  obtain ⟨cs, -, hp⟩ := h
  rw [hp]
  exact s.place.le_behind cs

end Reaches

theorem reaches_next (s : Spot) : s.Reaches s.next := by
  unfold next
  cases h : s.rest with
  | nil => exact .refl s
  | cons c cs => exact ⟨[c], h, rfl⟩

theorem next_spec {s : Spot} {c : Char} {cs : List Char} (h : s.rest = c :: cs) :
    s.next.rest = cs ∧ s.next.place = s.place.after c := by
  simp [next, h]

theorem past_append (z : Spot) (cs ds : List Char) : z.past (cs ++ ds) = (z.past cs).past ds :=
  List.foldl_append

/-- Behind characters that come next. -/
theorem past_spec {s : Spot} {taken rest : List Char} (h : s.rest = taken ++ rest) :
    (s.past taken).rest = rest ∧ (s.past taken).place = s.place.behind taken := by
  induction taken generalizing s with
  | nil => exact ⟨h, rfl⟩
  | cons c cs ih =>
    have hn := next_spec (show s.rest = c :: (cs ++ rest) from h)
    obtain ⟨hr, hp⟩ := ih hn.1
    exact ⟨hr, by rw [show s.past (c :: cs) = s.next.past cs from rfl, hp, hn.2]; rfl⟩

theorem past_quoted (s : Spot) (quote : Char) (raw : List Char) :
    (s.next.past raw).next = s.past (quote :: raw ++ [quote]) := by
  simp [past, List.foldl_append]

theorem reaches_past (s : Spot) {taken rest : List Char} (h : s.rest = taken ++ rest) :
    s.Reaches (s.past taken) := by
  obtain ⟨hr, hp⟩ := past_spec h
  exact ⟨taken, by rw [h, hr], hp⟩

theorem reaches_pastWhile (s : Spot) (p : Char → Bool) : s.Reaches (s.pastWhile p) :=
  s.reaches_past (List.takeWhile_append_dropWhile (p := p)).symm

theorem rest_pastWhile (s : Spot) (p : Char → Bool) : (s.pastWhile p).rest = s.rest.dropWhile p :=
  (past_spec (List.takeWhile_append_dropWhile (p := p)).symm).1

theorem rest_past_lt {s : Spot} {taken rest : List Char} (h : s.rest = taken ++ rest)
    (hne : taken ≠ []) : (s.past taken).rest.length < s.rest.length := by
  have hpos := List.length_pos_iff.2 hne
  rw [(past_spec h).1, h, List.length_append]
  omega

theorem rest_pastGap_le (s : Spot) : s.pastGap.rest.length ≤ s.rest.length := by
  rw [pastGap, rest_pastWhile]
  exact (List.dropWhile_sublist _).length_le

/-- Behind blanks there are no blanks. -/
theorem head_pastGap (s : Spot) : ∀ c ∈ s.pastGap.rest.head?, isGap c = false := by
  intro c hc
  have hhead := List.head?_dropWhile_not isGap s.rest
  rw [pastGap, rest_pastWhile] at hc
  rw [hc] at hhead
  simpa using hhead

theorem rest_lineEnd_lt {s : Spot} {c : Char} {rest : List Char} (h : s.rest = c :: rest)
    (hn : c ≠ '\n') : s.lineEnd.rest.length < s.rest.length := by
  rw [lineEnd, rest_pastWhile, h, List.dropWhile_cons_of_pos (by simpa using hn)]
  exact Nat.lt_succ_of_le (List.dropWhile_sublist _).length_le

theorem reaches_pastGap (s : Spot) : s.Reaches s.pastGap := s.reaches_pastWhile _

theorem reaches_lineEnd (s : Spot) : s.Reaches s.lineEnd := s.reaches_pastWhile _

theorem commentText?_prefix {cs taken : List Char} (h : commentText? cs = some taken) :
    ∃ rest, cs = taken ++ rest := by
  fun_induction commentText? cs generalizing taken with
  | case1 => simp at h
  | case2 rest => exact ⟨rest, by simp at h; simp [← h]⟩
  | case3 c cs hne ih =>
    obtain ⟨taken', h', rfl⟩ := Option.map_eq_some_iff.1 h
    obtain ⟨rest, rfl⟩ := ih h'
    exact ⟨rest, rfl⟩

theorem commentText?_closed {cs inside : List Char} (h : commentText? cs = some inside) :
    ∃ front, inside = front ++ ['*', '/'] := by
  fun_induction commentText? cs generalizing inside with
  | case1 => simp at h
  | case2 => exact ⟨[], by simpa [eq_comm] using h⟩
  | case3 c cs _ ih =>
    obtain ⟨inside', h', rfl⟩ := Option.map_eq_some_iff.1 h
    obtain ⟨front, rfl⟩ := ih h'
    exact ⟨c :: front, rfl⟩

/-- A comment is closed where it was, whatever is behind it. -/
theorem commentText?_append {cs inside rest : List Char}
    (h : commentText? cs = some inside) : commentText? (inside ++ rest) = some inside := by
  fun_induction commentText? cs generalizing inside with
  | case1 => simp at h
  | case2 =>
    obtain rfl : ['*', '/'] = inside := by simpa using h
    rfl
  | case3 c cs hne ih =>
    obtain ⟨inside', h', rfl⟩ := Option.map_eq_some_iff.1 h
    obtain ⟨after, rfl⟩ := commentText?_prefix h'
    rw [List.cons_append, commentText?.eq_def]
    split
    · rename_i he
      simp at he
    · rename_i more he
      obtain ⟨front, rfl⟩ := commentText?_closed h'
      cases front with
      | nil => simp at he
      | cons d front =>
        obtain ⟨rfl, rfl, -⟩ : c = '*' ∧ d = '/' ∧ _ := by
          simpa only [List.cons_append, List.cons.injEq] using he
        exact absurd rfl (hne _ rfl)
    · rename_i he
      obtain ⟨rfl, rfl⟩ := List.cons.inj he
      rw [ih h']
      rfl

theorem reaches_pastComment {s s' : Spot} (h : s.pastComment? = some s') : s.Reaches s' := by
  unfold pastComment? at h
  obtain ⟨taken, ht, rfl⟩ := Option.map_eq_some_iff.1 h
  obtain ⟨rest, hr⟩ := commentText?_prefix ht
  exact (s.reaches_next.trans s.next.reaches_next).trans (s.next.next.reaches_past hr)

/-- Within a text of one line, a spot is as far to the right as was read. -/
theorem reaches_line {text : List Char} {s : Spot} (h : (start text).Reaches s)
    (hl : '\n' ∉ text) : s.place.line = 1 ∧ s.place.column + s.rest.length = 1 + text.length := by
  obtain ⟨cs, hr, hp⟩ := h
  have hr : text = cs ++ s.rest := hr
  have hcs : '\n' ∉ cs := fun hm => hl (hr ▸ List.mem_append_left _ hm)
  rw [Position.behind_line hcs] at hp
  rw [hp, hr, List.length_append]
  refine ⟨rfl, ?_⟩
  simp only [start, Position.first]
  omega

/-- Lines and columns are counted from one. -/
theorem reaches_one {text : List Char} {s : Spot} (h : (start text).Reaches s) :
    1 ≤ s.place.line ∧ 1 ≤ s.place.column := by
  obtain ⟨cs, -, hp⟩ := h
  have hle := Position.line_le (Position.le_behind (start text).place cs)
  rw [hp]
  exact ⟨hle, Position.column_behind (Nat.le_refl _) _⟩

end Spot

end StoryLang
