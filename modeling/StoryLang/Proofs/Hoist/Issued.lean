/-
Coordinates are issued once, and so are their variables.

Whatever was issued before, what is issued next under a line comes after it:
this is what one step does (`get_next`), and what a run of any length gives is
by induction on it (`Runs`). Issuing that goes on from a tree starts behind
every coordinate of the tree, at any depth (`seq_le_ofTree`).
-/
import StoryLang.Hoist.Issued
import StoryLang.Proofs.Coord
import StoryLang.Proofs.Token.Follow
import StoryLang.Proofs.Tree.Layers
import StoryLang.Proofs.Tree.Names

namespace StoryLang

/-! ## Variables -/

namespace Coord

variable {c d : Coord}

theorem toList_variable (c : Coord) : c.variable.toList = 'p' :: '-' :: c.text.toList := by
  rw [Coord.variable, String.toList_append]
  rfl

theorem variable_inj (h : c.variable = d.variable) : c = d := by
  refine text_inj (String.toList_inj.1 ?_)
  have hlist := congrArg String.toList h
  rw [toList_variable, toList_variable] at hlist
  exact (List.cons.inj (List.cons.inj hlist).2).2

theorem dash_mem_variable (c : Coord) : '-' ∈ c.variable.toList := by simp [toList_variable]

theorem isIssuedName_variable (c : Coord) : isIssuedName c.variable = true := by
  rw [isIssuedName, toList_variable]
  rfl

/-- No text has a name that is one of a coordinate. -/
theorem ne_variable {m : ScanMode} {text : List Char} {tokens : List Token} {t : Token}
    (h : (scan m text).tokens = .ok tokens) (ht : t ∈ tokens) (hk : t.kind = .name) (c : Coord) :
    t.literal ≠ c.variable := by
  intro heq
  have hsound := ((scan_ok h).valid t ht).sound.name hk
  rw [heq, isIssuedName_variable] at hsound
  cases hsound

end Coord

namespace Issued

/-! ## Runs -/

/-- Coordinates issued one after the other. -/
inductive Runs : Issued → List Coord → Issued → Prop where
  | nil {i} : Runs i [] i
  | cons {i i' cs} (base : Nat) (others : Runs (i.next base).2 cs i') :
    Runs i ((i.next base).1 :: cs) i'

variable {i i' i'' : Issued} {cs ds : List Coord} {c : Coord}

namespace Runs

theorem append (h : Runs i cs i') (h' : Runs i' ds i'') : Runs i (cs ++ ds) i'' := by
  induction h with
  | nil => exact h'
  | cons base _ ih => exact .cons base (ih h')

theorem get_next (i : Issued) (base base' : Nat) : i.get base' ≤ (i.next base).2.get base' := by
  by_cases h : base' = base
  · subst h
    simp [next, get_set_self]
  · simp [next, get_set_other _ _ h]

/-- A coordinate is issued after all that were issued under its line before. -/
theorem fresh (h : Runs i cs i') : ∀ c ∈ cs, i.get c.base < c.seq := by
  induction h with
  | nil => simp
  | @cons i i' cs base _ ih =>
    refine List.forall_mem_cons.2 ⟨Nat.lt_succ_self _, fun c hc => ?_⟩
    exact Nat.lt_of_le_of_lt (get_next i base c.base) (ih c hc)

/-- Under each line the coordinates increase. -/
theorem increasing (h : Runs i cs i') : cs.Pairwise fun c d => c.base = d.base → c.seq < d.seq := by
  induction h with
  | nil => exact .nil
  | @cons i i' cs base others ih =>
    refine List.pairwise_cons.2 ⟨fun d hd hb => ?_, ih⟩
    have hf := others.fresh d hd
    rw [← show base = d.base from hb] at hf
    simpa [next, get_set_self] using hf

theorem synthetic (h : Runs i cs i') : ∀ c ∈ cs, c.isSynthetic = true := by
  intro c hc
  have := h.fresh c hc
  simp only [Coord.isSynthetic, ne_eq, decide_not, Bool.not_eq_eq_eq_not, Bool.not_true,
    decide_eq_false_iff_not]
  omega

theorem nodup (h : Runs i cs i') : cs.Nodup := by
  refine h.increasing.imp ?_
  rintro c d hlt rfl
  exact Nat.lt_irrefl _ (hlt rfl)

theorem variables_nodup (h : Runs i cs i') : (cs.map Coord.variable).Nodup :=
  List.pairwise_map.2 (h.nodup.imp fun hne heq => hne (Coord.variable_inj heq))

end Runs

/-! ## Going on from a tree -/

theorem get_cover (i : Issued) (c : Coord) (base : Nat) : (i.cover c).get base =
    if c.isSynthetic ∧ base = c.base then max (i.get base) c.seq else i.get base := by
  rw [cover]
  split
  · rename_i hs
    by_cases hb : base = c.base
    · subst hb
      rw [get_set_self, if_pos ⟨hs, rfl⟩]
    · rw [get_set_other _ _ hb, if_neg fun h => hb h.2]
  · rename_i hs
    rw [if_neg fun h => hs h.1]

theorem le_cover (i : Issued) (c : Coord) (base : Nat) : i.get base ≤ (i.cover c).get base := by
  rw [get_cover]
  split
  · exact Nat.le_max_left _ _
  · exact Nat.le_refl _

theorem le_coverAll (i : Issued) (cs : List Coord) (base : Nat) :
    i.get base ≤ (cs.foldl cover i).get base := by
  induction cs generalizing i with
  | nil => exact Nat.le_refl _
  | cons c cs ih => exact Nat.le_trans (le_cover i c base) (ih (i.cover c))

/-- What is counted as issued is not issued again. -/
theorem seq_le_coverAll (i : Issued) (hs : c.isSynthetic = true) (hc : c ∈ cs) :
    c.seq ≤ (cs.foldl cover i).get c.base := by
  induction cs generalizing i with
  | nil => cases hc
  | cons d cs ih =>
    rcases List.mem_cons.1 hc with rfl | hc
    · refine Nat.le_trans ?_ (le_coverAll (i.cover c) cs c.base)
      rw [get_cover, if_pos ⟨hs, rfl⟩]
      exact Nat.le_max_right _ _
    · exact ih (i.cover d) hc

theorem walk_of_under {t u : Tree} {rules : List Rule} (h : t.Under rules u) (hu : u.isNode = true) :
    u ∈ t.walk := by
  induction h with
  | self t =>
    cases t with
    | token => cases hu
    | node => exact List.mem_cons_self
  | part mem _ ih => exact Tree.walk_part mem (ih hu)

/-- Every coordinate that stands in a tree is counted, at any depth. -/
theorem seq_le_ofTree {t u : Tree} {rules : List Rule} (hu : t.Under rules u) (hc : u.ownLine? = some c)
    (hs : c.isSynthetic = true) : c.seq ≤ (ofTree t).get c.base := by
  have hnode : u.isNode = true := by
    cases u with
    | token => cases hc
    | node => rfl
  exact seq_le_coverAll _ hs (List.mem_filterMap.2 ⟨u, walk_of_under hu hnode, hc⟩)

/-! ## Requests -/

/-- What can be asked for under a line: a coordinate, or to take a value out. -/
inductive Request where
  | coordinate (base : Nat)
  | assignment (base : Nat) (value : Tree)

namespace Request

def base : Request → Nat
  | coordinate base => base
  | assignment base _ => base

end Request

/-- What is given: a coordinate, or an assignment and the path that reads its variable. -/
inductive Reply where
  | coordinate (c : Coord)
  | assignment (assigned path : Tree)

namespace Reply

/-- The coordinate that was issued. -/
def line? : Reply → Option Coord
  | coordinate c => some c
  | assignment assigned _ => assigned.ownLine?

/-- The name of its variable. -/
def name? : Reply → Option String
  | coordinate c => some c.variable
  | assignment _ path => path.leaf?.map (·.literal)

end Reply

/-- Answers a request. -/
def reply (i : Issued) : Request → Reply × Issued
  | .coordinate base => ((.coordinate (i.next base).1), (i.next base).2)
  | .assignment base value =>
    let ((assigned, path), i) := i.assign base value
    (.assignment assigned path, i)

/-- Answers requests, one after the other. -/
def replies (i : Issued) : List Request → List Reply
  | [] => []
  | r :: rs => (i.reply r).1 :: replies (i.reply r).2 rs

/-- The answer to each request has the next coordinate. -/
theorem reply_next (i : Issued) (r : Request) : (i.reply r).1.line? = some (i.next r.base).1 ∧
    (i.reply r).1.name? = some (i.next r.base).1.variable ∧ (i.reply r).2 = (i.next r.base).2 := by
  cases r <;> exact ⟨rfl, rfl, rfl⟩

theorem replies_runs (i : Issued) (rs : List Request) : ∃ cs i', Runs i cs i' ∧
    cs.map Coord.base = rs.map Request.base ∧
    (i.replies rs).map Reply.line? = cs.map some ∧
    (i.replies rs).map Reply.name? = cs.map (some ·.variable) := by
  induction rs generalizing i with
  | nil => exact ⟨[], i, .nil, rfl, rfl, rfl⟩
  | cons r rs ih =>
    obtain ⟨hline, hname, hissued⟩ := reply_next i r
    obtain ⟨cs, i', hruns, hbases, hlines, hnames⟩ := ih (i.reply r).2
    rw [hissued] at hruns
    refine ⟨_ :: cs, i', .cons r.base hruns, ?_, ?_, ?_⟩
    · rw [List.map_cons, List.map_cons, hbases]
      rfl
    · rw [replies, List.map_cons, List.map_cons, hlines, hline]
    · rw [replies, List.map_cons, List.map_cons, hnames, hname]

/-- An assignment is to the path that is given with it. -/
theorem target_of_mem_replies {assigned path : Tree} (i : Issued) (rs : List Request)
    (h : .assignment assigned path ∈ i.replies rs) :
    assigned.isA .assignment = true ∧ assigned.node? 0 = some path := by
  induction rs generalizing i with
  | nil => cases h
  | cons r rs ih =>
    rcases List.mem_cons.1 h with hr | hrs
    · cases r with
      | coordinate base => cases hr
      | assignment base value =>
        obtain ⟨rfl, rfl⟩ := Reply.assignment.inj hr
        exact ⟨rfl, rfl⟩
    · exact ih _ hrs

/-- Nothing is issued twice. Issuing that goes on from a tree answers any
requests in any order with coordinates of their lines that increase under each
line, come after all that the tree has under that line, and are none of a line
of the story. No two of them are the same, nor are two of their variables, and
no text has a name that is one of these. A value is assigned to the path that is
given for it. -/
theorem replies_fresh (t : Tree) (rs : List Request) : ∃ cs : List Coord,
    ((ofTree t).replies rs).map Reply.line? = cs.map some ∧
    ((ofTree t).replies rs).map Reply.name? = cs.map (some ·.variable) ∧
    cs.map Coord.base = rs.map Request.base ∧
    cs.Pairwise (fun c d => c.base = d.base → c < d) ∧
    (∀ c ∈ cs, c.isSynthetic = true ∧
      (∀ rules u d, t.Under rules u → u.ownLine? = some d → d.isSynthetic = true →
        d.base = c.base → d < c) ∧
      '-' ∈ c.variable.toList ∧
      ∀ m text tokens, (scan m text).tokens = .ok tokens →
        ∀ token ∈ tokens, token.kind = .name → token.literal ≠ c.variable) ∧
    cs.Nodup ∧ (cs.map Coord.variable).Nodup ∧
    ∀ assigned path, .assignment assigned path ∈ (ofTree t).replies rs →
      assigned.isA .assignment = true ∧ assigned.node? 0 = some path := by
  obtain ⟨cs, i', hruns, hbases, hlines, hnames⟩ := replies_runs (ofTree t) rs
  refine ⟨cs, hlines, hnames, hbases, ?_, fun c hc => ?_, hruns.nodup, hruns.variables_nodup,
    fun _ _ => target_of_mem_replies _ rs⟩
  · exact hruns.increasing.imp fun hlt hb => .inr ⟨hb, hlt hb⟩
  · refine ⟨hruns.synthetic c hc, fun rules u d hu hd hs hb => ?_, c.dash_mem_variable,
      fun m text tokens h token ht hk => Coord.ne_variable h ht hk c⟩
    refine .inr ⟨hb, Nat.lt_of_le_of_lt (seq_le_ofTree hu hd hs) ?_⟩
    rw [hb]
    exact hruns.fresh c hc

/-- Issuing goes on behind what the tree has under the line. -/
example : (((ofTree (.of .start [.node .assignment (some ⟨2, 3⟩) []])).replies
    [.coordinate 2, .coordinate 0, .coordinate 2]).map Reply.line?) =
      [some ⟨2, 4⟩, some ⟨0, 1⟩, some ⟨2, 5⟩] := rfl

end Issued

end StoryLang
