/-
Where the name of a variable occurs in a tree.

An occurrence is the target of an assignment or reads the variable. What is
exposed of a statement is what it does not leave to its blocks or to an
`else if`, which come to be executed only later, if at all.
-/
import StoryLang.Hoist.Issued
import StoryLang.Proofs.Tree.Form

namespace StoryLang

/-- Whether a token is that name. -/
def Token.isName (n : String) (t : Token) : Bool := t.kind = .name && t.literal = n

namespace Tree

variable {n : String} {r : Rule} {l : Option Coord} {ps ts us : List Tree} {t : Tree} {u : Token}

/-- How often a name occurs in a tree. -/
def occurs (n : String) (t : Tree) : Nat := t.yield.countP (Token.isName n)

/-- How often a name occurs in a row of trees. -/
def occursAll (n : String) (ts : List Tree) : Nat := (yieldAll ts).countP (Token.isName n)

/-- Whether a tree is an assignment to the variable of that name. -/
def assigns (n : String) : Tree → Bool
  | node .assignment _ (node .path _ [token u] :: _) => u.isName n
  | _ => false

/-- How often a variable is assigned in a tree. -/
def assigned (n : String) (t : Tree) : Nat := t.walk.countP (assigns n)

/-- How often a variable is assigned in a row of trees. -/
def assignedAll (n : String) (ts : List Tree) : Nat := (walkAll ts).countP (assigns n)

/-- How often a variable is read in a tree: every occurrence but the target of
an assignment reads it. -/
def reads (n : String) (t : Tree) : Nat := t.occurs n - t.assigned n

mutual

/-- The tokens of a tree outside of its blocks and of every `else if`. -/
def exposed : Tree → List Token
  | token u => [u]
  | node r _ ps => if r = .block ∨ r = .elifBlock then [] else exposedAll ps

/-- The tokens of a row of trees outside of blocks and of every `else if`. -/
def exposedAll : List Tree → List Token
  | [] => []
  | t :: ts => exposed t ++ exposedAll ts

end

/-- Whether the parts of a tree are a list of statements. -/
def holdsList (t : Tree) : Bool := t.isA .start || t.isA .block

/-- The lists of statements in a tree, at every depth. -/
def lists (t : Tree) : List (List Tree) := (t.walk.filter holdsList).map parts

/-- The lists of statements in a row of trees. -/
def listsAll (ts : List Tree) : List (List Tree) := ((walkAll ts).filter holdsList).map parts

/-! ## Rows -/

@[simp] theorem walkAll_append : walkAll (ts ++ us) = walkAll ts ++ walkAll us := by
  induction ts with
  | nil => rfl
  | cons t ts ih => rw [List.cons_append, walkAll, walkAll, ih, List.append_assoc]

theorem walkAll_eq (ts : List Tree) : walkAll ts = ts.flatMap walk := by
  induction ts with
  | nil => rfl
  | cons t ts ih => simp [Tree.walkAll, ih]

/-- What holds of every node of a tree holds of its root and of every node of its parts. -/
theorem forall_mem_walk {p : Tree → Prop} :
    (∀ n ∈ (node r l ps).walk, p n) ↔ p (node r l ps) ∧ ∀ q ∈ ps, ∀ n ∈ q.walk, p n := by
  simp only [walk, List.forall_mem_cons, walkAll_eq, List.mem_flatMap]
  refine and_congr_right fun _ => ⟨fun h q hq n hn => h n ⟨q, hq, hn⟩, fun h n hn => ?_⟩
  obtain ⟨q, hq, hn⟩ := hn
  exact h q hq n hn

theorem walk_part {n p : Tree} (hp : p ∈ ps) (h : n ∈ p.walk) : n ∈ (node r l ps).walk := by
  rw [walk, walkAll_eq]
  exact List.mem_cons_of_mem _ (List.mem_flatMap.2 ⟨p, hp, h⟩)

/-- The nodes of a node in a tree are in the tree. -/
theorem walk_subset {n : Tree} (t : Tree) (h : n ∈ t.walk) : n.walk ⊆ t.walk := by
  induction t using byParts with
  | token u => cases h
  | node rule line ps ih =>
    rw [walk, List.mem_cons, walkAll_eq, List.mem_flatMap] at h
    rcases h with rfl | ⟨q, hq, hn⟩
    · exact List.Subset.refl _
    · exact fun u hu => walk_part hq (ih q hq hn hu)

@[simp] theorem occursAll_nil : occursAll n [] = 0 := rfl

@[simp] theorem occursAll_cons : occursAll n (t :: ts) = t.occurs n + occursAll n ts := by
  rw [occursAll, yieldAll, List.countP_append, occurs, occursAll]

@[simp] theorem occursAll_append : occursAll n (ts ++ us) = occursAll n ts + occursAll n us := by
  rw [occursAll, yieldAll_append, List.countP_append, occursAll, occursAll]

@[simp] theorem occurs_token : (token u).occurs n = if u.isName n then 1 else 0 := by
  simp [occurs, yield, List.countP_cons]

@[simp] theorem occurs_node : (node r l ps).occurs n = occursAll n ps := rfl

@[simp] theorem assignedAll_nil : assignedAll n [] = 0 := rfl

@[simp] theorem assignedAll_cons : assignedAll n (t :: ts) = t.assigned n + assignedAll n ts := by
  rw [assignedAll, walkAll, List.countP_append, assigned, assignedAll]

@[simp] theorem assignedAll_append :
    assignedAll n (ts ++ us) = assignedAll n ts + assignedAll n us := by
  rw [assignedAll, walkAll_append, List.countP_append, assignedAll, assignedAll]

@[simp] theorem assigned_token : (token u).assigned n = 0 := rfl

theorem assigned_node : (node r l ps).assigned n =
    assignedAll n ps + if (node r l ps).assigns n then 1 else 0 := by
  rw [assigned, walk, List.countP_cons, assignedAll]

theorem assigns_other (h : r ≠ .assignment) : (node r l ps).assigns n = false := by
  unfold assigns
  split
  · rename_i heq
    exact absurd (Tree.node.inj heq).1 h
  · rfl

/-- Only an assignment counts itself. -/
theorem assigned_other (h : r ≠ .assignment) : (node r l ps).assigned n = assignedAll n ps := by
  rw [assigned_node, assigns_other h]
  rfl

theorem occursAll_pos_of_assigns (h : (node r l ps).assigns n = true) : 0 < occursAll n ps := by
  unfold assigns at h
  split at h
  · rename_i heq
    obtain ⟨-, -, rfl⟩ := Tree.node.inj heq
    simp only [occursAll_cons, occurs_node, occurs_token, h, if_true]
    omega
  · cases h

mutual

/-- Every assignment has an occurrence of its own. -/
theorem assigned_le_occurs : ∀ t : Tree, t.assigned n ≤ t.occurs n
  | token _ => Nat.zero_le _
  | node r l [] => by
    rw [assigned_node]
    unfold assigns
    split
    · rename_i heq
      cases (Tree.node.inj heq).2.2
    · exact Nat.le_refl _
  | node r l (p :: ps) => by
    have hp := assigned_le_occurs p
    have hps := assignedAll_le_occursAll ps
    rw [assigned_node, occurs_node, assignedAll_cons, occursAll_cons]
    by_cases h : (node r l (p :: ps)).assigns n = true
    · rw [if_pos h]
      unfold assigns at h
      split at h
      · rename_i heq
        obtain ⟨rfl, rfl⟩ := List.cons.inj (Tree.node.inj heq).2.2
        simp only [assigned_node, assigns, assignedAll_cons, assigned_token, assignedAll_nil,
          Bool.false_eq_true, if_false, occurs_node, occursAll_cons, occurs_token, h, if_true]
        omega
      · cases h
    · rw [if_neg h]
      omega

theorem assignedAll_le_occursAll : ∀ ts : List Tree, assignedAll n ts ≤ occursAll n ts
  | [] => Nat.le_refl _
  | t :: ts => by
    rw [assignedAll_cons, occursAll_cons]
    exact Nat.add_le_add (assigned_le_occurs t) (assignedAll_le_occursAll ts)

end

/-- No story has a name that is issued. -/
theorem occursAll_sound (h : ∀ u ∈ yieldAll ts, u.Sound) (hn : isIssuedName n = true) :
    occursAll n ts = 0 := by
  refine List.countP_eq_zero.2 fun u hu hname => ?_
  simp only [Token.isName, Bool.and_eq_true, decide_eq_true_eq] at hname
  have hsound := (h u hu).name hname.1
  rw [hname.2, hn] at hsound
  cases hsound

@[simp] theorem listsAll_nil : listsAll [] = [] := rfl

@[simp] theorem listsAll_append : listsAll (ts ++ us) = listsAll ts ++ listsAll us := by
  rw [listsAll, walkAll_append, List.filter_append, List.map_append, listsAll, listsAll]

theorem listsAll_cons : listsAll (t :: ts) = t.lists ++ listsAll ts := by
  rw [listsAll, walkAll, List.filter_append, List.map_append, lists, listsAll]

theorem lists_other (hb : r ≠ .block) (hs : r ≠ .start) : (node r l ps).lists = listsAll ps := by
  have h : (node r l ps).holdsList = false := by simp [holdsList, isA, rule?, hb, hs]
  rw [lists, walk, List.filter_cons, if_neg (by simp [h]), listsAll]

theorem lists_holds (h : r = .block ∨ r = .start) : (node r l ps).lists = ps :: listsAll ps := by
  have h : (node r l ps).holdsList = true := by
    rcases h with rfl | rfl <;> simp [holdsList, isA, rule?]
  rw [lists, walk, List.filter_cons, if_pos h, List.map_cons, listsAll]
  rfl

@[simp] theorem lists_token : (token u).lists = [] := rfl

theorem lists_of_parts {list : List Tree} (h : list ∈ listsAll ps) :
    list ∈ (node r l ps).lists := by
  obtain ⟨w, hw, rfl⟩ := List.mem_map.1 h
  obtain ⟨hw, hl⟩ := List.mem_filter.1 hw
  refine List.mem_map.2 ⟨w, List.mem_filter.2 ⟨?_, hl⟩, rfl⟩
  rw [walk]
  exact List.mem_cons_of_mem _ hw

mutual

/-- The tokens of the nodes in a tree are its own. -/
theorem yield_of_mem_walk {n : Tree} {u : Token} (hu : u ∈ n.yield) :
    ∀ t : Tree, n ∈ t.walk → u ∈ t.yield
  | token _, h => by simp [walk] at h
  | node r l ps, h => by
    rcases List.mem_cons.1 (walk.eq_2 r l ps ▸ h) with rfl | h
    · exact hu
    · exact yieldAll_of_mem_walkAll hu ps h

theorem yieldAll_of_mem_walkAll {n : Tree} {u : Token} (hu : u ∈ n.yield) :
    ∀ ts : List Tree, n ∈ walkAll ts → u ∈ yieldAll ts
  | [], h => by simp [walkAll] at h
  | t :: ts, h => by
    rw [yieldAll, List.mem_append]
    rcases List.mem_append.1 (walkAll.eq_2 t ts ▸ h) with h | h
    · exact .inl (yield_of_mem_walk hu t h)
    · exact .inr (yieldAll_of_mem_walkAll hu ts h)

end

theorem exposed_node (h : r ≠ .block ∧ r ≠ .elifBlock) : (node r l ps).exposed = exposedAll ps := by
  rw [exposed, if_neg (by simp [h])]

end Tree

namespace Formed

variable {P : Token → Prop} {g : Grammar} {s : Stage} {t : Tree}

/-- The nodes of a formed tree are formed. -/
theorem of_mem_walk (h : Formed P g s t) : ∀ n ∈ t.walk, Formed P g s n := by
  induction h with
  | token t => simp [Tree.walk]
  | node content own parts ih =>
    exact Tree.forall_mem_walk.2 ⟨.node content own parts, ih⟩

/-- The strings of a tree that was read. -/
theorem string_of_mem_walk (h : Formed P g .read t) {line : Option Coord} {u : Token}
    (hu : .node .string line [.token u] ∈ t.walk) : u.kind = .string ∧ P u ∧ u ∈ t.yield := by
  have hyield := Tree.yield_of_mem_walk (u := u) (by simp [Tree.yield, Tree.yieldAll]) t hu
  cases h.of_mem_walk _ hu with
  | node content _ _ =>
    cases content with
    | string kind sound => exact ⟨kind, sound rfl, hyield⟩

end Formed

end StoryLang
