/-
The lists of statements of a story that was made plain.

Each list of the story that was read is left as a list, in which every
statement stands behind what was put in front of it. A result about single
statements is carried over to all lists of a story at once.

Something that was taken out is due until the statement it was taken out of is
put behind it: its variable is then read by a later assignment of what was
taken out, or by what is left. Nothing is due of a condition that may have
nothing taken out, so no such condition reads a variable.
-/
import StoryLang.Proofs.Hoist.Plain
import StoryLang.Proofs.Tree.Names

namespace StoryLang.Hoist

variable {m : ScanMode} {P : Token → Prop} {g : Grammar} {t v : Tree} {base : Nat} {cs : List Coord}
  {before left : List Tree} {rule : Rule} {line : Option Coord} {ps ps' : List Tree}

/-- Statements, each with what was put in front of it. -/
inductive InFront (R : Tree → List Tree → Tree → Prop) : List Tree → List Tree → Prop where
  | nil : InFront R [] []
  | cons {t before t' ts ts'} (each : R t before t') (others : InFront R ts ts') :
    InFront R (t :: ts) (before ++ t' :: ts')

open StoryLang.Tree (lists listsAll)

theorem lists_assignment (c : Coord) : (c.assignment v).lists = v.lists := by
  rw [Coord.assignment, Tree.lists_other (by simp) (by simp), Tree.listsAll_cons, Coord.path,
    Tree.lists_other (by simp) (by simp)]
  simp [Tree.listsAll_cons]

theorem lists_linkParts {fragment : Tree} (h : fragment.isA .mutationFragment = true) :
    listsAll (linkParts fragment) = fragment.lists := by
  obtain ⟨line, ps, rfl⟩ := Tree.isA_iff.1 h
  rw [Tree.lists_other (by simp) (by simp), linkParts, Tree.parts]
  induction ps with
  | nil => rfl
  | cons p ps ih =>
    rw [List.filter_cons]
    split
    · rw [Tree.listsAll_cons, Tree.listsAll_cons, ih rfl]
    · rename_i hp
      cases p with
      | token u => simpa [Tree.listsAll_cons] using ih rfl
      | node => simp [Tree.asToken?] at hp

theorem lists_link {link : Tree → Tree → Tree} {subject fragment : Tree}
    (hl : link = firstLink ∨ link = mutationOf) (h : fragment.isA .mutationFragment = true) :
    (link subject fragment).lists = subject.lists ++ fragment.lists := by
  have hm : (mutationOf subject fragment).lists = subject.lists ++ fragment.lists := by
    rw [mutationOf, Tree.lists_other (by simp) (by simp), Tree.listsAll_cons, Tree.listsAll_cons,
      Tree.lists_other (by simp) (by simp), lists_linkParts h]
    simp
  rcases hl with rfl | rfl
  · unfold firstLink
    split
    · rw [Tree.lists_other (by simp) (by simp), Tree.listsAll_cons, lists_linkParts h]
    · exact hm
  · exact hm

/-- The lists of statements in a chain stay. -/
theorem lists_chain {link : Tree → Tree → Tree} {subject : Tree} {fragments : List Tree}
    (hl : link = firstLink ∨ link = mutationOf)
    (hf : ∀ f ∈ fragments, f.isA .mutationFragment = true)
    (h : Hoists m base (.chain link subject fragments) cs before left) :
    ∀ list ∈ listsAll (subject :: fragments), list ∈ listsAll (before ++ left) := by
  induction fragments generalizing link subject cs before with
  | nil => cases h
  | cons fragment fragments ih =>
    simp only [List.forall_mem_cons] at hf
    cases h with
    | lastLink => simp [Tree.listsAll_cons, lists_link (.inr rfl) hf.1]
    | link others =>
      intro list hlist
      rw [List.cons_append, Tree.listsAll_cons, lists_assignment, lists_link hl hf.1]
      simp only [Tree.listsAll_cons, List.mem_append] at hlist ⊢
      rcases hlist with h | h | h
      · exact .inl (.inl h)
      · exact .inl (.inr h)
      · exact .inr (ih (.inr rfl) hf.2 others list (by simp [Tree.listsAll_cons, h]))

/-- The statements of every list stand in a list, each behind what was put in front of it. -/
def Listed (R : Tree → List Tree → Tree → Prop) (lists lists' : List (List Tree)) : Prop :=
  ∀ list ∈ lists, ∃ list' ∈ lists', InFront R list list'

theorem Listed.mono {R : Tree → List Tree → Tree → Prop} {ls ls' ls'' : List (List Tree)}
    (h : Listed R ls ls') (hs : ls' ⊆ ls'') : Listed R ls ls'' := fun list hl =>
  have ⟨list', hl', hr⟩ := h list hl
  ⟨list', hs hl', hr⟩

theorem Listed.append {R : Tree → List Tree → Tree → Prop} {ls ls' us us' : List (List Tree)}
    (h : Listed R ls ls') (h' : Listed R us us') : Listed R (ls ++ us) (ls' ++ us') :=
  List.forall_mem_append.2 ⟨h.mono (by simp), h'.mono (by simp)⟩

/-- What becomes of the lists of statements of a job. -/
def Job.Lists (R : Tree → List Tree → Tree → Prop) (before left : List Tree) : Job → Prop
  | .chain _ subject fragments => listsAll (subject :: fragments) ⊆ listsAll (before ++ left)
  | .statements ts => InFront R ts left ∧ Listed R (listsAll ts) (listsAll left)
  | job => Listed R (listsAll job.input) (listsAll (before ++ left))

/-- A formed node that is no block is no list of statements. -/
theorem lists_formed (hf : Formed P g .read (.node rule line ps)) (hb : rule ≠ .block) :
    (Tree.node rule line ps').lists = listsAll ps' := by
  refine Tree.lists_other hb ?_
  rintro rfl
  cases hf with
  | node content _ _ => cases content

/-- The lists of a node that stays are those of its parts. -/
theorem listed_node {R : Tree → List Tree → Tree → Prop} (hf : Formed P g .read (.node rule line ps))
    (hb : rule ≠ .block) (h : Listed R (listsAll ps) (listsAll (before ++ ps'))) :
    Listed R (listsAll [.node rule line ps]) (listsAll (before ++ [.node rule line ps'])) := by
  simpa [Tree.listsAll_cons, lists_formed hf hb] using h

theorem Hoists.lists {R : Tree → List Tree → Tree → Prop}
    (hR : ∀ {t cs before t'}, Formed P m.grammar .read t ∧ t.isStatement = true →
      Hoists m (baseOf t) (.tree .statement t) cs before [t'] →
      (cs.Pairwise fun c d => c.base = d.base → c.seq < d.seq) →
      (∀ c ∈ cs, c.isSynthetic = true) → R t before t')
    (hg : m.grammar.KeepsLayout) (hP : ∀ u : Token, u.Sound → P u) {job : Job}
    (h : Hoists m base job cs before left) : job.Formed P m.grammar →
      (cs.Pairwise fun c d => c.base = d.base → c.seq < d.seq) →
      (∀ c ∈ cs, c.isSynthetic = true) → job.Lists R before left := by
  induction h with
  | token | none | plainString | noPieces | text | piece | string =>
    intro _ _ _ list hl
    cases hl
  | @cons base role t ts cs ds before before' t' ts' first others ih ih' =>
    intro hf hc hs
    rw [List.pairwise_append] at hc
    rw [List.forall_mem_append] at hs
    have h := (ih hf.first hc.1 hs.1).append (ih' hf.others hc.2.1 hs.2)
    simp only [Job.input] at h
    refine Listed.mono (by simpa [Job.input, Tree.listsAll_cons] using h) ?_
    simp [Tree.listsAll_cons]
    grind
  | keep keeps parts ih =>
    intro hf hc hs
    have h := ih (hf.keeps keeps) hc hs
    simp only [Job.Lists, Job.input, keeps.parts_eq] at h
    exact listed_node hf.1 (keeps.rule_ne hf.2).1 h
  | guarded ht parts ih =>
    intro hf hc hs
    have h := ih hf.parts hc hs
    simp only [Job.Lists, Job.input, List.map_map, Function.comp_def, List.map_id'] at h
    refine listed_node hf.1 ?_ h
    rcases rule_of_guarded ht with rfl | rfl <;> simp
  | @chain base role line subject fragments cs ds before before' subject' fragments' t ht parts
      links ih ih' =>
    intro hf hc hs
    rw [List.pairwise_append] at hc
    rw [List.forall_mem_append] at hs
    obtain ⟨-, hp⟩ := parts.made hg hP hf.chain
    have h := ih hf.chain hc.1 hs.1
    have hchain := ih' (hf.links hp) hc.2.1 hs.2
    simp only [Job.Lists, Job.input, List.map_cons, List.map_map, Function.comp_def,
      List.map_id', Tree.listsAll_append] at h hchain
    have hl : listsAll [.node .mutation line (subject :: fragments)] =
        listsAll (subject :: fragments) := by
      simp [Tree.listsAll_cons, lists_formed hf.1 (by simp)]
    rw [Job.Lists, Job.input, hl, List.append_assoc, Tree.listsAll_append]
    · exact h.mono (List.append_subset.2 ⟨by simp, fun list hl => by simp [hchain hl]⟩)
    all_goals simp
  | @out base role rule line ps cs seq before value ht whole ih =>
    intro hf hc hs
    have h := ih (hf.out ht) (List.pairwise_append.1 hc).1 (List.forall_mem_append.1 hs).1
    exact h.mono (by simp [Tree.listsAll_cons, lists_assignment])
  | @block base role rule line ps cs ps' ht statements ih =>
    intro hf hc hs
    obtain ⟨hblock, hlists⟩ := ih (hf.statements ht) hc hs
    obtain ⟨-, rfl⟩ := rule_of_statements ht
    intro list hl
    simp only [Job.input, Tree.listsAll_cons, Tree.listsAll_nil, Tree.lists_holds (.inl rfl),
      List.append_nil, List.nil_append, List.mem_cons] at hl ⊢
    rcases hl with rfl | hl
    · exact ⟨ps', .inl rfl, hblock⟩
    · obtain ⟨list', hl', hr⟩ := hlists list hl
      exact ⟨list', .inr hl', hr⟩
  | @lastLink base link subject fragment =>
    exact fun hf _ _ => lists_chain hf.1 (fun f h => (hf.2.2 f h).2)
      (@Hoists.lastLink m base link subject fragment)
  | link others =>
    exact fun hf _ _ => lists_chain hf.1 (fun f h => (hf.2.2 f h).2) (.link others)
  | codePath path whole ih => exact fun hf hc hs => ih hf.whole hc hs
  | codeOut noPath whole ih =>
    intro hf hc hs
    have h := ih hf.whole (List.pairwise_append.1 hc).1 (List.forall_mem_append.1 hs).1
    exact h.mono (by simp [Tree.listsAll_cons, lists_assignment])
  | noStatements => exact fun _ _ _ => ⟨.nil, fun list hl => by cases hl⟩
  | @statements base t ts cs ds before t' ts' first others ih ih' =>
    intro hf hc hs
    rw [List.pairwise_append] at hc
    rw [List.forall_mem_append] at hs
    have h := ih hf.statement hc.1 hs.1
    obtain ⟨hfront, hlists⟩ := ih' hf.otherStatements hc.2.1 hs.2
    refine ⟨.cons (hR (hf _ (by simp)) first hc.1 hs.1) hfront, ?_⟩
    rw [Tree.listsAll_cons]
    simp only [Job.Lists, Job.input, Tree.listsAll_cons, Tree.listsAll_nil, List.append_nil] at h
    simpa [Tree.listsAll_cons] using h.append hlists

end StoryLang.Hoist

/-! ## Where the variables are read -/

namespace StoryLang.Hoist

open StoryLang.Tree (lists listsAll exposed exposedAll)

variable {m : ScanMode} {P : Token → Prop} {g : Grammar} {t v : Tree} {base : Nat} {c : Coord}
  {cs : List Coord} {before left : List Tree} {role : Role} {rule : Rule} {line : Option Coord}
  {ps ps' ts us : List Tree} {n : String}

/-- Whether a name occurs in a tree outside of its blocks and of every `else if`. -/
def Shows (n : String) (t : Tree) : Prop := ∃ u ∈ t.exposed, u.isName n = true

/-- The same for a row of trees. -/
def Exposes (n : String) (ts : List Tree) : Prop := ∃ t ∈ ts, Shows n t

/-- Whether a statement is the assignment of something that was taken out. -/
def IsTaken (b : Tree) : Prop := ∃ d : Coord, d.isSynthetic = true ∧ ∃ w, b = d.assignment w

/-- A list assigns the variable of a coordinate, and a later statement reads it
behind nothing but other assignments of what was taken out. -/
def ReadIn (c : Coord) (list : List Tree) : Prop :=
  ∃ front v between user rest, list = front ++ c.assignment v :: (between ++ user :: rest) ∧
    (∀ b ∈ between, IsTaken b) ∧ user.isA .whileBlock = false ∧ Shows c.variable user

/-! ## What is exposed -/

@[simp] theorem exposes_nil : ¬ Exposes n [] := by simp [Exposes]

@[simp] theorem exposes_cons : Exposes n (t :: ts) ↔ Shows n t ∨ Exposes n ts := by
  simp [Exposes]

@[simp] theorem exposes_append : Exposes n (ts ++ us) ↔ Exposes n ts ∨ Exposes n us := by
  simp [Exposes, or_and_right, exists_or]

theorem exposes_iff : Exposes n ts ↔ ∃ u ∈ exposedAll ts, u.isName n = true := by
  induction ts with
  | nil => simp [exposedAll]
  | cons t ts ih => simp [exposedAll, ih, Shows, or_and_right, exists_or]

theorem shows_node (h : rule ≠ .block ∧ rule ≠ .elifBlock) :
    Shows n (.node rule line ps) ↔ Exposes n ps := by
  rw [Shows, Tree.exposed_node h, exposes_iff]

theorem shows_reading : Shows c.variable (reading c v) := by
  rw [reading, Coord.path, Tree.of, shows_node (by simp), exposes_cons]
  exact .inl ⟨_, List.mem_singleton_self _, by simp [Token.isName]⟩

theorem shows_assignment (h : Shows n v) : Shows n (c.assignment v) := by
  rw [Coord.assignment, shows_node (by simp)]
  simp [h]

theorem exposes_linkParts {fragment : Tree} (h : fragment.isA .mutationFragment = true)
    (hs : Shows n fragment) : Exposes n (linkParts fragment) := by
  obtain ⟨line, ps, rfl⟩ := Tree.isA_iff.1 h
  obtain ⟨p, hp, hs⟩ := (shows_node (by simp)).1 hs
  refine ⟨p, List.mem_filter.2 ⟨hp, ?_⟩, hs⟩
  cases p with
  | node => rfl
  | token u =>
    obtain ⟨u', hu, hn⟩ := hs
    obtain rfl : u' = u := List.mem_singleton.1 hu
    have hk : u'.kind = .name := by
      simp only [Token.isName, Bool.and_eq_true, decide_eq_true_eq] at hn
      exact hn.1
    simp [Tree.asToken?, hk]

theorem shows_link {link : Tree → Tree → Tree} {subject fragment : Tree}
    (hl : link = firstLink ∨ link = mutationOf) (h : fragment.isA .mutationFragment = true)
    (hs : Shows n subject ∨ Shows n fragment) : Shows n (link subject fragment) := by
  have hs := hs.imp_right (exposes_linkParts h)
  have hm : Shows n (mutationOf subject fragment) := by
    rw [mutationOf, shows_node (by simp), exposes_cons, exposes_cons, shows_node (by simp)]
    exact hs.imp_right .inl
  rcases hl with rfl | rfl
  · unfold firstLink
    split
    · rwa [shows_node (by simp), exposes_cons]
    · exact hm
  · exact hm

/-- Whatever a chain exposes is still exposed when its links are taken out. -/
theorem exposes_chain {link : Tree → Tree → Tree} {subject : Tree} {fragments : List Tree}
    (hl : link = firstLink ∨ link = mutationOf)
    (hf : ∀ f ∈ fragments, f.isA .mutationFragment = true)
    (h : Hoists m base (.chain link subject fragments) cs before left)
    (he : Exposes n (subject :: fragments)) : Exposes n (before ++ left) := by
  induction fragments generalizing link subject cs before with
  | nil => cases h
  | cons fragment fragments ih =>
    simp only [List.forall_mem_cons] at hf
    simp only [exposes_cons] at he
    cases h with
    | lastLink => simpa using shows_link (.inr rfl) hf.1 (by simpa using he)
    | link others =>
      rw [List.cons_append, exposes_cons]
      rcases he with he | he | he
      · exact .inl (shows_assignment (shows_link hl hf.1 (.inl he)))
      · exact .inl (shows_assignment (shows_link hl hf.1 (.inr he)))
      · exact .inr (ih (.inr rfl) hf.2 others (exposes_cons.2 (.inr (by simpa using he))))

theorem shows_sum (place : Position) {first : Tree} {rest : List Tree}
    (h : Exposes n (first :: rest)) : Shows n (sum place first rest) := by
  induction rest generalizing first with
  | nil => simpa [sum] using h
  | cons next rest ih =>
    simp only [exposes_cons] at h
    refine ih (exposes_cons.2 ?_)
    rw [shows_node (by simp)]
    rcases h with h | h | h <;> simp [h]

theorem shows_cast {place : Position} (h : Shows n v) : Shows n (castToString v place) := by
  rw [castToString, shows_node (by simp), exposes_cons]
  exact .inl h

/-! ## What is due -/

/-- The variable of a coordinate is assigned in front, and is read further on. -/
def Due (c : Coord) (before left : List Tree) : Prop :=
  ∃ front v behind, before = front ++ c.assignment v :: behind ∧
    Exposes c.variable (behind ++ left)

/-- A variable is due, or it is read in a list of statements. -/
def Placed (c : Coord) (before left : List Tree) : Prop :=
  (∃ list ∈ listsAll (before ++ left), ReadIn c list) ∨ Due c before left

/-- What is put around what was taken out keeps its place. -/
theorem Placed.around (h : Placed c before left) (front behind left' : List Tree)
    (hl : listsAll (before ++ left) ⊆ listsAll (front ++ before ++ behind ++ left'))
    (he : Exposes c.variable left → Exposes c.variable (behind ++ left')) :
    Placed c (front ++ before ++ behind) left' := by
  rcases h with ⟨list, hlist, hr⟩ | ⟨front', v, behind', rfl, hread⟩
  · exact .inl ⟨list, hl hlist, hr⟩
  · refine .inr ⟨front ++ front', v, behind' ++ behind, by simp, ?_⟩
    rw [List.append_assoc, exposes_append]
    exact (exposes_append.1 hread).imp_right he

/-- What is left may be part of something larger that exposes it. -/
theorem Placed.inside (h : Placed c before left) {left' : List Tree}
    (hl : listsAll left ⊆ listsAll left') (he : Exposes c.variable left → Exposes c.variable left') :
    Placed c before left' := by
  have h := h.around [] [] left' (by
    simp only [List.nil_append, List.append_nil, Tree.listsAll_append]
    exact List.append_subset.2 ⟨by simp, List.Subset.trans hl (by simp)⟩) he
  simpa using h

/-- Nothing is due if nothing was taken out. -/
theorem Placed.nothing (h : Placed c [] left) : ∃ list ∈ listsAll left, ReadIn c list := by
  rcases h with h | ⟨front, v, behind, h, -⟩
  · exact h
  · simp at h

theorem Placed.first {before' : List Tree} (h : Placed c before [t]) :
    Placed c (before ++ before') (t :: ts) := by
  have h := h.around [] before' (t :: ts) (by simp [Tree.listsAll_cons]; grind)
    (by simpa using fun h => .inr (.inl h))
  simpa using h

theorem Placed.others {before' : List Tree} (h : Placed c before' ts) :
    Placed c (before ++ before') (t :: ts) := by
  have h := h.around before [] (t :: ts) (by simp [Tree.listsAll_cons]; grind)
    (by simpa using fun h => .inr h)
  simpa using h

/-- What is taken out of a value is due, and so is the value once it is taken out. -/
theorem placed_out {seq : Nat} (h : ∀ c ∈ cs, Placed c before [v]) :
    ∀ c ∈ cs ++ [⟨base, seq⟩], Placed c (before ++ [Coord.assignment ⟨base, seq⟩ v])
      [reading ⟨base, seq⟩ v] := by
  refine List.forall_mem_append.2 ⟨fun c hc => ?_, List.forall_mem_singleton.2 ?_⟩
  · have h := (h c hc).around [] [Coord.assignment ⟨base, seq⟩ v] [reading ⟨base, seq⟩ v]
      (by simp [Tree.listsAll_cons, lists_assignment])
      (fun h => by simpa using .inl (shows_assignment (by simpa using h)))
    simpa using h
  · exact .inr ⟨before, v, [], rfl, by simpa using shows_reading⟩

def Job.Places (cs : List Coord) (before left : List Tree) : Job → Prop
  | .chain _ subject fragments => (∀ c ∈ cs, Placed c before left) ∧
      listsAll (subject :: fragments) ⊆ listsAll (before ++ left) ∧
      ∀ n, Exposes n (subject :: fragments) → Exposes n (before ++ left)
  | .statements _ => ∀ c ∈ cs, ∃ list ∈ left :: listsAll left, ReadIn c list
  | _ => ∀ c ∈ cs, Placed c before left

/-- Nothing is taken out of a `while`. -/
theorem Hoists.whileBlock (h : Hoists m base (.tree .statement (.node .whileBlock line ps)) cs before left) :
    before = [] := by
  cases h with
  | keep keeps parts => cases keeps <;> rename_i ht <;> cases ht
  | guarded => rfl
  | block ht => cases ht
  | out ht => rcases ht with ht | ht <;> cases ht

/-- A variable that is due of a statement is read in the list of the statement. -/
theorem Placed.statement {t' : Tree} (hs : ∀ c ∈ cs, c.isSynthetic = true)
    (h : Placed c before [t']) (ht : Takes P g base cs before)
    (hw : t'.isA .whileBlock = true → before = []) (ts' : List Tree) :
    ∃ list ∈ (before ++ t' :: ts') :: listsAll (before ++ t' :: ts'), ReadIn c list := by
  obtain ⟨vs, hvs, hsub, -⟩ := ht
  have htaken : ∀ b ∈ before, IsTaken b := by
    rw [hvs]
    rintro b hb
    obtain ⟨v, hv, rfl⟩ := List.mem_map.1 hb
    exact ⟨v.1, hs _ (hsub.subset (List.mem_map_of_mem hv)), v.2, rfl⟩
  rcases h with ⟨list, hl, hr⟩ | ⟨front, v, behind, hb, user, hu, hshows⟩
  · refine ⟨list, .tail _ ?_, hr⟩
    simp only [Tree.listsAll_append, Tree.listsAll_cons, Tree.listsAll_nil, List.append_nil] at hl ⊢
    rw [← List.append_assoc]
    exact List.mem_append_left _ hl
  · have hno : user.isA .whileBlock = false := by
      by_contra hno
      rcases List.mem_append.1 hu with hu | hu
      · obtain ⟨d, -, w, rfl⟩ := htaken user (by simp [hb, hu])
        exact hno rfl
      · obtain rfl := List.mem_singleton.1 hu
        have := hw (by simpa using hno)
        simp [hb] at this
    obtain ⟨between, rest, hsplit, hbetween⟩ : ∃ between rest,
        behind ++ [t'] = between ++ user :: rest ∧ between ⊆ behind := by
      rcases List.mem_append.1 hu with hu | hu
      · obtain ⟨between, rest, rfl⟩ := List.append_of_mem hu
        exact ⟨between, rest ++ [t'], by simp, by simp⟩
      · obtain rfl := List.mem_singleton.1 hu
        exact ⟨behind, [], rfl, by simp⟩
    refine ⟨_, .head _, front, v, between, user, rest ++ ts', ?_, fun b hbt => ?_, hno, hshows⟩
    · have : behind ++ t' :: ts' = (behind ++ [t']) ++ ts' := by simp
      rw [hb, List.append_assoc, List.cons_append, this, hsplit]
      simp
    · exact htaken b (by simp [hb, hbetween hbt])

theorem ReadIn.behind {list : List Tree} (h : ReadIn c list) (front : List Tree) :
    ReadIn c (front ++ list) := by
  obtain ⟨front', v, between, user, rest, rfl, hu⟩ := h
  exact ⟨front ++ front', v, between, user, rest, by simp, hu⟩

theorem Keeps.exposes {ts : List (Role × Tree)} (h : Keeps role rule ps ts)
    (ha : role.admits (.node rule line ps)) : rule ≠ .block ∧ rule ≠ .elifBlock := by
  refine ⟨(h.rule_ne ha).1, ?_⟩
  rintro rfl
  cases h <;> rename_i ht <;> cases role <;>
    simp_all [treatment, Role.admits, Tree.isStatement, Tree.fits, Tree.rule?, Tree.isNode,
      Rule.isStatement, Rule.isValue, Rule.isCall]

theorem lists_sum (place : Position) {first : Tree} {rest : List Tree} :
    (sum place first rest).lists = listsAll (first :: rest) := by
  induction rest generalizing first with
  | nil => simp [sum, Tree.listsAll_cons]
  | cons next rest ih =>
    rw [sum, ih, Tree.listsAll_cons, Tree.lists_other (by simp) (by simp)]
    simp [Tree.listsAll_cons]

theorem lists_cast (v : Tree) (place : Position) : (castToString v place).lists = v.lists := by
  have ht : (Tree.of .types [.token ⟨.name, "string", place⟩]).lists = [] := by
    rw [Tree.lists_other (by simp) (by simp)]
    simp [Tree.listsAll_cons]
  rw [castToString, Tree.lists_other (by simp) (by simp)]
  simp [Tree.listsAll_cons, ht]

theorem Hoists.places (hg : m.grammar.KeepsLayout) (hP : ∀ u : Token, u.Sound → P u) {job : Job}
    (h : Hoists m base job cs before left) : job.Formed P m.grammar →
      (∀ c ∈ cs, c.isSynthetic = true) → job.Places cs before left := by
  induction h with
  | token | none | plainString | noPieces => exact fun _ _ => by simp [Job.Places]
  | cons first others ih ih' =>
    intro hf hs
    rw [List.forall_mem_append] at hs
    have h := ih hf.first hs.1
    have h' := ih' hf.others hs.2
    exact List.forall_mem_append.2 ⟨fun c hc => (h c hc).first, fun c hc => (h' c hc).others⟩
  | @keep base role rule line ps ts cs before ps' keeps parts ih =>
    intro hf hs
    have h := ih (hf.keeps keeps) hs
    have hr := keeps.exposes hf.2
    refine fun c hc => (h c hc).inside ?_ fun he => ?_
    · exact fun list hl => by simpa [Tree.listsAll_cons] using Tree.lists_of_parts hl
    · simpa using (shows_node hr).2 he
  | @guarded base role rule line ps construct cs ps' ht parts ih =>
    intro hf hs c hc
    obtain ⟨list, hl, hr⟩ := (ih hf.parts hs c hc).nothing
    exact .inl ⟨list, by simpa [Tree.listsAll_cons] using Tree.lists_of_parts hl, hr⟩
  | @chain base role line subject fragments cs ds before before' subject' fragments' t ht parts
      links ih ih' =>
    intro hf hs
    rw [List.forall_mem_append] at hs
    obtain ⟨-, hp⟩ := parts.made hg hP hf.chain
    have h := ih hf.chain hs.1
    obtain ⟨h', hlists, hexposes⟩ := ih' (hf.links hp) hs.2
    refine List.forall_mem_append.2 ⟨fun c hc => ?_, fun c hc => ?_⟩
    · have h := (h c hc).around [] before' [t] (by
        simp only [List.nil_append, List.append_assoc, Tree.listsAll_append] at hlists ⊢
        exact List.append_subset.2 ⟨by simp, List.Subset.trans hlists (by simp)⟩) (hexposes _)
      simpa using h
    · have h := (h' c hc).around before [] [t] (by simp) (by simp)
      simpa using h
  | out ht whole ih =>
    intro hf hs
    exact placed_out (ih (hf.out ht) (List.forall_mem_append.1 hs).1)
  | @block base role rule line ps cs ps' ht statements ih =>
    intro hf hs c hc
    obtain ⟨list, hl, hr⟩ := ih (hf.statements ht) hs c hc
    obtain ⟨-, rfl⟩ := rule_of_statements ht
    exact .inl ⟨list, by simpa [Tree.listsAll_cons, Tree.lists_holds] using hl, hr⟩
  | @lastLink base link subject fragment =>
    intro hf _
    have hf' : ∀ f ∈ [fragment], f.isA .mutationFragment = true := fun f h => (hf.2.2 f h).2
    have h := @Hoists.lastLink m base link subject fragment
    exact ⟨by simp, lists_chain hf.1 hf' h, fun n => exposes_chain hf.1 hf' h⟩
  | @link base link subject fragment next fragments seq cs before t others ih =>
    rintro ⟨hl, hsub, hfs⟩ hs
    have hf' : ∀ f ∈ fragment :: next :: fragments, f.isA .mutationFragment = true :=
      fun f h => (hfs f h).2
    have h := Hoists.link others
    refine ⟨?_, lists_chain hl hf' h, fun n => exposes_chain hl hf' h⟩
    simp only [List.forall_mem_cons] at hs hfs
    obtain ⟨hplaced, -, hexposes⟩ := ih ⟨.inr rfl, ⟨formed_reading, fits_reading⟩,
      List.forall_mem_cons.2 hfs.2⟩ hs.2
    refine List.forall_mem_cons.2 ⟨.inr ⟨[], _, before, rfl, ?_⟩, fun c hc => ?_⟩
    · exact hexposes _ (exposes_cons.2 (.inl shows_reading))
    · have h := (hplaced c hc).around [Coord.assignment ⟨base, seq⟩ (link subject fragment)] [] [t]
        (by simp [Tree.listsAll_cons]) (by simp)
      simpa using h
  | string ht hasCode pieces ih =>
    intro hf hs
    have h := ih hf.pieces hs
    exact fun c hc => (h c hc).inside (by simp [Tree.listsAll_cons, lists_sum]) fun he => by
      simpa using shows_sum _ he
  | text others ih =>
    intro hf hs
    have h := ih hf.otherPieces hs
    exact fun c hc => (h c hc).inside (by simp [Tree.listsAll_cons]) fun he => by simp [he]
  | piece read code others ih ih' =>
    intro hf hs
    rw [List.forall_mem_append] at hs
    have h := ih (Job.Formed.code hg hP read) hs.1
    have h' := ih' hf.otherPieces hs.2
    refine List.forall_mem_append.2 ⟨fun c hc => Placed.first ?_, fun c hc => (h' c hc).others⟩
    exact (h c hc).inside (by simp [Tree.listsAll_cons, lists_cast]) fun he => by
      simpa using shows_cast (by simpa using he)
  | codePath path whole ih => exact fun hf hs => ih hf.whole hs
  | codeOut noPath whole ih =>
    intro hf hs
    exact placed_out (ih hf.whole (List.forall_mem_append.1 hs).1)
  | noStatements => exact fun _ _ => by simp [Job.Places]
  | @statements base t ts cs ds before t' ts' first others ih ih' =>
    intro hf hs
    rw [List.forall_mem_append] at hs
    obtain ⟨htakes, _, hl, hp⟩ := first.made hg hP hf.statement
    obtain rfl := List.singleton_inj.1 hl
    have hw : t'.isA .whileBlock = true → before = [] := by
      intro hw
      have hst : t.isStatement = true := hf.statement.2
      cases hp.turns with
      | token => simp [Tree.isStatement, Tree.rule?] at hst
      | @node rule line ps rule' ps' left =>
        rw [leaves_statement (by simpa [Tree.isStatement, Tree.rule?] using hst),
          List.mem_singleton] at left
        obtain rfl : rule = .whileBlock := by simpa [Tree.isA, Tree.rule?, left] using hw
        exact first.whileBlock
    refine List.forall_mem_append.2 ⟨fun c hc => ?_, fun c hc => ?_⟩
    · exact (ih hf.statement hs.1 c hc).statement hs.1 htakes hw ts'
    · obtain ⟨list, hl, hr⟩ := ih' hf.otherStatements hs.2 c hc
      rcases List.mem_cons.1 hl with rfl | hl
      · exact ⟨_, .head _, by simpa using hr.behind (before ++ [t'])⟩
      · exact ⟨list, List.mem_cons_of_mem _ (by simp [Tree.listsAll_cons, hl]), hr⟩

end StoryLang.Hoist
