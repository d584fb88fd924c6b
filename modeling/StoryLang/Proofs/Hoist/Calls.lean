/-
The calls of a statement, and the order in which they are issued.

A call is known by the name it calls: the command of a service, the name of a
function, or what a link of a chain does. As it is written, a statement issues
them from left to right, each after those in its arguments. Making it plain
keeps this order save in a chain, which issues the arguments of all its links
before the first link.
-/
import StoryLang.Proofs.Hoist.Placement
import StoryLang.Proofs.Hoist.Normal
import StoryLang.Proofs.Hoist.Outline

namespace StoryLang

/-- The order in which a chain issues what its links are given and the links themselves. -/
inductive LinkOrder where
  /-- Each link right after what it is given. -/
  | written
  /-- What all links are given, then the links. -/
  | argumentsFirst
  deriving DecidableEq

/-- The calls of a chain behind its subject. -/
def LinkOrder.issue (given names : List (List Token)) : LinkOrder → List Token
  | .written => (List.zipWith (· ++ ·) given names).flatten
  | .argumentsFirst => given.flatten ++ names.flatten

namespace Tree

/-- The name that a node calls, if it calls one. -/
def command (t : Tree) : List Token :=
  if t.isA .serviceCall || t.isA .functionCall || t.isA .mutationFragment then
    (t.token? .name).toList
  else []

mutual

/-- The calls of a tree outside of its blocks. `code` has those in the code of a string. -/
def issues (o : LinkOrder) (code : Token → List Token) : Tree → List Token
  | token _ => []
  | node .block _ _ => []
  | node .string _ [token u] => code u
  | node .mutation _ (subject :: fragments) =>
    issues o code subject ++ o.issue (issuesEach o code fragments) (fragments.map command)
  -- the name of a link is left to its chain
  | node .mutationFragment _ ps => (issuesEach o code ps).flatten
  | node r l ps => (issuesEach o code ps).flatten ++ (node r l ps).command

/-- The calls of each tree of a row. -/
def issuesEach (o : LinkOrder) (code : Token → List Token) : List Tree → List (List Token)
  | [] => []
  | t :: ts => issues o code t :: issuesEach o code ts

end

end Tree

namespace Hoist

/-- The calls in the code of a string, to a depth of strings in code in strings. -/
def codeCalls (o : LinkOrder) (m : ScanMode) : Nat → Token → List Token
  | 0, _ => []
  | depth + 1, t => (Pieces.split t.literal.toList).flatMap fun
    | .text _ => []
    | .code source offset =>
      match readCode m source ⟨t.line, t.column + 1 + offset⟩ with
      | .error _ => []
      | .ok v => v.issues o (codeCalls o m depth)

/-- The calls in the code of a string, which no code in it is too deep for. -/
def stringCalls (o : LinkOrder) (m : ScanMode) (t : Token) : List Token :=
  codeCalls o m (t.literal.length + 1) t

/-- The calls of a tree outside of its blocks, those in the code of its strings included. -/
def calls (o : LinkOrder) (m : ScanMode) (t : Tree) : List Token := t.issues o (stringCalls o m)

/-- The calls of a row of trees. -/
def callsAll (o : LinkOrder) (m : ScanMode) (ts : List Tree) : List Token :=
  ts.flatMap (calls o m)

end Hoist

/-! ## Calls of a tree -/

namespace Tree

variable {o : LinkOrder} {f f' : Token → List Token} {t : Tree} {ts : List Tree} {r : Rule}
  {l : Option Coord} {ps : List Tree}

theorem issuesEach_eq : issuesEach o f ts = ts.map (issues o f) := by
  induction ts with
  | nil => rfl
  | cons t ts ih => rw [issuesEach, ih, List.map_cons]

theorem issues_node (hb : r ≠ .block) (hs : r ≠ .string) (hm : r ≠ .mutation)
    (hf : r ≠ .mutationFragment) :
    (node r l ps).issues o f = ps.flatMap (issues o f) ++ (node r l ps).command := by
  rw [issues, issuesEach_eq, List.flatMap_def] <;> simp_all

theorem issues_block (h : t.isA .block = true) : t.issues o f = [] := by
  obtain ⟨l, ps, rfl⟩ := isA_iff.1 h
  rw [issues]

theorem issues_chain {fragments : List Tree} : (node .mutation l (t :: fragments)).issues o f =
    t.issues o f ++ o.issue (fragments.map (issues o f)) (fragments.map command) := by
  rw [issues, issuesEach_eq]

theorem issues_fragment : (node .mutationFragment l ps).issues o f = ps.flatMap (issues o f) := by
  rw [issues, issuesEach_eq, List.flatMap_def]

mutual

/-- Only the code of its own strings counts. -/
theorem issues_congr : ∀ t : Tree, (∀ l u, node .string l [token u] ∈ t.walk → f u = f' u) →
    t.issues o f = t.issues o f'
  | token _, _ => by rw [issues, issues]
  | node r l ps, h => by
    have hps := issuesEach_congr ps fun l u hu => h l u (by rw [walk]; exact .tail _ hu)
    by_cases hm : r = .mutation
    · subst hm
      cases ps with
      | nil => rw [issues, issues, issuesEach, issuesEach] <;> simp
      | cons subject fragments =>
        obtain ⟨hs, hf⟩ := List.cons.inj hps
        rw [issues, issues, hs, hf]
    by_cases hs : ∃ u, r = .string ∧ ps = [token u]
    · obtain ⟨u, rfl, rfl⟩ := hs
      rw [issues, issues, h l u (by simp [walk])]
    · unfold issues
      split <;> simp_all

theorem issuesEach_congr : ∀ ts : List Tree,
    (∀ l u, node .string l [token u] ∈ walkAll ts → f u = f' u) →
      issuesEach o f ts = issuesEach o f' ts
  | [], _ => rfl
  | t :: ts, h => by
    rw [issuesEach, issuesEach, issues_congr t, issuesEach_congr ts] <;>
      intro l u hu <;> refine h l u ?_ <;> rw [walkAll, List.mem_append]
    · exact .inr hu
    · exact .inl hu

end

end Tree

namespace Hoist

variable {o : LinkOrder} {m : ScanMode} {P : Token → Prop} {g : Grammar}

/-! ## Calls in strings -/

/-- A string in the code of a string is shorter than the code. -/
theorem readCode_shortNode (hg : m.grammar.KeepsLayout) {source : List Char} {start : Position}
    {v : Tree} (h : readCode m source start = .ok v) {l : Option Coord} {u : Token}
    (hu : .node .string l [.token u] ∈ v.walk) : u.literal.length ≤ source.length := by
  obtain ⟨_, _, _, _, hd⟩ := readCode_derives hg h
  obtain ⟨-, hf⟩ := hd.formed_one (P := fun _ => True) fun _ _ => trivial
  obtain ⟨hkind, -, hyield⟩ := hf.string_of_mem_walk hu
  exact readCode_short hg h hyield hkind

/-- The calls in a piece of a string. -/
def pieceCalls (o : LinkOrder) (m : ScanMode) (t : Token) : Piece → List Token
  | .text _ => []
  | .code source offset =>
    match readCode m source ⟨t.line, t.column + 1 + offset⟩ with
    | .error _ => []
    | .ok v => calls o m v

/-- A code in a string is shorter than the string. -/
theorem piece_short (hg : m.grammar.KeepsLayout) {t : Token} {source : List Char} {offset : Nat}
    (hp : .code source offset ∈ Pieces.split t.literal.toList) {v : Tree}
    (hv : readCode m source ⟨t.line, t.column + 1 + offset⟩ = .ok v) {l : Option Coord} {u : Token}
    (hu : .node .string l [.token u] ∈ v.walk) : u.literal.length < t.literal.length := by
  obtain ⟨pre, post, hraw, -⟩ := Pieces.mem_split hp
  have hlen := congrArg List.length hraw
  have := readCode_shortNode hg hv hu
  simp only [List.length_append, List.length_cons, String.length_toList] at hlen
  omega

/-- Deeper than a string is long the depth does not count. -/
theorem codeCalls_deep (hg : m.grammar.KeepsLayout) {depth depth' : Nat} {t : Token}
    (h : t.literal.length < depth) (h' : t.literal.length < depth') :
    codeCalls o m depth t = codeCalls o m depth' t := by
  induction depth generalizing depth' t with
  | zero => omega
  | succ depth ih =>
    obtain ⟨depth', rfl⟩ : ∃ k, depth' = k + 1 := ⟨depth' - 1, by omega⟩
    rw [codeCalls, codeCalls]
    refine List.flatMap_congr fun p hp => ?_
    cases p with
    | text => rfl
    | code source offset =>
      dsimp only
      split
      · rfl
      · rename_i v hv
        refine Tree.issues_congr v fun l u hu => ?_
        have := piece_short hg hp hv hu
        exact ih (by omega) (by omega)

theorem stringCalls_eq (hg : m.grammar.KeepsLayout) (t : Token) :
    stringCalls o m t = (Pieces.split t.literal.toList).flatMap (pieceCalls o m t) := by
  rw [stringCalls, codeCalls]
  refine List.flatMap_congr fun p hp => ?_
  cases p with
  | text => rfl
  | code source offset =>
    dsimp only [pieceCalls]
    split
    · rfl
    · rename_i v hv
      exact Tree.issues_congr v fun l u hu => codeCalls_deep hg (piece_short hg hp hv hu) (by omega)

theorem stringCalls_noCode (hg : m.grammar.KeepsLayout) {t : Token}
    (h : Pieces.hasCode t.literal.toList = false) : stringCalls o m t = [] := by
  rw [stringCalls_eq hg, List.flatMap_eq_nil_iff]
  intro p hp
  cases p with
  | text => rfl
  | code source offset =>
    rw [Pieces.hasCode, List.any_eq_false] at h
    exact absurd rfl (h _ hp)

/-! ## Calls of what is taken out and put in -/

variable {t v : Tree} {ts us : List Tree} {base : Nat} {cs : List Coord} {before left : List Tree}
  {role : Role} {rule : Rule} {line : Option Coord} {ps ps' : List Tree}

@[simp] theorem callsAll_nil : callsAll o m [] = [] := rfl

@[simp] theorem callsAll_cons : callsAll o m (t :: ts) = calls o m t ++ callsAll o m ts :=
  List.flatMap_cons

@[simp] theorem callsAll_append : callsAll o m (ts ++ us) = callsAll o m ts ++ callsAll o m us :=
  List.flatMap_append

theorem callsAll_none (h : ∀ t ∈ ts, calls o m t = []) : callsAll o m ts = [] :=
  List.flatMap_eq_nil_iff.2 h

@[simp] theorem calls_token (u : Token) : calls o m (.token u) = [] := by
  rw [calls, Tree.issues]

theorem calls_node (hb : rule ≠ .block) (hs : rule ≠ .string) (hm : rule ≠ .mutation)
    (hf : rule ≠ .mutationFragment) : calls o m (.node rule line ps) =
      callsAll o m ps ++ (Tree.node rule line ps).command :=
  Tree.issues_node hb hs hm hf

/-- A node of another rule calls nothing itself. -/
theorem calls_other (hb : rule ≠ .block) (hs : rule ≠ .string) (hc : rule.isCall = false) :
    calls o m (.node rule line ps) = callsAll o m ps := by
  by_cases hf : rule = .mutationFragment
  · subst hf
    exact Tree.issues_fragment
  · have hm : rule ≠ .mutation := by
      rintro rfl
      cases hc
    rw [calls_node hb hs hm hf, Tree.command, if_neg, List.append_nil]
    cases rule <;> simp_all [Tree.isA, Tree.rule?, Rule.isCall]

@[simp] theorem calls_reading (c : Coord) : calls o m (reading c v) = [] := by
  rw [reading, Coord.path, Tree.of, calls_other (by simp) (by simp) rfl]
  simp

@[simp] theorem calls_assignment (c : Coord) : calls o m (c.assignment v) = calls o m v := by
  have h := calls_reading (o := o) (m := m) (v := v) c
  rw [reading] at h
  rw [Coord.assignment, calls_other (by simp) (by simp) rfl]
  simp [h]

theorem calls_sum (place : Position) {first : Tree} {rest : List Tree} (h : calls o m first = [])
    (hr : ∀ t ∈ rest, calls o m t = []) : calls o m (sum place first rest) = [] := by
  induction rest generalizing first with
  | nil => exact h
  | cons next rest ih =>
    simp only [List.forall_mem_cons] at hr
    refine ih ?_ hr.2
    rw [Tree.of, calls_other (by simp) (by simp) rfl]
    simp [h, hr.1]

theorem calls_cast {place : Position} (h : calls o m v = []) :
    calls o m (castToString v place) = [] := by
  rw [castToString, Tree.of, calls_other (by simp) (by simp) rfl]
  have ht : calls o m (.of .types [.token ⟨.name, "string", place⟩]) = [] := by
    rw [Tree.of, calls_other (by simp) (by simp) rfl]
    simp
  simp [h, ht]

/-! ## Links -/

theorem callsAll_linkParts (fragment : Tree) :
    callsAll o m (linkParts fragment) = callsAll o m fragment.parts := by
  unfold linkParts
  induction fragment.parts with
  | nil => rfl
  | cons p ps ih =>
    rw [List.filter_cons]
    split
    · rw [callsAll_cons, callsAll_cons, ih]
    · rename_i hp
      cases p with
      | token u => simpa using ih
      | node => simp [Tree.asToken?] at hp

/-- A `then` is no name. -/
theorem token?_linkParts (rule : Rule) (line : Option Coord) (fragment : Tree) :
    (Tree.node rule line (linkParts fragment)).token? .name = fragment.token? .name := by
  rw [Tree.token?, Tree.token?, Tree.tokens, Tree.tokens, linkParts, Tree.parts]
  induction fragment.parts with
  | nil => rfl
  | cons p ps ih =>
    rw [List.filter_cons]
    cases p with
    | node => simpa [Tree.asToken?] using ih
    | token u =>
      by_cases hu : u.kind = .keyword .thenWord
      · simpa [Tree.asToken?, hu] using ih
      · rw [if_pos (by simp [Tree.asToken?, hu])]
        change List.find? _ (u :: List.filterMap _ _) = List.find? _ (u :: List.filterMap _ _)
        rw [List.find?_cons, List.find?_cons, ih]

/-- A mutation of one link, whichever order. -/
theorem calls_mutationOf {subject fragment : Tree} (h : fragment.isA .mutationFragment = true) :
    calls o m (mutationOf subject fragment) =
      calls o m subject ++ calls o m fragment ++ fragment.command := by
  obtain ⟨line, ps, rfl⟩ := Tree.isA_iff.1 h
  have hc : (Tree.of .mutationFragment (linkParts (.node .mutationFragment line ps))).command =
      (Tree.node .mutationFragment line ps).command := by
    simp [Tree.command, Tree.isA, Tree.rule?, token?_linkParts]
  have hf : calls o m (.of .mutationFragment (linkParts (.node .mutationFragment line ps))) =
      calls o m (.node .mutationFragment line ps) := by
    rw [Tree.of, calls_other (by simp) (by simp) rfl, calls_other (by simp) (by simp) rfl,
      callsAll_linkParts, Tree.parts]
  rw [calls] at hf
  rw [mutationOf, calls, Tree.issues_chain]
  cases o <;> simp [LinkOrder.issue, hc, hf, calls]

theorem calls_link {link : Tree → Tree → Tree} {subject fragment : Tree}
    (hl : link = firstLink ∨ link = mutationOf) (h : fragment.isA .mutationFragment = true) :
    calls o m (link subject fragment) =
      calls o m subject ++ calls o m fragment ++ fragment.command := by
  rcases hl with rfl | rfl
  · unfold firstLink
    split
    · rename_i hp
      obtain ⟨sline, sps, rfl⟩ := Tree.isA_iff.1 hp
      obtain ⟨line, ps, rfl⟩ := Tree.isA_iff.1 h
      have hc : (Tree.of .serviceCall (.node .path sline sps ::
          linkParts (.node .mutationFragment line ps))).command =
            (Tree.node .mutationFragment line ps).command := by
        have := token?_linkParts .mutationFragment line (.node .mutationFragment line ps)
        simp_all [Tree.command, Tree.isA, Tree.rule?, Tree.token?, Tree.tokens, Tree.parts, Tree.asToken?]
      have hf : calls o m (.node .mutationFragment line ps) = callsAll o m ps :=
        calls_other (by simp) (by simp) rfl
      rw [Tree.of, calls_node (by simp) (by simp) (by simp) (by simp), hc, callsAll_cons,
        callsAll_linkParts, hf, Tree.parts, List.append_assoc]
    · exact calls_mutationOf h
  · exact calls_mutationOf h

/-- Links that are given nothing issue themselves one after the other. -/
theorem callsAll_chain {link : Tree → Tree → Tree} {subject : Tree} {fragments : List Tree}
    (hl : link = firstLink ∨ link = mutationOf) (hs : calls o m subject = [])
    (hf : ∀ f ∈ fragments, f.isA .mutationFragment = true ∧ calls o m f = [])
    (h : Hoists m base (.chain link subject fragments) cs before left) :
    callsAll o m (before ++ left) = fragments.flatMap Tree.command := by
  induction fragments generalizing link subject cs before with
  | nil => cases h
  | cons fragment fragments ih =>
    simp only [List.forall_mem_cons] at hf
    cases h with
    | lastLink => simp [calls_mutationOf hf.1.1, hs, hf.1.2]
    | link others =>
      have hrest := ih (.inr rfl) (calls_reading _) hf.2 others
      rw [List.cons_append, callsAll_cons, hrest, calls_assignment, calls_link hl hf.1.1, hs,
        hf.1.2]
      rfl

/-! ## The calls of a job -/

/-- Whether what is left of a tree is no call and has none in it. -/
def isQuiet (role : Role) (t : Tree) : Prop :=
  role = .operand ∨ role = .part ∨ t.isA .path = true

/-- The calls of a tree are those of what was taken out and of what is left. -/
structure Issuing (m : ScanMode) (role : Role) (t : Tree) (before : List Tree) (t' : Tree) :
    Prop where
  calls : callsAll .written m (before ++ [t']) = calls .argumentsFirst m t
  quiet : isQuiet role t → Hoist.calls .written m t' = []
  command : t.isA .mutationFragment = true → t'.command = t.command

/-- The same for a row, in which only the last tree may leave a call. -/
structure IssuingRow (m : ScanMode) (ts : List (Role × Tree)) (before left : List Tree) :
    Prop where
  calls : (ts.Pairwise fun p _ => isQuiet p.1 p.2) →
    callsAll .written m (before ++ left) = callsAll .argumentsFirst m (ts.map Prod.snd)
  quiet : (∀ p ∈ ts, isQuiet p.1 p.2) → ∀ t' ∈ left, Hoist.calls .written m t' = []
  commands : List.Forall₂
    (fun p t' => p.2.isA .mutationFragment = true → t'.command = p.2.command) ts left

def Job.Issues (m : ScanMode) (before left : List Tree) : Job → Prop
  | .tree role t => ∃ t', left = [t'] ∧ Issuing m role t before t'
  | .row ts => IssuingRow m ts before left
  | .pieces t ps => callsAll .written m before = ps.flatMap (pieceCalls .argumentsFirst m t) ∧
      ∀ t' ∈ left, calls .written m t' = []
  | .code v => callsAll .written m before = calls .argumentsFirst m v ∧
      ∀ t' ∈ left, calls .written m t' = []
  | .chain _ _ _ | .statements _ => True

namespace IssuingRow

variable {ts : List (Role × Tree)}

theorem none : IssuingRow m [] [] [] := ⟨fun _ => rfl, by simp, .nil⟩

theorem cons {before' left' : List Tree} {t' : Tree} (h : Issuing m role t before t')
    (h' : IssuingRow m ts before' left') :
    IssuingRow m ((role, t) :: ts) (before ++ before') (t' :: left') := by
  refine ⟨fun hp => ?_, fun hq => ?_, .cons h.command h'.commands⟩
  · obtain ⟨hq, hp⟩ := List.pairwise_cons.1 hp
    have hcalls := h.calls
    have hcalls' := h'.calls hp
    rw [List.map_cons, callsAll_cons, ← hcalls, ← hcalls']
    cases ts with
    | nil =>
      simp only [List.map_nil, callsAll_nil, callsAll_append, List.append_eq_nil_iff] at hcalls'
      simp [hcalls']
    | cons q ts => simp [h.quiet (hq q (by simp))]
  · simp only [List.forall_mem_cons] at hq ⊢
    exact ⟨h.quiet hq.1, h'.quiet hq.2⟩

/-- If no tree leaves a call, all calls were taken out. -/
theorem taken (h : IssuingRow m ts before left) (hq : ∀ p ∈ ts, isQuiet p.1 p.2) :
    callsAll .written m before = callsAll .argumentsFirst m (ts.map Prod.snd) ∧
      callsAll .written m left = [] := by
  have hleft := callsAll_none (h.quiet hq)
  have hcalls := h.calls (List.pairwise_of_forall_mem_list fun p hp _ _ => hq p hp)
  rw [callsAll_append, hleft, List.append_nil] at hcalls
  exact ⟨hcalls, hleft⟩

end IssuingRow

theorem quiet_parts : ∀ p ∈ ps.map (Role.part, ·), isQuiet p.1 p.2 := by
  intro p hp
  obtain ⟨t, -, rfl⟩ := List.mem_map.1 hp
  exact .inr (.inl rfl)

/-- Only the last part of a node that stays may leave a call. -/
theorem Keeps.lastIssues {ts : List (Role × Tree)} (hk : Keeps role rule ps ts)
    (hf : Formed P g .read (.node rule line ps)) : ts.Pairwise fun p _ => isQuiet p.1 p.2 := by
  cases hk with
  | parts => exact List.pairwise_of_forall_mem_list fun p hp _ _ => quiet_parts p hp
  | @last lastRole _ =>
    obtain rfl | ⟨front, last, rfl⟩ := List.eq_nil_or_concat ps
    · exact .nil
    · rw [List.concat_eq_append, lastAs_append]
      refine List.pairwise_append.2 ⟨?_, by simp, fun p hp _ _ => quiet_parts p hp⟩
      exact List.pairwise_of_forall_mem_list fun p hp _ _ => quiet_parts p hp
  | values ht =>
    obtain rfl := rule_of_values ht
    cases hf with
    | node content _ _ =>
      cases content with
      | expressionStatement => simp

/-- A node that stays inside a larger value is no call. -/
theorem Keeps.quiet {ts : List (Role × Tree)} (hk : Keeps role rule ps ts)
    (hq : isQuiet role (.node rule line ps)) :
    rule.isCall = false ∧ ∀ p ∈ ts, isQuiet p.1 p.2 := by
  have hr : treatment role rule = .parts ∧ rule.isCall = false := by
    rcases hq with rfl | rfl | hp
    · cases hk <;> rename_i ht <;> cases rule <;> simp_all [treatment, asOperand, Rule.isCall]
    · cases hk <;> rename_i ht <;> cases rule <;> simp_all [treatment, asOperand, Rule.isCall]
    · obtain rfl : rule = .path := by simpa [Tree.isA, Tree.rule?] using hp
      cases role <;> exact ⟨rfl, rfl⟩
  refine ⟨hr.2, ?_⟩
  cases hk with
  | parts => exact quiet_parts
  | last ht | values ht => rw [hr.1] at ht; cases ht

theorem tokens_eq {ts : List (Role × Tree)} (h : List.Forall₂ (fun p t' => Plain P g p.1 p.2 t') ts ps') :
    ps'.filterMap Tree.asToken? = (ts.map Prod.snd).filterMap Tree.asToken? := by
  induction h with
  | nil => rfl
  | @cons p t' ts ps' h _ ih =>
    have ht : t'.asToken? = p.2.asToken? := by
      cases p
      cases h.turns <;> rfl
    rw [List.map_cons, List.filterMap_cons, List.filterMap_cons, ht, ih]

theorem issuing_keep {ts : List (Role × Tree)} (hf : (Job.tree role (.node rule line ps)).Formed P g)
    (hk : Keeps role rule ps ts) (hp : List.Forall₂ (fun p t' => Plain P g p.1 p.2 t') ts ps')
    (h : IssuingRow m ts before ps') :
    Issuing m role (.node rule line ps) before (.node rule line ps') := by
  obtain ⟨hb, hm⟩ := hk.rule_ne hf.2
  have hs := hk.ne_string hf.2
  have hrow := h.calls (hk.lastIssues hf.1)
  have htokens := tokens_eq hp
  rw [hk.parts_eq] at hrow htokens
  have hc : (Tree.node rule line ps').command = (Tree.node rule line ps).command := by
    simp [Tree.command, Tree.isA, Tree.rule?, Tree.token?, Tree.tokens, Tree.parts, htokens]
  refine ⟨?_, fun hq => ?_, fun _ => hc⟩
  · rw [callsAll_append] at hrow
    by_cases hfrag : rule = .mutationFragment
    · subst hfrag
      rw [callsAll_append, callsAll_cons, callsAll_nil, calls_other hb hs rfl, calls_other hb hs rfl,
        List.append_nil, hrow]
    · rw [callsAll_append, callsAll_cons, callsAll_nil, calls_node hb hs hm hfrag,
        calls_node hb hs hm hfrag, hc, List.append_nil, ← List.append_assoc, hrow]
  · obtain ⟨hcall, hq⟩ := hk.quiet hq
    rw [calls_other hb hs hcall, (h.taken hq).2]

theorem commands_eq {fragments fragments' : List Tree}
    (h : List.Forall₂ (fun p t' => p.2.isA .mutationFragment = true → t'.command = p.2.command)
      (fragments.map (Role.part, ·)) fragments')
    (hf : ∀ f ∈ fragments, f.isA .mutationFragment = true) :
    fragments'.flatMap Tree.command = fragments.flatMap Tree.command := by
  induction fragments generalizing fragments' with
  | nil =>
    cases h
    rfl
  | cons f fs ih =>
    simp only [List.forall_mem_cons] at hf
    cases h with
    | cons h hs => rw [List.flatMap_cons, List.flatMap_cons, h hf.1, ih hs hf.2]

theorem calls_written (subject : Tree) (fragments : List Tree) :
    calls .argumentsFirst m (.node .mutation line (subject :: fragments)) =
      calls .argumentsFirst m subject ++ callsAll .argumentsFirst m fragments ++
        fragments.flatMap Tree.command := by
  rw [calls, Tree.issues_chain, LinkOrder.issue, ← List.append_assoc]
  rfl

theorem Hoists.issues (hg : m.grammar.KeepsLayout) (hP : ∀ u : Token, u.Sound → P u) {job : Job}
    (h : Hoists m base job cs before left) :
    job.Formed P m.grammar → job.Issues m before left := by
  induction h with
  | token =>
    exact fun _ => ⟨_, rfl, by simp, fun _ => by simp, fun _ => rfl⟩
  | none => exact fun _ => .none
  | cons first others ih ih' =>
    intro hf
    obtain ⟨_, hl, ht⟩ := ih hf.first
    obtain rfl := List.singleton_inj.1 hl
    exact .cons ht (ih' hf.others)
  | keep keeps parts ih =>
    intro hf
    obtain ⟨-, hp⟩ := parts.made hg hP (hf.keeps keeps)
    exact ⟨_, rfl, issuing_keep hf keeps hp (ih (hf.keeps keeps))⟩
  | @guarded base role rule line ps construct cs ps' ht parts ih =>
    intro hf
    obtain ⟨hcalls, hleft⟩ := (ih hf.parts).taken quiet_parts
    have hr : rule ≠ .block ∧ rule ≠ .string ∧ rule ≠ .mutationFragment ∧ rule.isCall = false := by
      rcases rule_of_guarded ht with rfl | rfl <;> simp [Rule.isCall]
    have hl : calls .written m (.node rule line ps') = [] := by
      rw [calls_other hr.1 hr.2.1 hr.2.2.2, hleft]
    refine ⟨_, rfl, ?_, fun _ => hl, fun h => ?_⟩
    · rw [List.map_map, Function.comp_def, List.map_id'] at hcalls
      rw [List.nil_append, callsAll_cons, hl, calls_other hr.1 hr.2.1 hr.2.2.2, ← hcalls]
      rfl
    · exact absurd (by simpa [Tree.isA, Tree.rule?] using h) hr.2.2.1
  | @chain base role line subject fragments cs ds before before' subject' fragments' t ht parts
      links ih =>
    intro hf
    have hrow := ih hf.chain
    obtain ⟨-, hp⟩ := parts.made hg hP hf.chain
    obtain ⟨hl, hs, hfs⟩ := hf.links hp
    obtain ⟨hcalls, hleft⟩ := hrow.taken (List.forall_mem_cons.2 ⟨.inl rfl, quiet_parts⟩)
    have hleft := List.flatMap_eq_nil_iff.1 hleft
    have hlinks := callsAll_chain (o := .written) (.inl rfl) (hleft _ (by simp))
      (fun f hf => ⟨(hfs f hf).2, hleft f (by simp [hf])⟩) links
    have hr : role ≠ .operand ∧ role ≠ .part := by
      constructor <;> rintro rfl <;> cases ht
    refine ⟨_, rfl, ?_, fun hq => ?_, fun h => by simp [Tree.isA, Tree.rule?] at h⟩
    · cases hf.1 with
      | node content _ _ =>
        cases content with
        | chain value linked alone each =>
          cases hrow.commands with
          | cons _ hcommands =>
            rw [commands_eq hcommands (List.forall_mem_cons.2 ⟨linked, each⟩)] at hlinks
            rw [List.append_assoc, callsAll_append, hlinks, hcalls, calls_written]
            simp [Function.comp_def]
    · simp [isQuiet, hr, Tree.isA, Tree.rule?] at hq
  | @out base role rule line ps cs seq before value ht whole ih =>
    intro hf
    obtain ⟨_, hl, hv⟩ := ih (hf.out ht)
    obtain rfl := List.singleton_inj.1 hl
    obtain ⟨-, hc⟩ := rule_of_out ht
    refine ⟨_, rfl, ?_, fun _ => calls_reading _, fun h => ?_⟩
    · have := hv.calls
      simp_all
    · obtain rfl : rule = .mutationFragment := by simpa [Tree.isA, Tree.rule?] using h
      cases hc
  | block ht statements =>
    intro hf
    obtain ⟨-, rfl⟩ := rule_of_statements ht
    have hb : ∀ {o ts line}, calls o m (.node .block line ts) = [] := Tree.issues_block rfl
    exact ⟨_, rfl, by simp [hb], fun _ => hb, fun h => by simp [Tree.isA, Tree.rule?] at h⟩
  | @plainString base role line t ht text =>
    intro _
    have hs : ∀ o, calls o m (.node .string line [.token t]) = [] := fun o => by
      rw [calls, Tree.issues, stringCalls_noCode hg text]
    exact ⟨_, rfl, by simp [hs], fun _ => hs _, fun h => by simp [Tree.isA, Tree.rule?] at h⟩
  | @string base role line t cs before first rest ht hasCode pieces ih =>
    intro hf
    obtain ⟨hcalls, hleft⟩ := ih hf.pieces
    simp only [List.forall_mem_cons] at hleft
    have hsum := calls_sum t.position hleft.1 hleft.2
    refine ⟨_, rfl, ?_, fun _ => hsum, fun h => by simp [Tree.isA, Tree.rule?] at h⟩
    rw [callsAll_append, callsAll_cons, hsum, hcalls, calls, Tree.issues, stringCalls_eq hg]
    simp
  | noPieces => exact fun _ => ⟨rfl, by simp⟩
  | @text base t raw ps cs before rest others ih =>
    intro hf
    obtain ⟨hcalls, hleft⟩ := ih hf.otherPieces
    refine ⟨hcalls, List.forall_mem_cons.2 ⟨?_, hleft⟩⟩
    rw [calls, Tree.of, Tree.issues, stringCalls_noCode hg]
    simpa using Pieces.hasCode_text (hf.2.2 _ List.mem_cons_self)
  | piece read code others ih ih' =>
    intro hf
    obtain ⟨hcalls, hleft⟩ := ih (Job.Formed.code hg hP read)
    obtain ⟨hcalls', hleft'⟩ := ih' hf.otherPieces
    refine ⟨?_, List.forall_mem_cons.2 ⟨calls_cast (hleft _ (by simp)), hleft'⟩⟩
    rw [callsAll_append, hcalls, hcalls', List.flatMap_cons]
    simp [pieceCalls, read]
  | codePath path whole ih =>
    intro hf
    obtain ⟨_, hl, hv⟩ := ih hf.whole
    obtain rfl := List.singleton_inj.1 hl
    have hquiet := hv.quiet (.inr (.inr path))
    have hcalls := hv.calls
    rw [callsAll_append, callsAll_cons, hquiet] at hcalls
    exact ⟨by simpa using hcalls, by simpa using hquiet⟩
  | codeOut noPath whole ih =>
    intro hf
    obtain ⟨_, hl, hv⟩ := ih hf.whole
    obtain rfl := List.singleton_inj.1 hl
    exact ⟨by simpa using hv.calls, by simp⟩
  | lastLink | link | noStatements | statements => exact fun _ => trivial

/-! ## The order as written -/

/-- A tree stands in another one outside of its blocks, maybe in the code of a string. -/
inductive Within (m : ScanMode) (n : Tree) : Tree → Prop where
  | self : Within m n n
  | part {r l ps p} (outside : r ≠ .block) (mem : p ∈ ps) (inner : Within m n p) :
    Within m n (.node r l ps)
  | code {l u source offset v} (mem : .code source offset ∈ Pieces.split u.literal.toList)
      (read : readCode m source ⟨u.line, u.column + 1 + offset⟩ = .ok v) (inner : Within m n v) :
    Within m n (.node .string l [.token u])

theorem Within.trans {n n' : Tree} (h : Within m n n') (h' : Within m n' t) : Within m n t := by
  induction h' with
  | self => exact h
  | part outside mem _ ih => exact .part outside mem ih
  | code mem read _ ih => exact .code mem read ih

/-- Only the first link of a chain is given calls. -/
def FirstLinkOnly (m : ScanMode) (t : Tree) : Prop :=
  t.isA .mutation = true → ∀ f ∈ t.parts.drop 2, calls .written m f = []

theorem zipWith_none {given names : List (List Token)} (hl : given.length = names.length)
    (h : ∀ g ∈ given, g = []) : List.zipWith (· ++ ·) given names = names := by
  induction given generalizing names with
  | nil => exact (List.length_eq_zero_iff.1 hl.symm).symm
  | cons g given ih =>
    cases names with
    | nil => rfl
    | cons n names =>
      simp only [List.forall_mem_cons, List.length_cons, Nat.add_right_cancel_iff] at h hl
      simp [h.1, ih hl h.2]

/-- If only the first link is given calls, the orders are the same. -/
theorem issue_eq {given names : List (List Token)} (hl : given.length = names.length)
    (h : ∀ g ∈ given.drop 1, g = []) :
    LinkOrder.issue given names .written = LinkOrder.issue given names .argumentsFirst := by
  match given, names with
  | [], [] => rfl
  | g :: given, n :: names =>
    simp only [List.drop_one, List.tail_cons, List.length_cons, Nat.add_right_cancel_iff] at h hl
    simp [LinkOrder.issue, zipWith_none hl h, List.flatten_eq_nil_iff.2 h]

/-- The orders are the same for a tree if they are for its strings. -/
theorem calls_eq_of_strings : ∀ t : Tree, (∀ n, Within m n t → FirstLinkOnly m n) →
    (∀ l u, .node .string l [.token u] ∈ t.walk → Within m (.node .string l [.token u]) t →
      stringCalls .written m u = stringCalls .argumentsFirst m u) →
    calls .written m t = calls .argumentsFirst m t
  | .token u, _, _ => by rw [calls_token, calls_token]
  | .node r l ps, h, hs => by
    by_cases hb : r = .block
    · subst hb
      rw [calls, calls, Tree.issues_block rfl, Tree.issues_block rfl]
    have hps : ∀ p ∈ ps, calls .written m p = calls .argumentsFirst m p := fun p hp =>
      calls_eq_of_strings p (fun n hn => h n (.part hb hp hn)) fun l u hu hw =>
        hs l u (by
          rw [Tree.walk, Tree.walkAll_eq]
          exact .tail _ (List.mem_flatMap.2 ⟨p, hp, hu⟩)) (.part hb hp hw)
    have hall : callsAll .written m ps = callsAll .argumentsFirst m ps := List.flatMap_congr hps
    by_cases hm : ∃ subject fragments, r = .mutation ∧ ps = subject :: fragments
    · obtain ⟨subject, fragments, rfl, rfl⟩ := hm
      simp only [List.forall_mem_cons] at hps
      have hgiven : fragments.map (calls .written m) = fragments.map (calls .argumentsFirst m) :=
        List.map_congr_left hps.2
      have hfirst := h _ .self rfl
      rw [calls, calls, Tree.issues_chain, Tree.issues_chain]
      change calls .written m subject ++ LinkOrder.issue (fragments.map (calls .written m)) _ _ =
        calls .argumentsFirst m subject ++ LinkOrder.issue (fragments.map (calls .argumentsFirst m)) _ _
      rw [hps.1, issue_eq (by simp), hgiven]
      intro calls' hc
      rw [← List.map_drop] at hc
      obtain ⟨f, hf, rfl⟩ := List.mem_map.1 hc
      exact hfirst f hf
    by_cases hstring : ∃ u, r = .string ∧ ps = [.token u]
    · obtain ⟨u, rfl, rfl⟩ := hstring
      rw [calls, calls, Tree.issues, Tree.issues]
      exact hs l u (by simp [Tree.walk]) .self
    · have hnode : ∀ o, calls o m (.node r l ps) = callsAll o m ps ++
          if r = .mutationFragment then [] else (Tree.node r l ps).command := by
        intro o
        rw [calls, Tree.issues.eq_def]
        split <;> simp_all [callsAll, Tree.issuesEach_eq, List.flatMap_def] <;> rfl
      rw [hnode, hnode, hall]

/-- If no link of a chain but the first is given calls, they are issued as they are written. -/
theorem calls_eq (hg : m.grammar.KeepsLayout) {t : Tree}
    (h : ∀ n, Within m n t → FirstLinkOnly m n) :
    calls .written m t = calls .argumentsFirst m t := by
  -- strings in the code of a string are shorter than it
  have hshort : ∀ (k : Nat) (t : Tree), (∀ n, Within m n t → FirstLinkOnly m n) →
      (∀ l u, .node .string l [.token u] ∈ t.walk → u.literal.length < k) →
        calls .written m t = calls .argumentsFirst m t := by
    intro k
    induction k with
    | zero => exact fun t h hk => calls_eq_of_strings t h fun l u hu => absurd (hk l u hu) (by omega)
    | succ k ih =>
      intro t h hk
      refine calls_eq_of_strings t h fun l u hu hw => ?_
      rw [stringCalls_eq hg, stringCalls_eq hg]
      refine List.flatMap_congr fun p hp => ?_
      cases p with
      | text => rfl
      | code source offset =>
        dsimp only [pieceCalls]
        split
        · rfl
        · rename_i v hv
          refine ih v (fun n hn => h n ((Within.code hp hv hn).trans hw)) fun l' u' hu' => ?_
          have := piece_short hg hp hv hu'
          have := hk l u hu
          omega
  have hk : ∀ l u, .node .string l [.token u] ∈ t.walk → u.literal.length < depthOf t :=
    fun l u hu => length_lt_depthOf u (Tree.yield_of_mem_walk (by simp [Tree.yield, Tree.yieldAll]) t hu)
  exact hshort _ t h hk

/-! ## The order of a statement -/

/-- The calls of a statement, in the order in which what was put in front of it and
what is left of it issue them. -/
structure InOrder (m : ScanMode) (t : Tree) (before : List Tree) (t' : Tree) : Prop where
  /-- What was put in front is in the order of its coordinates. -/
  lines : ∃ ds : List Coord, before.map Tree.line? = ds.map some ∧
    (∀ d ∈ ds, d.base = baseOf t ∧ d.isSynthetic = true) ∧ ds.Pairwise fun c d => c.seq < d.seq
  /-- A chain issues what all its links are given ahead of the links. -/
  calls : callsAll .written m (before ++ [t']) = calls .argumentsFirst m t
  written : (∀ n, Within m n t → FirstLinkOnly m n) →
    callsAll .written m (before ++ [t']) = Hoist.calls .written m t

theorem inOrder (hg : m.grammar.KeepsLayout) (hP : ∀ u : Token, u.Sound → P u) {t' : Tree}
    (hf : Formed P m.grammar .read t ∧ t.isStatement = true)
    (h : Hoists m (baseOf t) (.tree .statement t) cs before [t'])
    (hc : cs.Pairwise fun c d => c.base = d.base → c.seq < d.seq)
    (hs : ∀ c ∈ cs, c.isSynthetic = true) : InOrder m t before t' := by
  obtain ⟨_, hl, hissuing⟩ := h.issues hg hP hf
  obtain rfl := List.singleton_inj.1 hl
  exact ⟨(h.made hg hP hf).1.lines hc hs, hissuing.calls,
    fun hw => hissuing.calls.trans (calls_eq hg hw).symm⟩

/-- In every list of statements the calls of each statement are issued in order. -/
theorem story_calls (hg : m.grammar.Accepted) {tokens : List Token} {t t' : Tree}
    (ht : Tree.ofTokens m.grammar tokens = .ok t) (h : story m t = .ok t') :
    ∀ list ∈ t.lists, ∃ list' ∈ t'.lists, InFront (InOrder m) list list' := by
  obtain ⟨trees, cs, left, i, rfl, rfl, -, hformed, hr, hh⟩ := story_hoists hg.keepsLayout ht h
  have hin := hh.lists (R := InOrder m) (inOrder hg.keepsLayout fun _ _ => trivial) hg.keepsLayout
    (fun _ _ => trivial) hformed hr.increasing hr.synthetic
  intro list hl
  rw [Tree.lists_holds (.inr rfl)] at hl ⊢
  rcases List.mem_cons.1 hl with rfl | hl
  · exact ⟨left, .head _, hin.1⟩
  · obtain ⟨list', hl', h⟩ := hin.2 list hl
    exact ⟨list', .tail _ hl', h⟩

/-- A list with a chain whose first link is given a call, in a block. -/
theorem story_calls_block : Grammar.builtIn.Accepted ∧ ∃ tokens t t',
    (scan ⟨.builtIn, false⟩ "if true\n    x = [(a f y:(s c) then g)]\n".toList).tokens = .ok tokens ∧
      Tree.ofTokens .builtIn tokens = .ok t ∧ story ⟨.builtIn, false⟩ t = .ok t' ∧
      ∀ list ∈ t.lists, ∃ list' ∈ t'.lists, InFront (InOrder ⟨.builtIn, false⟩) list list' := by
  have h : ((scan ⟨.builtIn, false⟩
      "if true\n    x = [(a f y:(s c) then g)]\n".toList).tokens.toOption.bind fun tokens =>
        (Tree.ofTokens .builtIn tokens).toOption.bind fun t =>
          (story ⟨.builtIn, false⟩ t).toOption).isSome = true := by
    decide +kernel
  obtain ⟨t', h⟩ := Option.isSome_iff_exists.1 h
  obtain ⟨tokens, hs, h⟩ := Option.bind_eq_some_iff.1 h
  obtain ⟨t, ht, h⟩ := Option.bind_eq_some_iff.1 h
  rw [toOption_eq_some] at hs ht h
  exact ⟨.builtIn, tokens, t, t', hs, ht, h, @story_calls ⟨.builtIn, false⟩ .builtIn _ _ _ ht h⟩

/-- A chain whose second link is given a call issues this call first, though
its first link is written before it. -/
theorem story_calls_secondLink : ∃ tokens t t',
    (scan ⟨.builtIn, false⟩ "x = a f then g x:(s c)\n".toList).tokens = .ok tokens ∧
      Tree.ofTokens .builtIn tokens = .ok t ∧ story ⟨.builtIn, false⟩ t = .ok t' ∧
      (callsAll .written ⟨.builtIn, false⟩ t.parts).map (·.literal.toList) = [['f'], ['c'], ['g']] ∧
      (callsAll .written ⟨.builtIn, false⟩ t'.parts).map (·.literal.toList) =
        [['c'], ['f'], ['g']] := by
  have h : ((scan ⟨.builtIn, false⟩ "x = a f then g x:(s c)\n".toList).tokens.toOption.bind
      fun tokens => (Tree.ofTokens .builtIn tokens).toOption.bind fun t =>
        (story ⟨.builtIn, false⟩ t).toOption.bind fun t' =>
          if (callsAll .written ⟨.builtIn, false⟩ t.parts).map (·.literal.toList) =
              [['f'], ['c'], ['g']] ∧
            (callsAll .written ⟨.builtIn, false⟩ t'.parts).map (·.literal.toList) =
              [['c'], ['f'], ['g']] then some t' else none).isSome = true := by
    decide +kernel
  obtain ⟨_, h⟩ := Option.isSome_iff_exists.1 h
  obtain ⟨tokens, hs, h⟩ := Option.bind_eq_some_iff.1 h
  obtain ⟨t, ht, h⟩ := Option.bind_eq_some_iff.1 h
  obtain ⟨t', h, hcalls⟩ := Option.bind_eq_some_iff.1 h
  rw [toOption_eq_some] at hs ht h
  have hcalls := (Option.ite_none_right_eq_some.1 hcalls).1
  exact ⟨tokens, t, t', hs, ht, h, hcalls.1, hcalls.2⟩

end Hoist

end StoryLang
