/-
The types of list and map literals.

A literal has one type for all its items, made from theirs one after the other.
That type is `any` as soon as two of them do not meet, and then what comes next
decides alone: since `any` goes with everything, the items before it are
forgotten. So the type of a literal takes its last items, and all of them if it
stays `any` or if one of the items could have stood for all.
-/
import StoryLang.Proofs.Check.Contract
import StoryLang.Proofs.Tree.Form
import StoryLang.Proofs.Ty.Accepts
import StoryLang.Story.Basic

namespace StoryLang

namespace Check

/-- What types on the way to a common one are still taken at its end. -/
theorem foldl_common (ty : Ty) (tys : List Ty) (common : Ty) (hc : tys.foldl Ty.common ty = common) :
    common = .any ∨ (common = ty ∧ ∀ other ∈ tys, common.accepts other = true) ∨
      ∃ before after, tys = before ++ common :: after ∧
        (∀ other ∈ after, common.accepts other = true) ∧
        common.accepts (before.foldl Ty.common ty) = true := by
  induction tys generalizing ty with
  | nil => exact .inr (.inl ⟨hc.symm, nofun⟩)
  | cons next tys ih =>
    rcases ih (ty.common next) hc with hany | ⟨hstay, htakes⟩ | ⟨before, after, htys, hlater, hearlier⟩
    · exact .inl hany
    · rcases ty.common_cases next with ⟨he, ha, -⟩ | ⟨he, ha, -⟩ | ⟨he, -⟩
      · obtain rfl : common = ty := hstay.trans he
        exact .inr (.inl ⟨rfl, List.forall_mem_cons.2 ⟨ha, htakes⟩⟩)
      · obtain rfl : common = next := hstay.trans he
        exact .inr (.inr ⟨[], tys, rfl, htakes, ha⟩)
      · exact .inl (hstay.trans he)
    · exact .inr (.inr ⟨next :: before, after, by rw [htys]; rfl, hlater, hearlier⟩)

/-- A firm type that takes all others is met or taken on the way, and is taken from then on. -/
theorem foldl_common_top {top : Ty} (htop : top.firm = true) (hself : top.accepts top = true) {tys : List Ty}
    (hfirm : ∀ ty ∈ tys, ty = .any ∨ ty.firm = true) (htakes : ∀ ty ∈ tys, top.accepts ty = true)
    (ty : Ty) (hty : ty = .any ∨ ty.firm = true) (ht : top.accepts ty = true)
    (hmet : top ∈ tys ∨ (ty ≠ .any ∧ ty.accepts top = true)) :
    (tys.foldl Ty.common ty).firm = true ∧ (tys.foldl Ty.common ty).accepts top = true := by
  induction tys generalizing ty with
  | nil =>
    obtain ⟨hne, ha⟩ := hmet.resolve_left (List.not_mem_nil)
    exact ⟨hty.resolve_left hne, ha⟩
  | cons next tys ih =>
    simp only [List.forall_mem_cons] at hfirm htakes
    have hkeep : (ty.common next = .any ∨ (ty.common next).firm = true) ∧
        top.accepts (ty.common next) = true := by
      rcases ty.common_cases next with ⟨he, -⟩ | ⟨he, -⟩ | ⟨he, -⟩ <;> rw [he]
      · exact ⟨hty, ht⟩
      · exact ⟨hfirm.1, htakes.1⟩
      · exact ⟨.inl rfl, Ty.accepts_any _⟩
    refine ih hfirm.2 htakes.2 _ hkeep.1 hkeep.2 ?_
    rcases hmet with hmem | ⟨hne, ha⟩
    · rcases List.mem_cons.1 hmem with rfl | hmem
      · -- here it is met
        rcases ty.common_cases top with ⟨he, ha, hne⟩ | ⟨he, -, hne⟩ | ⟨-, -, hany⟩
        · exact .inr (by rw [he]; exact ⟨hne, ha⟩)
        · exact .inr (by rw [he]; exact ⟨hne, hself⟩)
        · rw [hany ht] at htop
          cases htop
      · exact .inl hmem
    · have htyFirm := hty.resolve_left hne
      rcases ty.common_cases next with ⟨he, -⟩ | ⟨he, hback, hnext⟩ | ⟨-, hany, -⟩
      · exact .inr (by rw [he]; exact ⟨hne, ha⟩)
      · exact .inr (by rw [he]; exact ⟨hnext, next.accepts_trans htyFirm htop hback ha⟩)
      · refine absurd (hany ?_) hne
        rcases hfirm.1 with rfl | hn
        · exact ty.accepts_any
        · exact ty.accepts_trans htop hn ha htakes.1

/-- The common type is `any`, or one of the types that takes those behind it, and what was
common to those in front. -/
theorem commonOf_chosen (tys : List Ty) : commonOf tys = .any ∨
    ∃ before after, tys = before ++ commonOf tys :: after ∧
      (∀ ty ∈ after, (commonOf tys).accepts ty = true) ∧
      (before ≠ [] → (commonOf tys).accepts (commonOf before) = true) := by
  cases tys with
  | nil => exact .inl rfl
  | cons first tys =>
    rcases foldl_common first tys _ rfl with hany | ⟨hsame, htakes⟩ | ⟨before, after, htys, hlater, hearlier⟩
    · exact .inl hany
    · exact .inr ⟨[], tys, by rw [commonOf, hsame]; rfl, htakes, fun h => absurd rfl h⟩
    · exact .inr ⟨first :: before, after, congrArg (first :: ·) htys, hlater, fun _ => hearlier⟩

/-- With two types none is forgotten. -/
theorem commonOf_short {tys : List Ty} (hlen : tys.length ≤ 2) (hp : ∀ ty ∈ tys, ty.proper = true) :
    ∀ ty ∈ tys, (commonOf tys).accepts ty = true := by
  match tys, hlen with
  | [], _ => exact nofun
  | [ty], _ => simpa [commonOf] using ty.accepts_self (hp ty (by simp))
  | [first, second], _ =>
    have hfirst := first.accepts_self (hp first (by simp))
    have hsecond := second.accepts_self (hp second (by simp))
    have hboth : (first.common second).accepts first = true ∧ (first.common second).accepts second = true := by
      rcases first.common_cases second with ⟨he, ha, -⟩ | ⟨he, ha, -⟩ | ⟨he, -⟩ <;> rw [he]
      · exact ⟨hfirst, ha⟩
      · exact ⟨ha, hsecond⟩
      · exact ⟨Ty.any_accepts _, Ty.any_accepts _⟩
    simpa [commonOf] using hboth

/-- Types without unknown parts are all taken if they do not meet at last, or if one of them
takes them all. -/
theorem commonOf_firm {tys : List Ty} (hfirm : ∀ ty ∈ tys, ty = .any ∨ ty.firm = true) :
    (∀ ty ∈ tys, (commonOf tys).accepts ty = true) ↔
      commonOf tys = .any ∨ ∃ ty ∈ tys, ty ≠ .any ∧ ∀ other ∈ tys, ty.accepts other = true := by
  constructor
  · intro hall
    by_cases hany : commonOf tys = .any
    · exact .inl hany
    obtain ⟨before, after, htys, -⟩ := (commonOf_chosen tys).resolve_left hany
    have hmem := List.mem_append_right before (List.mem_cons_self (a := commonOf tys) (l := after))
    rw [← htys] at hmem
    exact .inr ⟨_, hmem, hany, hall⟩
  · rintro (hany | ⟨top, hmem, hne, htakes⟩) ty hty
    · rw [hany]
      exact Ty.any_accepts ty
    · have htop := (hfirm top hmem).resolve_left hne
      have hend : (commonOf tys).accepts top = true := by
        cases tys with
        | nil => cases hmem
        | cons first tys =>
          simp only [List.forall_mem_cons] at hfirm htakes
          have hmet : top ∈ tys ∨ (first ≠ .any ∧ first.accepts top = true) := by
            rcases List.mem_cons.1 hmem with rfl | hmem
            · exact .inr ⟨hne, htakes.1⟩
            · exact .inl hmem
          have hself : top.accepts top = true :=
            (List.mem_cons.1 hmem).elim (fun h => h ▸ htakes.1) (htakes.2 top)
          exact (foldl_common_top htop hself hfirm.2 htakes.2 first hfirm.1 htakes.1 hmet).2
      rcases hfirm ty hty with rfl | hf
      · exact Ty.accepts_any _
      · exact Ty.accepts_trans _ htop hf hend (htakes ty hty)

/-! ## Literals -/

/-- The nodes of a row have these types, if they are checked in turn. -/
inductive HaveTypes (e : Env) : List Tree → State → List Ty → State → Prop where
  | nil {s} : HaveTypes e [] s [] s
  | token {u ts s tys s'} (rest : HaveTypes e ts s tys s') : HaveTypes e (.token u :: ts) s tys s'
  | node {r l ps ts s t ty s₁ tys s'} (first : value e (.node r l ps) s = .ok ((t, ty), s₁))
      (rest : HaveTypes e ts s₁ tys s') : HaveTypes e (.node r l ps :: ts) s (ty :: tys) s'

/-- The entries of a row have keys and values of these types, if they are checked in turn. -/
inductive HaveEntries (e : Env) : List Tree → State → List (Ty × Ty) → State → Prop where
  | nil {s} : HaveEntries e [] s [] s
  | token {u ts s tys s'} (rest : HaveEntries e ts s tys s') :
      HaveEntries e (.token u :: ts) s tys s'
  | node {r l ps ts s out tys s₁ rest s'} (first : firsts e 2 ps s = .ok ((out, tys), s₁))
      (others : HaveEntries e ts s₁ rest s') :
      HaveEntries e (.node r l ps :: ts) s ((tys.getD 0 .any, tys.getD 1 .any) :: rest) s'

theorem haveTypes_firsts {e : Env} {ts : List Tree} {n : Nat} (hn : ts.length ≤ n) {s s' : State}
    {out : List Tree × List Ty} (h : firsts e n ts s = .ok (out, s')) : HaveTypes e ts s out.2 s' := by
  induction ts generalizing n s s' out with
  | nil =>
    cases n <;> obtain ⟨rfl, rfl⟩ := Prod.mk.inj (Except.ok.inj h) <;> exact .nil
  | cons t ts ih =>
    cases t with
    | token u =>
      unfold firsts at h
      obtain ⟨rest, s₁, hrest, h⟩ := bind_ok_iff.1 h
      obtain ⟨rfl, rfl⟩ := Prod.mk.inj (Except.ok.inj h)
      have hrest := ih (Nat.le_of_succ_le hn) hrest
      exact .token hrest
    | node r l ps =>
      obtain ⟨n, rfl⟩ : ∃ m, n = m + 1 := ⟨n - 1, by simp at hn; omega⟩
      unfold firsts at h
      obtain ⟨first, s₁, hfirst, h⟩ := bind_ok_iff.1 h
      obtain ⟨rest, s₂, hrest, h⟩ := bind_ok_iff.1 h
      obtain ⟨rfl, rfl⟩ := Prod.mk.inj (Except.ok.inj h)
      have hrest := ih (by simpa using hn) hrest
      exact .node hfirst hrest

theorem haveEntries_entries {e : Env} {ts : List Tree} {s s' : State}
    {out : List Tree × List (Ty × Ty)} (h : entries e ts s = .ok (out, s')) :
    HaveEntries e ts s out.2 s' := by
  induction ts generalizing s s' out with
  | nil =>
    obtain ⟨rfl, rfl⟩ := Prod.mk.inj (Except.ok.inj h)
    exact .nil
  | cons t ts ih =>
    unfold entries at h
    cases t with
    | token u =>
      obtain ⟨rest, s₁, hrest, h⟩ := bind_ok_iff.1 h
      obtain ⟨rfl, rfl⟩ := Prod.mk.inj (Except.ok.inj h)
      have hrest := ih hrest
      exact .token hrest
    | node r l ps =>
      obtain ⟨first, s₁, hfirst, h⟩ := bind_ok_iff.1 h
      obtain ⟨rest, s₂, hrest, h⟩ := bind_ok_iff.1 h
      obtain ⟨rfl, rfl⟩ := Prod.mk.inj (Except.ok.inj h)
      have hrest := ih hrest
      exact .node hfirst hrest

/-- How far a type takes the types it is the common one of: see `commonOf_chosen`,
`commonOf_short` and `commonOf_firm`. -/
structure Gathers (common : Ty) (tys : List Ty) : Prop where
  chosen : common = .any ∨ ∃ before after, tys = before ++ common :: after ∧
    (∀ ty ∈ after, common.accepts ty = true) ∧
    (before ≠ [] → common.accepts (commonOf before) = true)
  short : tys.length ≤ 2 → (∀ ty ∈ tys, ty.proper = true) → ∀ ty ∈ tys, common.accepts ty = true
  firm : (∀ ty ∈ tys, ty = .any ∨ ty.firm = true) →
    ((∀ ty ∈ tys, common.accepts ty = true) ↔
      common = .any ∨ ∃ ty ∈ tys, ty ≠ .any ∧ ∀ other ∈ tys, ty.accepts other = true)

theorem gathers_commonOf (tys : List Ty) : Gathers (commonOf tys) tys :=
  ⟨commonOf_chosen tys, commonOf_short, commonOf_firm⟩

/-- The type of a list literal gathers the types of its items, and that of a map literal those of
its keys and those of its values. It takes them all as long as no two of them do not meet, and it
may forget some if something that can be anything or that meets nothing comes in between. -/
theorem value_literal (e : Env) (line : Option Coord) (ps : List Tree) (s : State) :
    (∀ t ty s', value e (.node .list line ps) s = .ok ((t, ty), s') → ∃ tys element,
      HaveTypes e ps s tys s' ∧ ty = .list element ∧ Gathers element tys) ∧
    (∀ t ty s', value e (.node .map line ps) s = .ok ((t, ty), s') → ∃ tys key element,
      HaveEntries e ps s tys s' ∧ ty = .map key element ∧ Gathers key (tys.map (·.1)) ∧
        Gathers element (tys.map (·.2))) := by
  constructor
  · intro t ty s' h
    unfold value at h
    obtain ⟨out, s₁, hout, h⟩ := bind_ok_iff.1 h
    obtain ⟨heq, rfl⟩ := Prod.mk.inj (Except.ok.inj h)
    obtain ⟨-, rfl⟩ := Prod.mk.inj heq
    exact ⟨out.2, _, haveTypes_firsts (Nat.le_refl _) hout, rfl, gathers_commonOf _⟩
  · intro t ty s' h
    unfold value at h
    obtain ⟨out, s₁, hout, h⟩ := bind_ok_iff.1 h
    obtain ⟨heq, rfl⟩ := Prod.mk.inj (Except.ok.inj h)
    obtain ⟨-, rfl⟩ := Prod.mk.inj heq
    exact ⟨out.2, _, _, haveEntries_entries hout, rfl, gathers_commonOf _, gathers_commonOf _⟩

/-- What is known of a story without functions and options. -/
def Env.bare : Env := { features := .off, registry := none, functions := .empty, body := none }

/-- Nothing is found yet. -/
def State.bare : State := { scopes := .ofRoot .empty, reports := [], services := .empty }

/-- A map of a list of numbers takes its keys and values, and the list takes both of its items. -/
theorem value_literal_promoted : ∃ t line ps line' qs,
    (Story.unnamed "x = \x7b\"a\": [1, 2.5]\x7d\n").tree .standard true = .ok t ∧
    .node .map line ps ∈ t.walk ∧ .node .list line' qs ∈ t.walk ∧
    (∃ tys s', HaveEntries .bare ps .bare tys s' ∧ Gathers .string (tys.map (·.1)) ∧
      Gathers (.list .float) (tys.map (·.2))) ∧
    ∃ tys s', HaveTypes .bare qs .bare tys s' ∧ Gathers .float tys := by
  have h : ((Story.unnamed "x = \x7b\"a\": [1, 2.5]\x7d\n").tree .standard true).toOption.bind (fun t =>
      (t.walk.find? (·.isA .map)).bind fun map => (t.walk.find? (·.isA .list)).bind fun list =>
        (value .bare map .bare).toOption.bind fun out =>
          (value .bare list .bare).toOption.map fun out' => (out.1.2, out'.1.2)) =
      some (.map .string (.list .float), .list .float) := by
    decide +kernel
  obtain ⟨t, ht, h⟩ := Option.bind_eq_some_iff.1 h
  obtain ⟨map, hmap, h⟩ := Option.bind_eq_some_iff.1 h
  obtain ⟨list, hlist, h⟩ := Option.bind_eq_some_iff.1 h
  obtain ⟨⟨⟨u, ty⟩, s'⟩, hout, h⟩ := Option.bind_eq_some_iff.1 h
  obtain ⟨⟨⟨u', ty'⟩, s''⟩, hout', h⟩ := Option.map_eq_some_iff.1 h
  obtain ⟨rfl, rfl⟩ : ty = _ ∧ ty' = _ := Prod.mk.inj h
  rw [toOption_eq_some] at ht hout hout'
  obtain ⟨line, ps, rfl⟩ := Tree.isA_iff.1 (List.find?_some hmap)
  obtain ⟨line', qs, rfl⟩ := Tree.isA_iff.1 (List.find?_some hlist)
  obtain ⟨tys, key, element, hentries, hty, hkey, helement⟩ :=
    (value_literal .bare line ps .bare).2 _ _ _ hout
  obtain ⟨rfl, rfl⟩ : Ty.string = key ∧ Ty.list .float = element := by simpa using hty
  obtain ⟨tys', element, htypes, hty, hitem⟩ := (value_literal .bare line' qs .bare).1 _ _ _ hout'
  obtain rfl : Ty.float = element := by simpa using hty
  exact ⟨t, line, ps, line', qs, ht, List.mem_of_find?_eq_some hmap, List.mem_of_find?_eq_some hlist,
    ⟨tys, s', hentries, hkey, helement⟩, tys', s'', htypes, hitem⟩

/-- What is in front of an item that does not meet it is forgotten with the next one. -/
theorem value_literal_forgotten : ∃ t line ps u s',
    (Story.unnamed "x = [1, \"a\", 2]\n").tree .standard true = .ok t ∧
    .node .list line ps ∈ t.walk ∧
    value .bare (.node .list line ps) .bare = .ok ((u, .list .int), s') ∧
    HaveTypes .bare ps .bare [.int, .string, .int] s' ∧ Ty.accepts .int .string = false := by
  have h : (((Story.unnamed "x = [1, \"a\", 2]\n").tree .standard true).toOption.bind fun t =>
      (t.walk.find? (·.isA .list)).bind fun u =>
        (firsts .bare u.parts.length u.parts .bare).toOption.map (·.1.2)) =
      some [.int, .string, .int] := by
    decide +kernel
  obtain ⟨t, ht, h⟩ := Option.bind_eq_some_iff.1 h
  obtain ⟨literal, hu, h⟩ := Option.bind_eq_some_iff.1 h
  obtain ⟨⟨⟨items, tys⟩, s'⟩, hout, rfl⟩ := Option.map_eq_some_iff.1 h
  rw [toOption_eq_some] at ht hout
  obtain ⟨line, ps, rfl⟩ := Tree.isA_iff.1 (List.find?_some hu)
  refine ⟨t, line, ps, .node .list line items, s', ht, List.mem_of_find?_eq_some hu, ?_,
    haveTypes_firsts (Nat.le_refl _) hout, rfl⟩
  unfold value
  exact bind_ok_iff.2 ⟨_, _, hout, rfl⟩

end Check

end StoryLang
