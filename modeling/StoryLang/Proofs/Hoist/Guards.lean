/-
Which stories are refused for what is taken out of a condition.

The condition of a `while` or an `else if` may have nothing taken out. What is
taken out of the whole construct stands in front of it, but the blocks of the
construct keep what is taken out of their statements. So it is the condition
alone that counts: it has a call in it, or a string with a code that is more
than a path, in which case the code is taken out, or a code that something is
taken out of.

If every code of a story can be read, making it plain fails for no other
reason, and the fault names the construct of such a condition.
-/
import StoryLang.Proofs.Hoist.Calls

namespace StoryLang

/-- The construct, the first token and the condition of a node whose condition is guarded. -/
def Tree.guard? : Tree → Option (String × Token × Tree)
  | .node .whileBlock _ (.token word :: condition :: _) => some ("while", word, condition)
  | .node .elifBlock _ (.token word :: .token _ :: condition :: _) => some ("else if", word, condition)
  | _ => none

namespace Hoist

/-- Something is taken out of a value if there is a call in it, or a string
with a code that is no path, or with one that something is taken out of. -/
inductive TakesOut (m : ScanMode) : Tree → Prop where
  | call {t} (call : t.isCall = true) : TakesOut m t
  | part {rule line ps p} (mem : p ∈ ps) (part : TakesOut m p) : TakesOut m (.node rule line ps)
  | code {line u source offset v} (coded : .code source offset ∈ Pieces.split u.literal.toList)
      (read : readCode m source ⟨u.line, u.column + 1 + offset⟩ = .ok v)
      (noPath : v.isA .path = false) : TakesOut m (.node .string line [.token u])
  | inCode {line u source offset v} (coded : .code source offset ∈ Pieces.split u.literal.toList)
      (read : readCode m source ⟨u.line, u.column + 1 + offset⟩ = .ok v)
      (inner : TakesOut m v) : TakesOut m (.node .string line [.token u])

/-- Every code in the strings of a tree can be read, and every code in the
strings of what is read. -/
inductive Legible (m : ScanMode) : Tree → Prop where
  | intro {t} (read : ∀ line u, .node .string line [.token u] ∈ t.walk → ∀ source offset,
        .code source offset ∈ Pieces.split u.literal.toList →
          ∃ v, readCode m source ⟨u.line, u.column + 1 + offset⟩ = .ok v)
      (inner : ∀ line u, .node .string line [.token u] ∈ t.walk → ∀ source offset v,
        .code source offset ∈ Pieces.split u.literal.toList →
          readCode m source ⟨u.line, u.column + 1 + offset⟩ = .ok v → Legible m v) : Legible m t

/-- Whether every code in the strings of a tree can be read, to a depth of strings in codes. -/
def legible (m : ScanMode) : Nat → Tree → Bool
  | 0, _ => false
  | depth + 1, t => t.walk.all fun
    | .node .string _ [.token u] => (Pieces.split u.literal.toList).all fun
      | .text _ => true
      | .code source offset =>
        match readCode m source ⟨u.line, u.column + 1 + offset⟩ with
        | .ok v => legible m depth v
        | .error _ => false
    | _ => true

variable {m : ScanMode} {P : Token → Prop} {g : Grammar} {t v : Tree} {base : Nat} {cs : List Coord}
  {before left ps : List Tree} {role : Role} {rule : Rule} {line : Option Coord} {u : Token}

theorem legible_sound {depth : Nat} (h : legible m depth t = true) : Legible m t := by
  induction depth generalizing t with
  | zero => cases h
  | succ depth ih =>
    rw [legible, List.all_eq_true] at h
    have hcode : ∀ line u, .node .string line [.token u] ∈ t.walk → ∀ source offset,
        .code source offset ∈ Pieces.split u.literal.toList →
          ∃ v, readCode m source ⟨u.line, u.column + 1 + offset⟩ = .ok v ∧ legible m depth v = true := by
      intro line u hu source offset hc
      have hread := List.all_eq_true.1 (h _ hu) _ hc
      dsimp only at hread
      split at hread
      · exact ⟨_, ‹_›, hread⟩
      · cases hread
    refine .intro (fun line u hu source offset hc => ?_) fun line u hu source offset v hc hv => ?_
    · obtain ⟨v, hv, -⟩ := hcode line u hu source offset hc
      exact ⟨v, hv⟩
    · obtain ⟨w, hw, hl⟩ := hcode line u hu source offset hc
      obtain rfl := Except.ok.inj (hv.symm.trans hw)
      exact ih hl

theorem Legible.of_mem_walk (h : Legible m t) {n : Tree} (hn : n ∈ t.walk) : Legible m n := by
  cases h with
  | intro read inner =>
    exact .intro (fun line u hu => read line u (Tree.walk_subset t hn hu))
      fun line u hu => inner line u (Tree.walk_subset t hn hu)

/-! ## What is taken out of a value -/

@[simp] theorem takesOut_token : ¬ TakesOut m (.token u) := by
  rintro ⟨⟨⟩⟩

/-- The piece of a string is a code that is taken out, or that something is taken out of. -/
def CodeTaken (m : ScanMode) (u : Token) (p : Piece) : Prop :=
  ∃ source offset v, p = .code source offset ∧
    readCode m source ⟨u.line, u.column + 1 + offset⟩ = .ok v ∧ (v.isA .path = false ∨ TakesOut m v)

theorem takesOut_string : TakesOut m (.node .string line [.token u]) ↔
    ∃ p ∈ Pieces.split u.literal.toList, CodeTaken m u p := by
  constructor
  · intro h
    cases h with
    | call call => cases call
    | part mem part => exact absurd (List.mem_singleton.1 mem ▸ part) takesOut_token
    | code coded read noPath => exact ⟨_, coded, _, _, _, rfl, read, .inl noPath⟩
    | inCode coded read inner => exact ⟨_, coded, _, _, _, rfl, read, .inr inner⟩
  · rintro ⟨_, hp, source, offset, v, rfl, read, hv | hv⟩
    · exact .code hp read hv
    · exact .inCode hp read hv

/-- Of a node that is no call and no string something is taken out if it is of one of its parts. -/
theorem takesOut_node (hc : rule.isCall = false) (hs : rule ≠ .string) :
    TakesOut m (.node rule line ps) ↔ ∃ p ∈ ps, TakesOut m p := by
  constructor
  · intro h
    cases h with
    | call call => simp [Tree.isCall, Tree.rule?, hc] at call
    | part mem part => exact ⟨_, mem, part⟩
    | code => exact absurd rfl hs
    | inCode => exact absurd rfl hs
  · rintro ⟨p, hp, h⟩
    exact .part hp h

end Hoist

/-- The rules of what a value is made of, down to the calls in it. -/
def Rule.inValue (rule : Rule) : Bool :=
  rule.isValue || rule.isCall || rule = .mapItem || rule = .pathFragment || rule = .types

/-- What a value is made of, down to the calls in it. -/
def Tree.inValue (t : Tree) : Bool := t.rule?.all Rule.inValue

theorem Tree.inValue_of_fits {s : Stage} {t : Tree} (h : t.fits s = true) : t.inValue = true := by
  obtain ⟨rule, line, ps, rfl, hr⟩ := Tree.fits_iff.1 h
  rcases hr with hr | ⟨-, hr⟩ <;> simp [Tree.inValue, Tree.rule?, Rule.inValue, hr]

theorem Tree.inValue_of_isA {rule : Rule} {t : Tree} (h : t.isA rule = true) (hr : rule.inValue = true) :
    t.inValue = true := by
  obtain ⟨line, ps, rfl⟩ := Tree.isA_iff.1 h
  simpa [Tree.inValue, Tree.rule?] using hr

/-- What a value is made of is made of the same. -/
theorem Content.inValue {P : Token → Prop} {g : Grammar} {rule : Rule} {ps : List Tree}
    (h : Content P g .read rule ps) (hr : rule.inValue = true) (hc : rule.isCall = false) :
    ∀ p ∈ ps, p.inValue = true := by
  have htoken : ∀ u : Token, (Tree.token u).inValue = true := fun _ => rfl
  cases h with
  | list each => simpa [htoken, or_imp, forall_and] using fun p hp => Tree.inValue_of_fits (each p hp)
  | map each =>
    simpa [htoken, or_imp, forall_and] using fun p hp => Tree.inValue_of_isA (each p hp) rfl
  | path _ each => simpa [htoken] using fun p hp => Tree.inValue_of_isA (each p hp) rfl
  | types _ each => simpa [htoken] using fun p hp => Tree.inValue_of_isA (each p hp) rfl
  | mapItem keyed value => simp [Tree.inValue_of_fits keyed, Tree.inValue_of_fits value]
  | index _ value _ => simp [htoken, Tree.inValue_of_fits value]
  | unary operand => simp [htoken, Tree.inValue_of_fits operand]
  | cast value types =>
    simpa [htoken, Tree.inValue_of_fits value] using Tree.inValue_of_isA types rfl
  | binary first _ second =>
    simp [htoken, Tree.inValue_of_fits first, Tree.inValue_of_fits second]
  | _ => simp_all [Rule.inValue, Rule.isValue, Rule.isCall]

namespace Hoist

/-- Inside a value, where every call is taken out, or at its top, where there is none. -/
structure InValue (p : Role × Tree) : Prop where
  inside : p.1 ≠ .statement
  noCall : p.1 = .value → p.2.isCall = false
  inValue : p.2.inValue = true

/-- What is taken out of a job inside a value. -/
def Job.Takes (m : ScanMode) (before : List Tree) : Job → Prop
  | .tree role t => InValue (role, t) → (before ≠ [] ↔ TakesOut m t)
  | .row ts => (∀ p ∈ ts, InValue p) → (before ≠ [] ↔ ∃ p ∈ ts, TakesOut m p.2)
  | .pieces t ps => before ≠ [] ↔ ∃ p ∈ ps, CodeTaken m t p
  | .code v => before ≠ [] ↔ v.isA .path = false ∨ TakesOut m v
  | .chain _ _ _ | .statements _ => True

theorem InValue.inValue_rule (h : InValue (role, .node rule line ps)) :
    rule.inValue = true := by
  simpa [Tree.inValue, Tree.rule?] using h.inValue

/-- Inside a value every node that stays has its parts made plain one by one. -/
theorem InValue.keeps {ts : List (Role × Tree)} (h : InValue (role, .node rule line ps))
    (hk : Keeps role rule ps ts) : ts = ps.map (.part, ·) ∧ rule.isCall = false ∧ rule ≠ .string := by
  have hr := h.inValue_rule
  cases hk with
  | parts ht =>
    have hrole : role ≠ .statement := h.inside
    have hcall : role = .value → rule.isCall = false := h.noCall
    refine ⟨rfl, ?_⟩
    cases role <;> cases rule <;> simp_all [treatment, asValue, asOperand, Rule.isCall]
  | last ht => exact absurd (rule_of_last ht).1 h.inside
  | values ht =>
    obtain rfl := rule_of_values ht
    cases hr

theorem InValue.parts (hf : Formed P g .read (.node rule line ps))
    (h : InValue (role, .node rule line ps)) (hc : rule.isCall = false) :
    ∀ p ∈ ps.map (Role.part, ·), InValue p := by
  intro p hp
  obtain ⟨q, hq, rfl⟩ := List.mem_map.1 hp
  cases hf with
  | node content _ _ => exact ⟨by simp, by simp, content.inValue h.inValue_rule hc q hq⟩

/-- Inside a value something is put in front exactly if something is taken out of it. -/
theorem Hoists.takes (hg : m.grammar.KeepsLayout) (hP : ∀ u : Token, u.Sound → P u) {job : Job}
    (h : Hoists m base job cs before left) : job.Formed P m.grammar → job.Takes m before := by
  induction h with
  | token => exact fun _ _ => by simp
  | none => exact fun _ _ => by simp
  | @cons base role t ts cs ds before before' t' ts' first others ih ih' =>
    intro hf hi
    obtain ⟨hfirst, hothers⟩ := List.forall_mem_cons.1 hi
    have h := ih hf.first hfirst
    have h' := ih' hf.others hothers
    simp only [ne_eq, List.append_eq_nil_iff, List.mem_cons, exists_eq_or_imp] at h h' ⊢
    rw [← h, ← h']
    exact not_and_or
  | @keep base role rule line ps ts cs before ps' keeps parts ih =>
    intro hf hi
    obtain ⟨rfl, hc, hs⟩ := hi.keeps keeps
    rw [ih hf.parts (hi.parts hf.1 hc), takesOut_node hc hs]
    simp
  | guarded ht =>
    intro hf hi
    have hr := hi.inValue_rule
    rcases rule_of_guarded ht with rfl | rfl <;> cases hr
  | @chain base role line subject fragments =>
    intro _ hi
    -- a chain that stays is where a call may stay, but there is none
    have hinside : role ≠ .statement := hi.inside
    have hrole : role = .value := by
      cases role <;> simp_all [treatment, asOperand]
    exact absurd (hi.noCall hrole) (by simp [Tree.isCall, Tree.rule?, Rule.isCall])
  | out ht whole ih =>
    intro hf hi
    have hc := (rule_of_out ht).2
    simpa using TakesOut.call (by simpa [Tree.isCall, Tree.rule?] using hc)
  | block ht =>
    intro hf hi
    obtain ⟨-, rfl⟩ := rule_of_statements ht
    cases hi.inValue_rule
  | lastLink | link => exact fun _ => trivial
  | plainString ht text =>
    intro _ _
    have hno := List.any_eq_false.1 text
    rw [takesOut_string]
    refine iff_of_false (by simp) ?_
    rintro ⟨p, hp, source, offset, v, rfl, -⟩
    exact hno _ hp rfl
  | string ht hasCode pieces ih =>
    intro hf _
    rw [takesOut_string]
    exact ih hf.pieces
  | noPieces => exact fun _ => by simp [Job.Takes]
  | @text base t raw ps cs before rest others ih =>
    intro hf
    have h := ih hf.otherPieces
    simpa [Job.Takes, CodeTaken] using h
  | @piece base t source offset ps v cs ds before before' v' rest read code others ih ih' =>
    intro hf
    have hcode : CodeTaken m t (.code source offset) ↔ v.isA .path = false ∨ TakesOut m v := by
      simp [CodeTaken, read]
    have h := ih (Job.Formed.code hg hP read)
    have h' := ih' hf.otherPieces
    simp only [Job.Takes, ne_eq, List.append_eq_nil_iff, List.mem_cons, exists_eq_or_imp, hcode]
      at h h' ⊢
    rw [← h, ← h']
    exact not_and_or
  | @codePath base v cs before v' path whole ih =>
    intro hf
    have hcall : v.isCall = false := by
      obtain ⟨line, ps, rfl⟩ := Tree.isA_iff.1 path
      rfl
    have h := ih hf.whole ⟨by simp, fun _ => hcall, Tree.inValue_of_fits hf.2⟩
    rw [Job.Takes, h]
    simp [path]
  | codeOut noPath whole ih => exact fun _ => by simp [Job.Takes, noPath]
  | noStatements | statements => exact fun _ => trivial

/-! ## Guarded conditions -/

/-- A block keeps what is taken out of its statements. -/
theorem Hoists.block_before (h : Hoists m base (.tree .part t) cs before left)
    (ht : t.isA .block = true) : before = [] := by
  obtain ⟨line, ps, rfl⟩ := Tree.isA_iff.1 ht
  cases h with
  | keep keeps => exact absurd rfl (@Keeps.rule_ne .part .block ps line _ keeps trivial).1
  | guarded | block => rfl
  | out ht => exact absurd (rule_of_out ht).2 (by simp [Rule.isCall])

/-- What is taken out of a row of words, a value and a block is taken out of the value. -/
theorem Hoists.condition (hg : m.grammar.KeepsLayout) (hP : ∀ u : Token, u.Sound → P u)
    {words : List Token} {condition body : Tree} (hf : Formed P m.grammar .read condition)
    (hc : condition.fits .read = true) (hb : body.isA .block = true)
    (h : Hoists m base (.row ((words.map Tree.token ++ [condition, body]).map (.part, ·))) cs before left) :
    before ≠ [] ↔ TakesOut m condition := by
  induction words generalizing cs before left with
  | nil =>
    cases h with
    | @cons _ _ _ _ cs ds before before' _ _ first others =>
      have hrest : before' = [] := by
        cases others with
        | cons body none =>
          cases none
          simp [body.block_before hb]
      have htakes := first.takes hg hP ⟨hf, trivial⟩ ⟨by simp, by simp, Tree.inValue_of_fits hc⟩
      rw [hrest, List.append_nil, htakes]
  | cons w words ih =>
    cases h with
    | cons first others =>
      cases first with
      | token => exact ih others

/-- The parts of a node whose condition is guarded. -/
theorem guard?_parts (hf : Formed P g .read t) {construct : String} {word : Token} {condition : Tree}
    (h : t.guard? = some (construct, word, condition)) : ∃ words body, t.parts =
      (word :: words).map Tree.token ++ [condition, body] ∧ Formed P g .read condition ∧
        condition.fits .read = true ∧ body.isA .block = true := by
  cases hf with
  | token => cases h
  | @node rule line ps content own parts =>
    rcases (by cases rule <;> simp_all [Tree.guard?] :
      rule = .whileBlock ∨ rule = .elifBlock) with rfl | rfl
    · cases content with
      | whileBlock value block =>
        obtain ⟨rfl, rfl, rfl⟩ : "while" = construct ∧ _ = word ∧ _ = condition := by
          simpa [Tree.guard?] using h
        exact ⟨[], _, rfl, parts _ (by simp), value, block⟩
    · cases content with
      | elifBlock value block =>
        obtain ⟨rfl, rfl, rfl⟩ : "else if" = construct ∧ _ = word ∧ _ = condition := by
          simpa [Tree.guard?] using h
        exact ⟨[_], _, rfl, parts _ (by simp), value, block⟩

/-- Something is put in front of a guarded node exactly if it is taken out of its condition. -/
theorem Hoists.guard (hg : m.grammar.KeepsLayout) (hP : ∀ u : Token, u.Sound → P u)
    (hf : Formed P m.grammar .read t) {construct : String} {word : Token} {condition : Tree}
    (ht : t.guard? = some (construct, word, condition))
    (h : Hoists m base (.row (t.parts.map (.part, ·))) cs before left) :
    before ≠ [] ↔ TakesOut m condition := by
  obtain ⟨words, body, hps, hformed, hfits, hblock⟩ := guard?_parts hf ht
  rw [hps] at h
  exact h.condition hg hP hformed hfits hblock

/-- A node that is treated as guarded has a condition. -/
theorem guard?_of_treatment (hf : Formed P g .read (.node rule line ps)) {construct : String}
    {token : Token} (ht : treatment role rule = .guarded construct)
    (hw : Tree.firstTokenOf? ps = some token) :
    ∃ condition, (Tree.node rule line ps).guard? = some (construct, token, condition) := by
  cases hf with
  | node content _ _ =>
    rcases rule_of_guarded ht with rfl | rfl
    · have hc : construct = "while" := by
        cases role <;> simp_all [treatment, asValue, asOperand]
      cases content with
      | whileBlock =>
        cases hw
        exact ⟨_, by rw [hc]; rfl⟩
    · have hc : construct = "else if" := by
        cases role <;> simp_all [treatment, asValue, asOperand]
      cases content with
      | elifBlock =>
        cases hw
        exact ⟨_, by rw [hc]; rfl⟩

/-- The fault is for what is taken out of a guarded condition of the tree. -/
def Blames (m : ScanMode) (t : Tree) (f : Fault) : Prop :=
  ∃ n ∈ t.walk, ∃ construct word condition, n.guard? = some (construct, word, condition) ∧
    TakesOut m condition ∧ ∃ call, f = refusal construct word call

theorem refusals_blamed (hg : m.grammar.KeepsLayout) (hP : ∀ u : Token, u.Sound → P u)
    (hf : Formed P m.grammar .read t) {whole : Tree} (hw : t.walk ⊆ whole.walk) :
    Refusals (Blames m whole) m t := by
  intro rule line ps hn role construct token ht hfirst base cs call before left h
  have hformed := hf.of_mem_walk _ hn
  obtain ⟨condition, hguard⟩ := guard?_of_treatment hformed ht hfirst
  exact ⟨_, hw hn, construct, token, condition, hguard, (h.guard hg hP hformed hguard).1 (by simp), call, rfl⟩

end Hoist

/-! ## Codes -/

/-- There is no `while` and no `else if` in a tree. -/
def Tree.Unguarded (t : Tree) : Prop :=
  ∀ n ∈ t.walk, n.isA .whileBlock = false ∧ n.isA .elifBlock = false

@[simp] theorem Tree.unguarded_token {u : Token} : (token u).Unguarded := by
  simp [Unguarded, walk]

@[simp] theorem Tree.unguarded_node {rule : Rule} {line : Option Coord} {ps : List Tree} :
    (node rule line ps).Unguarded ↔
      (rule ≠ .whileBlock ∧ rule ≠ .elifBlock) ∧ ∀ p ∈ ps, p.Unguarded := by
  rw [Unguarded, Tree.forall_mem_walk]
  simp [isA, rule?, Unguarded]

/-- There are no blocks in a value. -/
theorem Derives.unguarded {g : Grammar} {p : Phrase} {ts : List Token} {trees : List Tree}
    (h : Derives g p ts trees) : p.isFlat = true → ∀ t ∈ trees, t.Unguarded := by
  induction h
  all_goals simp_all [Phrase.isFlat, Tree.of, or_imp, forall_and]

namespace Hoist

theorem refusals_unguarded {faults : Fault → Prop} (h : t.Unguarded) : Refusals faults m t := by
  intro rule line ps hn role construct token ht
  have hno := h _ hn
  rcases rule_of_guarded ht with rfl | rfl <;> simp [Tree.isA, Tree.rule?] at hno

/-- Codes that can be read are made plain, without any fault. -/
theorem code_legible (hg : m.grammar.KeepsLayout) {faults : Fault → Prop} {depth : Nat} :
    ∀ base u line, u.literal.length < depth → Legible m (.node .string line [.token u]) →
      DoesCode faults m (Hoist.code m depth) base u := by
  induction depth with
  | zero => exact fun _ _ _ h => absurd h (by omega)
  | succ depth ih =>
    rintro base u line hlen ⟨read, inner⟩ source offset hp
    have hu : .node .string line [.token u] ∈ (Tree.node .string line [.token u]).walk := by simp [Tree.walk]
    obtain ⟨v, hv⟩ := read line u hu source offset hp
    have hlegible := inner line u hu source offset v hp hv
    rw [hv]
    obtain ⟨_, _, _, _, hd⟩ := readCode_derives hg hv
    obtain ⟨hfits, hf⟩ := hd.formed_one (P := fun _ => True) fun _ _ => trivial
    refine code_tree_does hfits.1 (tree_does hf
      (refusals_unguarded (hd.unguarded rfl v (by simp))) (fun line w hw base => ?_) base .value)
    have hshort := piece_short hg hp hv hw
    exact ih base w line (by omega) (hlegible.of_mem_walk hw)

end Hoist

/-! ## Stories -/

theorem Tree.fits_of_isCall {t : Tree} (h : t.isCall = true) : t.fits .read = true := by
  cases t <;> simp_all [isCall, fits, rule?]

/-- Of the parts of a node only those of a block can be loops. -/
theorem Content.noWhile {P : Token → Prop} {g : Grammar} {rule : Rule} {ps : List Tree}
    (h : Content P g .read rule ps) (hr : rule ≠ .block) : ∀ p ∈ ps, p.isA .whileBlock = false := by
  have htoken : ∀ u : Token, (Tree.token u).isA .whileBlock = false := fun _ => rfl
  have hvalue : ∀ {s : Stage} {t : Tree}, t.fits s = true → t.isA .whileBlock = false :=
    fun h => Tree.fits_isA h ⟨rfl, rfl⟩
  have hother : ∀ {r : Rule} {t : Tree}, t.isA r = true → r ≠ .whileBlock → t.isA .whileBlock = false :=
    fun h hr => Tree.isA_ne h hr
  have hnode : ∀ {t : Tree}, t.isNode = false → t.isA .whileBlock = false := by
    intro t h
    cases t <;> simp_all [Tree.isNode, Tree.isA, Tree.rule?]
  have hcall : ∀ {t : Tree}, t.isCall = true → t.isA .whileBlock = false :=
    fun h => hvalue (s := .read) (Tree.fits_of_isCall h)
  cases h with
  | serviceCall path _ arguments extras =>
    have := extras.each
    grind
  | _ => grind

namespace Hoist

/-- Nothing is taken out of a guarded condition of the tree. -/
def Passes (m : ScanMode) (t : Tree) : Prop :=
  ∀ n ∈ t.walk, ∀ construct word condition, n.guard? = some (construct, word, condition) →
    ¬ TakesOut m condition

theorem passes_node (h : ∀ construct word condition,
      (Tree.node rule line ps).guard? = some (construct, word, condition) → ¬ TakesOut m condition)
    (hps : ∀ p ∈ ps, Passes m p) : Passes m (.node rule line ps) :=
  Tree.forall_mem_walk.2 ⟨h, hps⟩

/-- Loops are statements. -/
def Job.Placed : Job → Prop
  | .tree role t => role = .part → t.isA .whileBlock = false
  | .row ts => ∀ p ∈ ts, p.1 = .part → p.2.isA .whileBlock = false
  | _ => True

/-- What is known of the guarded conditions of a job that was made plain. -/
def Job.Passed (m : ScanMode) : Job → Prop
  | .tree _ t => Passes m t
  | .row ts => ∀ p ∈ ts, Passes m p.2
  | .statements ts => ∀ t ∈ ts, Passes m t
  | .chain _ _ _ | .pieces _ _ | .code _ => True

/-- Where its role puts it, a `while` or an `else if` is treated as guarded. -/
theorem treatment_guard (hf : (Job.tree role (.node rule line ps)).Formed P g)
    (hp : (Job.tree role (.node rule line ps)).Placed) {construct : String} {word : Token}
    {condition : Tree} (h : (Tree.node rule line ps).guard? = some (construct, word, condition)) :
    treatment role rule = .guarded construct := by
  have hadmits := hf.2
  rcases (by cases rule <;> simp_all [Tree.guard?] :
    rule = .whileBlock ∨ rule = .elifBlock) with rfl | rfl
  all_goals
    unfold Tree.guard? at h
    cases role <;> simp_all [Job.Placed, Role.admits, Tree.isA, Tree.fits, Tree.isStatement, Tree.rule?,
      Tree.isNode, Rule.isValue, Rule.isCall, Rule.isStatement, treatment]
    split at h <;> simp_all

/-- The parts of a node that is no block are in place. -/
theorem placed_parts (hf : Formed P g .read (.node rule line ps)) (hb : rule ≠ .block)
    {ts : List (Role × Tree)} (ht : ts.map Prod.snd = ps) : (Job.row ts).Placed := by
  intro p hp _
  cases hf with
  | node content _ _ => exact content.noWhile hb p.2 (ht ▸ List.mem_map_of_mem hp)

/-- If a story is made plain, nothing is taken out of its guarded conditions. -/
theorem Hoists.passed (hg : m.grammar.KeepsLayout) (hP : ∀ u : Token, u.Sound → P u) {job : Job}
    (h : Hoists m base job cs before left) : job.Formed P m.grammar → job.Placed → job.Passed m := by
  induction h with
  | token => exact fun _ _ => by simp [Job.Passed, Passes, Tree.walk]
  | none => exact fun _ _ => by simp [Job.Passed]
  | cons first others ih ih' =>
    intro hf hp
    obtain ⟨hfirst, hothers⟩ := List.forall_mem_cons.1 hp
    exact List.forall_mem_cons.2 ⟨ih hf.first hfirst, ih' hf.others hothers⟩
  | @keep base role rule line ps ts cs before ps' keeps parts ih =>
    intro hf hp
    have hrow := ih (hf.keeps keeps) (placed_parts hf.1 (keeps.rule_ne hf.2).1 keeps.parts_eq)
    refine passes_node (fun construct word condition hn => ?_) fun p hp => ?_
    · have ht := treatment_guard hf hp hn
      cases keeps <;> simp_all
    · rw [← keeps.parts_eq] at hp
      obtain ⟨q, hq, rfl⟩ := List.mem_map.1 hp
      exact hrow q hq
  | @guarded base role rule line ps construct cs ps' ht parts ih =>
    intro hf hp
    have hb : rule ≠ .block := by rcases rule_of_guarded ht with rfl | rfl <;> simp
    have hrow := ih hf.parts (placed_parts hf.1 hb (by simp [Function.comp_def]))
    refine passes_node (fun construct word condition hn htakes => ?_) fun p hp => ?_
    · exact (parts.guard hg hP hf.1 hn).2 htakes rfl
    · exact hrow (.part, p) (List.mem_map_of_mem hp)
  | @chain base role line subject fragments cs ds before before' subject' fragments' t ht parts links ih =>
    intro hf hp
    have hrow := ih hf.chain (placed_parts hf.1 (by simp) (by simp [Function.comp_def]))
    exact passes_node nofun (by simpa [Job.Passed] using hrow)
  | out ht whole ih => exact fun hf _ => ih (hf.out ht) nofun
  | block ht statements ih =>
    intro hf _
    obtain ⟨-, rfl⟩ := rule_of_statements ht
    exact passes_node nofun (ih (hf.statements ht) trivial)
  | plainString | string => exact fun _ _ => passes_node nofun (by simp [Passes, Tree.walk])
  | lastLink | link | noPieces | text | piece | codePath | codeOut => exact fun _ _ => trivial
  | noStatements => exact fun _ _ => by simp [Job.Passed]
  | statements first others ih ih' =>
    exact fun hf _ => List.forall_mem_cons.2 ⟨ih hf.statement nofun, ih' hf.otherStatements trivial⟩

/-- If every code of a story can be read, making it plain fails exactly if something is taken out
of the condition of a `while` or an `else if`, and the fault names the construct and the first
token of one of these conditions. -/
theorem story_refuses (hg : m.grammar.KeepsLayout) {tokens : List Token}
    (ht : Tree.ofTokens m.grammar tokens = .ok t) (hl : Legible m t) :
    ((∃ f, story m t = .error f) ↔ ∃ n ∈ t.walk, ∃ construct word condition,
      n.guard? = some (construct, word, condition) ∧ TakesOut m condition) ∧
    ∀ f, story m t = .error f → ∃ n ∈ t.walk, ∃ construct word condition,
      n.guard? = some (construct, word, condition) ∧ TakesOut m condition ∧ ∃ position,
        f = .inTokens { code := .callInCondition, args := [construct], position, token := word, expected := [] } := by
  obtain ⟨used, trees, -, rfl, hd⟩ := Tree.ofTokens_ok hg ht
  have hread := hd.formed (P := fun _ => True) fun _ _ => trivial
  have hnode := fun t ht => (⟨Tree.isNode_of_isStatement (hread t ht).1, (hread t ht).2⟩ : _ ∧ _)
  have hpart : ∀ t ∈ trees, t.walk ⊆ (Tree.of .start trees).walk :=
    fun t ht n hn => Tree.walk_part ht hn
  have hblamed : ∀ t ∈ trees, Refusals (Blames m (.of .start trees)) m t :=
    fun t ht => refusals_blamed hg (fun _ _ => trivial) (hread t ht).2 (hpart t ht)
  have hdoes := story_ensures hnode hblamed fun t ht line u hu base => code_legible hg base u line
    (length_lt_depthOf u (Tree.mem_yieldAll ht ((hread t ht).2.string_of_mem_walk hu).2.2))
    (hl.of_mem_walk (hpart t ht hu))
  cases hs : story m (.of .start trees) with
  | error f =>
    rw [hs] at hdoes
    obtain ⟨n, hn, construct, word, condition, hguard, htakes, call, rfl⟩ := hdoes
    refine ⟨iff_of_true ⟨_, rfl⟩ ⟨n, hn, construct, word, condition, hguard, htakes⟩, fun f hf => ?_⟩
    cases hf
    exact ⟨n, hn, construct, word, condition, hguard, htakes, _, rfl⟩
  | ok t' =>
    rw [hs] at hdoes
    obtain ⟨cs, left, i, -, -, hh⟩ := hdoes
    have hpasses : Passes m (.of .start trees) := passes_node nofun
      (hh.passed hg (fun _ _ => trivial) (fun t ht => ⟨(hread t ht).2, (hread t ht).1⟩) trivial)
    refine ⟨iff_of_false (by simp) ?_, by simp⟩
    rintro ⟨n, hn, construct, word, condition, hguard, htakes⟩
    exact hpasses n hn construct word condition hguard htakes

/-- A loop in an `if` that is given a call. A code in the index of its condition holds a code itself. -/
theorem story_refuses_nested : Grammar.builtIn.KeepsLayout ∧ ∃ tokens t,
    (scan ⟨.builtIn, false⟩
      "if (a b)\n    while xs[\"\x7by[\"\x7bs c\x7d\"]\x7d\"]\n        x = 1\n".toList).tokens = .ok tokens ∧
      Tree.ofTokens .builtIn tokens = .ok t ∧ Legible ⟨.builtIn, false⟩ t ∧
      ((∃ f, story ⟨.builtIn, false⟩ t = .error f) ↔ ∃ n ∈ t.walk, ∃ construct word condition,
        n.guard? = some (construct, word, condition) ∧ TakesOut ⟨.builtIn, false⟩ condition) ∧
      ∀ f, story ⟨.builtIn, false⟩ t = .error f → ∃ n ∈ t.walk, ∃ construct word condition,
        n.guard? = some (construct, word, condition) ∧ TakesOut ⟨.builtIn, false⟩ condition ∧ ∃ position,
          f = .inTokens
            { code := .callInCondition, args := [construct], position, token := word, expected := [] } := by
  have h : ((scan ⟨.builtIn, false⟩
      "if (a b)\n    while xs[\"\x7by[\"\x7bs c\x7d\"]\x7d\"]\n        x = 1\n".toList).tokens.toOption.bind
      fun tokens => (Tree.ofTokens .builtIn tokens).toOption.bind fun t =>
        if legible ⟨.builtIn, false⟩ 3 t = true then some t else none).isSome = true := by
    decide +kernel
  obtain ⟨_, h⟩ := Option.isSome_iff_exists.1 h
  obtain ⟨tokens, hs, h⟩ := Option.bind_eq_some_iff.1 h
  obtain ⟨t, ht, h⟩ := Option.bind_eq_some_iff.1 h
  rw [toOption_eq_some] at hs ht
  have hl := legible_sound (Option.ite_none_right_eq_some.1 h).1
  have hg : Grammar.builtIn.KeepsLayout := Grammar.Accepted.builtIn.keepsLayout
  exact ⟨hg, tokens, t, hs, ht, hl, story_refuses (m := ⟨.builtIn, false⟩) hg ht hl⟩

end Hoist

end StoryLang
