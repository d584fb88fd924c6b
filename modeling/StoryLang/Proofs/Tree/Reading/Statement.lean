/-
The readers of statements, blocks and stories, under the contract of `Reading.Value`.

A statement needs one step more than there are tokens left, and one more for
each level of blocks around it, which all take tokens of their own.
-/
import StoryLang.Proofs.Tree.Reading.Value

namespace StoryLang

theorem Cursor.Takes.restart {c c' : Cursor} {ts started : List Token} (h : c.Takes ts c') :
    c.Takes ts { c' with started } :=
  ⟨h.upcoming, h.ended⟩

theorem Cursor.Ended.takes_startNext {c : Cursor} (h : c.Ended) (hk : c.current.kind ≠ .eof) :
    c.Takes [c.current] c.startStatement.next :=
  have ht := Ended.takes_next (c := c.startStatement) h hk
  ⟨ht.upcoming, ht.ended⟩

theorem Derives.statement_ne_nil {g : Grammar} {ts : List Token} {trees : List Tree}
    (h : Derives g .statement ts trees) : ts ≠ [] := by
  cases h <;> simp

theorem Derives.isA_path {g : Grammar} {t : Tree} {ts : List Token} (h : Derives g .path ts [t]) :
    t.isA .path = true := by
  cases h
  rfl

namespace Read

variable {α β : Type} {g : Grammar} {c : Cursor} {post : β → Cursor → Prop}

theorem ensures_startStatement {f : Unit → Read β} (h : Ensures (f ()) c.startStatement post) :
    Ensures (startStatement >>= f) c post := h

theorem ensures_startLeaf {f : Tree → Read β}
    (h : Ensures (f (.token c.current)) c.startStatement.next post) :
    Ensures (startStatement >>= fun _ => leaf >>= f) c post := h

theorem ensures_within {r : Read α} {post : α → Cursor → Prop}
    (h : Ensures r c fun a c' => post a { c' with started := c.started }) :
    Ensures (within r) c post := by
  unfold Ensures at *
  rw [within_apply]
  cases hr : r c with
  | ok p => rw [hr] at h; exact h
  | error f => rw [hr] at h; exact h

theorem ensures_refuse {code : Code} {post : α → Cursor → Prop} (h : code.isFault = true) :
    Ensures (refuse code) c post := h

/-! ## Blocks -/

theorem statements_reads {stmt : Read Tree} : ∀ {n m : Nat}, m ≤ n →
    Reads g .statement m single stmt → Reads g .statements m id (statements stmt n)
  | 0, m, hm, _ => fun c _ hl => by omega
  | n + 1, m, hm, hs => by
    intro c hc hl
    unfold statements
    refine ensures_isAt (ensures_isAt ?_)
    split
    · exact ensures_pure ⟨[], .refl hc, .noStatements⟩
    · refine hs.bind hc hl fun t c₁ ts hts hd => ?_
      have hlt := hts.left_lt hd.statement_ne_nil
      refine (statements_reads (m := m - 1) (by omega) (hs.mono (by omega))).bind hts.ended
        (by omega) fun rest c' us hus hd' => ?_
      exact ensures_pure ⟨_, hts.trans hus, .statements hd hd'⟩

theorem indented_reads {stmt : Read Tree} {n m : Nat} (hm : m ≤ n)
    (hs : Reads g .statement m single stmt) :
    Reads g .body (m + 1) single (indented g stmt n) := by
  intro c hc hl
  unfold indented
  refine ensures_within (ensures_expect fun hk => ?_)
  have ht := hc.takes_next (by simp [hk])
  have hlt := ht.left_lt (by simp)
  refine (statements_reads hm hs).bind ht.ended (by omega) fun body c' ts hts hd => ?_
  refine ensures_expect fun hk' => ensures_pure ?_
  exact ⟨_, ((ht.trans hts).next (by simp [hk'])).restart, by simpa using Derives.body hk hd hk'⟩

theorem block_reads {stmt : Read Tree} {n m : Nat} (hm : m ≤ n)
    (hs : Reads g .statement m single stmt) : Reads g .block (m + 1) single (block g stmt n) := by
  intro c hc hl
  unfold block
  refine ensures_expect fun hk => ?_
  have ht := hc.takes_next (by simp [hk])
  have hlt := ht.left_lt (by simp)
  refine (indented_reads hm hs _ ht.ended (by omega)).mono fun t c' ⟨ts, hts, hd⟩ => ?_
  exact ⟨_, ht.trans hts, by simpa using Derives.block hk hd⟩

/-! ## Statements of one line -/

/-- A statement of one line in front of the end of the line. -/
inductive OneLine (g : Grammar) : List Token → Tree → Prop where
  | call {ts t} (value : Derives g .anyValue ts [t]) (isCall : t.rule?.any Rule.isCall = true) :
    OneLine g ts t
  | valueAlone {ts v} (value : Derives g .anyValue ts [v])
      (noCall : v.rule?.any Rule.isCall = false) : OneLine g ts (.of .expressionStatement [v])
  | assignment {ts target sign us v} (path : Derives g .path ts [target])
      (kind : sign.kind = .symbol .assign) (value : Derives g .anyValue us [v]) :
    OneLine g (ts ++ sign :: us) (.of .assignment [target, .token sign, v])

theorem OneLine.statement {ts : List Token} {t : Tree} {lineEnd : Token} (h : OneLine g ts t)
    (he : lineEnd.kind = .newline) : Derives g .statement (ts ++ [lineEnd]) [t] := by
  cases h with
  | call value isCall => exact .call value isCall he
  | valueAlone value noCall => exact .valueAlone value noCall he
  | assignment path kind value => simpa using Derives.assignment path kind value he

theorem OneLine.flat (hg : g.KeepsLayout) {ts : List Token} {t : Tree} (h : OneLine g ts t) :
    ∀ u ∈ ts, u.kind.isLayout = false := by
  cases h with
  | call value _ | valueAlone value _ => exact value.flat hg rfl
  | assignment path kind value =>
    have := path.flat hg rfl
    have := value.flat hg rfl
    simp_all [or_imp]

/-- Only a call of a service may have a block. -/
theorem OneLine.serviceCall {ts : List Token} {t : Tree} (h : OneLine g ts t)
    (hc : t.isA .serviceCall = true) : Derives g .anyValue ts [t] := by
  cases h with
  | call value _ => exact value
  | valueAlone | assignment => simp [Tree.isA, Tree.rule?] at hc

theorem valueStatement_ensures (hg : g.KeepsLayout) {n : Bound} {c₀ : Cursor} {ts : List Token}
    {v : Tree} (ht : c₀.Takes ts c) (hd : Derives g .value ts [v]) (hl : c.left < n) :
    Ensures (valueStatement g n v) c fun t c' => ∃ us, c₀.Takes us c' ∧ OneLine g us t := by
  unfold valueStatement
  refine ensures_ifAt (fun hk => ?_) fun _ => ?_
  · refine (callTail_ensures (Nat.le_refl n) (expression_reads hg n) ht hd hl).mono
      fun t c' ⟨us, hus, hd', hcall⟩ => ⟨us, hus, .call hd' (hcall hk)⟩
  · split
    · rename_i hcall
      exact ensures_pure ⟨ts, ht, .call (.ofValue hd) hcall⟩
    · rename_i hcall
      exact ensures_pure ⟨ts, ht, .valueAlone (.ofValue hd) (by simpa using hcall)⟩

theorem simple_ensures (hg : g.KeepsLayout) {n : Bound} (hc : c.Ended) (hl : c.left < n) :
    Ensures (simple g n) c fun t c' => ∃ ts, c.Takes ts c' ∧ OneLine g ts t := by
  unfold simple
  refine ensures_isAt (ensures_isBefore ?_)
  have hv := expression_reads hg n
  split
  · refine (path_reads (Nat.le_refl n) hv).bind hc (by omega) fun target c₁ ts hts hd => ?_
    have hlt := hts.left_lt hd.path_ne_nil
    refine ensures_ifAt (fun hk => ensures_leaf ?_) fun _ => ensures_ifAt (fun _ => ?_) fun _ => ?_
    · have ht' := hts.next (by simp [hk])
      have hlt' := ht'.left_lt (by simp)
      refine (anyValue_reads hg n).bind ht'.ended (by omega) fun v c' us hus hd' => ?_
      exact ensures_pure ⟨_, ht'.trans hus, by simpa using OneLine.assignment hd hk hd'⟩
    · refine (serviceTail_ensures (Nat.le_refl n) hv hts (.ofPath hd) hd.isA_path
        (by omega)).mono fun t c' h => ?_
      obtain ⟨us, hus, hd', hcall⟩ := h
      exact ⟨us, hus, .call hd' hcall⟩
    · refine (climb_ensures hg (Nat.le_refl n) hv hts (.ofPath hd) (by omega)).bind
        fun v c' h => ?_
      obtain ⟨us, hus, hd'⟩ := h
      have hle := hus.left_le
      exact valueStatement_ensures hg hus hd' (by omega)
  · unfold condition
    refine (hv 0).bind hc hl fun v c' ts hts hd => ?_
    have hle := hts.left_le
    exact valueStatement_ensures hg hts hd (by omega)

theorem simpleStatement_reads (hg : g.KeepsLayout) {stmt : Read Tree} {n : Bound} {m : Nat}
    (hm : m < n) (hs : Reads g .statement m single stmt) :
    Reads g .statement (m + 1) single (simpleStatement g stmt n) := by
  intro c hc hl
  unfold simpleStatement
  dsimp only
  refine (simple_ensures hg hc (by omega)).bind fun t c₁ ⟨ts, hts, hline⟩ => ?_
  refine ensures_unlessAt fun hk => ensures_take ?_
  have ht := hts.next (by simp [hk])
  have hlt := ht.left_lt (by simp)
  refine ensures_isAt ?_
  split
  · rename_i hcall
    simp only [Bool.and_eq_true] at hcall
    refine (indented_reads (Nat.le_of_lt hm) hs).bind ht.ended (by omega)
      fun body c' us hus hd => ?_
    cases t with
    | token t => simp [Tree.isA, Tree.rule?] at hcall
    | node rule line ps =>
      obtain rfl : rule = .serviceCall := by simpa [Tree.isA, Tree.rule?] using hcall.1
      exact ensures_pure ⟨_, ht.trans hus,
        by simpa [withPart] using Derives.callBlock (hline.serviceCall hcall.1) hk hd⟩
  · exact ensures_pure ⟨_, ht, hline.statement hk⟩

theorem jumpWithValue_ensures (hg : g.KeepsLayout) {rule : Rule} {n : Bound} (hc : c.Ended)
    (hl : c.left < n) (hk : c.current.kind ≠ .eof)
    (alone : ∀ {lineEnd}, lineEnd.kind = .newline →
      Derives g .statement [c.current, lineEnd] [.of rule [.token c.current]])
    (withValue : ∀ {ts v lineEnd}, Derives g .anyValue ts [v] → lineEnd.kind = .newline →
      Derives g .statement (c.current :: ts ++ [lineEnd]) [.of rule [.token c.current, v]]) :
    Ensures (jumpWithValue g rule n) c fun t c' =>
      ∃ ts, c.Takes ts c' ∧ Derives g .statement ts [t] := by
  unfold jumpWithValue
  simp only [pure_bind]
  have ht := hc.takes_next hk
  have hlt := ht.left_lt (by simp)
  refine ensures_leaf (ensures_ifAt (fun _ => ?_) fun _ => ?_)
  · refine ensures_expect fun he => ensures_pure ⟨_, ht.next (by simp [he]), ?_⟩
    simpa using alone he
  · refine (anyValue_reads hg n).bind ht.ended (by omega) fun v c' ts hts hd => ?_
    refine ensures_expect fun he => ensures_pure ⟨_, (ht.trans hts).next (by simp [he]), ?_⟩
    simpa using withValue hd he

theorem loopJump_ensures {e : Enclosing} {rule : Rule} {outside : Code} (hc : c.Ended)
    (hk : c.current.kind ≠ .eof) (hf : outside.isFault = true)
    (jump : ∀ {lineEnd}, lineEnd.kind = .newline →
      Derives g .statement [c.current, lineEnd] [.of rule [.token c.current]]) :
    Ensures (loopJump g e rule outside) c fun t c' =>
      ∃ ts, c.Takes ts c' ∧ Derives g .statement ts [t] := by
  rw [loopJump, isInLoop_eq, pure_bind]
  split
  · refine ensures_leaf (ensures_expect fun he => ensures_pure ?_)
    exact ⟨_, (hc.takes_next hk).next (by simp [he]), by simpa using jump he⟩
  · exact ensures_refuse hf

theorem importStatement_ensures (hc : c.Ended) (hk : c.current.kind = .keyword .importWord) :
    Ensures (importStatement g) c fun t c' =>
      ∃ ts, c.Takes ts c' ∧ Derives g .statement ts [t] := by
  unfold importStatement
  dsimp only
  refine ensures_leaf (ensures_unlessAt fun hs => ensures_leaf (ensures_expect fun ha => ?_))
  refine ensures_expectName fun hn => ensures_expect fun he => ensures_pure ?_
  have ht := ((hc.takes_next (by simp [hk])).next (by simp [hs])).next (by simp [ha])
  exact ⟨_, (ht.next hn.name_ne_eof).next (by simp [he]), .importFile hk hs ha hn he⟩

/-! ## Statements with blocks

Each reader is given the reader `stmt` for the statements of its blocks. -/

section Blocks

variable {stmt : Read Tree} {n : Bound} {m : Nat}

theorem condition_reads (hg : g.KeepsLayout) : Reads g .value n single (condition g n) :=
  expression_reads hg n 0

theorem branches_reads (hg : g.KeepsLayout) (hm : m < n) (hs : Reads g .statement m single stmt) :
    ∀ {k l : Nat}, l ≤ k → l ≤ m + 1 → Reads g .branches l id (branches g stmt n k)
  | 0, l, hk, _ => fun c _ hl => by omega
  | k + 1, l, hk, hlm => by
    intro c hc hl
    unfold branches
    refine ensures_ifAt (fun helse => ensures_startLeaf ?_)
      fun _ => ensures_pure ⟨[], .refl hc, .noBranches⟩
    have ht := hc.takes_startNext (by simp [helse])
    have hlt := ht.left_lt (by simp)
    refine ensures_ifAt (fun hif => ensures_leaf ?_) fun _ => ?_
    · have ht' := ht.next (by simp [hif])
      have hlt' := ht'.left_lt (by simp)
      refine (condition_reads hg).bind ht'.ended (by omega) fun v c₁ ts hts hd => ?_
      have hle := hts.left_le
      refine (block_reads (by omega) hs).bind hts.ended (by omega) fun body c₂ us hus hd' => ?_
      have hle' := hus.left_le
      refine (branches_reads hg hm hs (k := k) (l := l - 1) (by omega) (by omega)).bind hus.ended
        (by omega) fun rest c' vs hvs hd'' => ?_
      exact ensures_pure ⟨_, ((ht'.trans hts).trans hus).trans hvs,
        by simpa using Derives.elseIf helse hif hd hd' hd''⟩
    · refine (block_reads (by omega) hs).bind ht.ended (by omega) fun body c' ts hts hd => ?_
      exact ensures_pure ⟨_, ht.trans hts, by simpa using Derives.otherwise helse hd⟩

theorem ifBlock_ensures (hg : g.KeepsLayout) (hm : m < n) (hs : Reads g .statement m single stmt)
    (hc : c.Ended) (hl : c.left ≤ m) (hk : c.current.kind = .keyword .ifWord) :
    Ensures (ifBlock g stmt n) c fun t c' =>
      ∃ ts, c.Takes ts c' ∧ Derives g .statement ts [t] := by
  unfold ifBlock
  have ht := hc.takes_next (by simp [hk])
  have hlt := ht.left_lt (by simp)
  refine ensures_leaf ((condition_reads hg).bind ht.ended (by omega) fun v c₁ ts hts hd => ?_)
  have hle := hts.left_le
  refine (block_reads (by omega) hs).bind hts.ended (by omega) fun body c₂ us hus hd₁ => ?_
  have hle' := hus.left_le
  refine (branches_reads hg hm hs (k := n) (l := m + 1) (by omega) (by omega)).bind hus.ended
    (by omega) fun rest c' vs hvs hd₂ => ?_
  exact ensures_pure ⟨_, ((ht.trans hts).trans hus).trans hvs,
    by simpa using Derives.ifBlock hk hd hd₁ hd₂⟩

theorem foreachBlock_ensures (hg : g.KeepsLayout) (hm : m < n)
    (hs : Reads g .statement m single stmt) (hc : c.Ended) (hl : c.left ≤ m)
    (hk : c.current.kind = .keyword .foreachWord) :
    Ensures (foreachBlock g stmt n) c fun t c' =>
      ∃ ts, c.Takes ts c' ∧ Derives g .statement ts [t] := by
  unfold foreachBlock
  dsimp only
  have ht := hc.takes_next (by simp [hk])
  have hlt := ht.left_lt (by simp)
  refine ensures_leaf ((condition_reads hg).bind ht.ended (by omega) fun v c₁ ts hts hd => ?_)
  have hle := hts.left_le
  refine ensures_unlessAt fun _ => ?_
  refine (output_reads (m := n) (Nat.le_refl n)).bind hts.ended (by omega)
    fun names c₂ us hus hd₁ => ?_
  have hle' := hus.left_le
  refine (block_reads (by omega) hs).bind hus.ended (by omega) fun body c' vs hvs hd₂ => ?_
  exact ensures_pure ⟨_, ((ht.trans hts).trans hus).trans hvs,
    by simpa using Derives.foreachBlock hk hd hd₁ hd₂⟩

theorem whileBlock_ensures (hg : g.KeepsLayout) (hm : m < n)
    (hs : Reads g .statement m single stmt) (hc : c.Ended) (hl : c.left ≤ m)
    (hk : c.current.kind = .keyword .whileWord) :
    Ensures (whileBlock g stmt n) c fun t c' =>
      ∃ ts, c.Takes ts c' ∧ Derives g .statement ts [t] := by
  unfold whileBlock
  have ht := hc.takes_next (by simp [hk])
  have hlt := ht.left_lt (by simp)
  refine ensures_leaf ((condition_reads hg).bind ht.ended (by omega) fun v c₁ ts hts hd => ?_)
  have hle := hts.left_le
  refine (block_reads (by omega) hs).bind hts.ended (by omega) fun body c' us hus hd' => ?_
  exact ensures_pure ⟨_, (ht.trans hts).trans hus, by simpa using Derives.whileBlock hk hd hd'⟩

theorem catchBlock_ensures (hm : m < n) (hs : Reads g .statement m single stmt) (hc : c.Ended)
    (hl : c.left ≤ m) (hk : c.current.kind = .keyword .catchWord) :
    Ensures (catchBlock g stmt n) c fun t c' =>
      ∃ ts, c.Takes ts c' ∧ Derives g .caught ts [t] := by
  unfold catchBlock
  refine ensures_startLeaf ?_
  have ht := hc.takes_startNext (by simp [hk])
  have hlt := ht.left_lt (by simp)
  refine ensures_ifAt (fun _ => ?_) fun _ => ?_
  · refine (output_reads (m := n) (Nat.le_refl n)).bind ht.ended (by omega)
      fun name c₁ ts hts hd => ?_
    have hle := hts.left_le
    refine (block_reads (by omega) hs).bind hts.ended (by omega) fun body c' us hus hd' => ?_
    exact ensures_pure ⟨_, (ht.trans hts).trans hus, by simpa using Derives.catchAs hk hd hd'⟩
  · refine (block_reads (by omega) hs).bind ht.ended (by omega) fun body c' ts hts hd => ?_
    exact ensures_pure ⟨_, ht.trans hts, by simpa using Derives.catchBlock hk hd⟩

theorem finallyBlock_ensures (hm : m < n) (hs : Reads g .statement m single stmt) (hc : c.Ended)
    (hl : c.left ≤ m) (hk : c.current.kind = .keyword .finallyWord) :
    Ensures (finallyBlock g stmt n) c fun t c' =>
      ∃ ts, c.Takes ts c' ∧ Derives g .always ts [t] := by
  unfold finallyBlock
  refine ensures_startLeaf ?_
  have ht := hc.takes_startNext (by simp [hk])
  have hlt := ht.left_lt (by simp)
  refine (block_reads (by omega) hs).bind ht.ended (by omega) fun body c' ts hts hd => ?_
  exact ensures_pure ⟨_, ht.trans hts, by simpa using Derives.finallyBlock hk hd⟩

theorem tryBlock_ensures (hm : m < n) (hs : Reads g .statement m single stmt) (hc : c.Ended)
    (hl : c.left ≤ m) (hk : c.current.kind = .keyword .tryWord) :
    Ensures (tryBlock g stmt n) c fun t c' =>
      ∃ ts, c.Takes ts c' ∧ Derives g .statement ts [t] := by
  unfold tryBlock
  simp only [pure_bind]
  have ht := hc.takes_next (by simp [hk])
  have hlt := ht.left_lt (by simp)
  refine ensures_leaf ((block_reads (by omega) hs).bind ht.ended (by omega)
    fun body c₁ ts hts hd => ?_)
  have ht₁ := ht.trans hts
  have hle := hts.left_le
  -- The `finally` is read in the same way whether there is a `catch` or not.
  have rest : ∀ {c₂ us caught}, c₁.Takes us c₂ → Derives g .caught us caught →
      Ensures (do
        if ← isAt (.keyword .finallyWord) then
          let after ← finallyBlock g stmt n
          pure (Tree.of .tryBlock (.token c.current :: body :: caught ++ [after]))
        else pure (Tree.of .tryBlock (.token c.current :: body :: caught ++ []))) c₂ fun t c' =>
          ∃ ts, c.Takes ts c' ∧ Derives g .statement ts [t] := by
    intro c₂ us caught hus hd₁
    have hle' := hus.left_le
    refine ensures_ifAt (fun hf => ?_) fun _ => ensures_pure ⟨_, ht₁.trans hus, ?_⟩
    · refine (finallyBlock_ensures hm hs hus.ended (by omega) hf).bind
        fun after c' ⟨vs, hvs, hd₂⟩ => ?_
      exact ensures_pure ⟨_, (ht₁.trans hus).trans hvs, by simpa using Derives.tryBlock hk hd hd₁ hd₂⟩
    · simpa using Derives.tryBlock hk hd hd₁ .notAlways
  refine ensures_ifAt (fun hcatch => ?_) fun _ => rest (.refl hts.ended) .notCaught
  exact (catchBlock_ensures hm hs hts.ended (by omega) hcatch).bind
    fun caught c₂ ⟨us, hus, hd₁⟩ => rest hus hd₁

theorem parameters_reads : ∀ {k l : Nat}, l ≤ k → l ≤ n →
    Reads g .parameters l id (parameters g n k)
  | 0, l, hk, _ => fun c _ hl => by omega
  | k + 1, l, hk, hln => by
    intro c hc hl
    unfold parameters
    refine ensures_ifAt (fun _ => ensures_expectName fun hn => ensures_expect fun hk => ?_)
      fun _ => ensures_pure ⟨[], .refl hc, .noParameters⟩
    have ht := (hc.takes_next hn.name_ne_eof).next (by simp [hk])
    have hlt := ht.left_lt (by simp)
    refine (types_reads (Nat.le_refl n)).bind ht.ended (by omega) fun type c₁ ts hts hd => ?_
    have hle := hts.left_le
    refine (parameters_reads (k := k) (l := l - 1) (by omega) (by omega)).bind hts.ended (by omega)
      fun rest c' us hus hd' => ?_
    exact ensures_pure ⟨_, (ht.trans hts).trans hus, by simpa using Derives.parameter hn hk hd hd'⟩

theorem returnType_reads : Reads g .returns n id (returnType g n) := by
  intro c hc hl
  unfold returnType
  refine ensures_ifAt (fun hk => ensures_leaf ?_) fun _ => ensures_pure ⟨[], .refl hc, .noReturns⟩
  have ht := hc.takes_next (by simp [hk])
  have hlt := ht.left_lt (by simp)
  refine (types_reads (Nat.le_refl n)).bind ht.ended (by omega) fun type c' ts hts hd => ?_
  exact ensures_pure ⟨_, ht.trans hts, by simpa using Derives.returns hk hd⟩

theorem functionBlock_ensures (hm : m < n) (hs : Reads g .statement m single stmt) (hc : c.Ended)
    (hl : c.left ≤ m) (hk : c.current.kind = .keyword .functionWord) :
    Ensures (functionBlock g stmt n) c fun t c' =>
      ∃ ts, c.Takes ts c' ∧ Derives g .statement ts [t] := by
  unfold functionBlock
  refine ensures_leaf (ensures_expectName fun hn => ?_)
  have ht := (hc.takes_next (by simp [hk])).next hn.name_ne_eof
  have hlt := ht.left_lt (by simp)
  refine (parameters_reads (l := n) (Nat.le_refl n) (Nat.le_refl n)).bind ht.ended (by omega)
    fun given c₁ ts hts hd => ?_
  have hle := hts.left_le
  refine returnType_reads.bind hts.ended (by omega) fun type c₂ us hus hd₁ => ?_
  have hle' := hus.left_le
  refine (block_reads (by omega) hs).bind hus.ended (by omega) fun body c' vs hvs hd₂ => ?_
  exact ensures_pure ⟨_, ((ht.trans hts).trans hus).trans hvs,
    by simpa using Derives.functionBlock hk hn hd hd₁ hd₂⟩

theorem whenBlock_ensures (hg : g.KeepsLayout) (hm : m < n)
    (hs : Reads g .statement m single stmt) (hc : c.Ended) (hl : c.left ≤ m)
    (hk : c.current.kind = .keyword .whenWord) :
    Ensures (whenBlock g stmt n) c fun t c' =>
      ∃ ts, c.Takes ts c' ∧ Derives g .statement ts [t] := by
  unfold whenBlock
  have hv := expression_reads hg n
  have ht := hc.takes_next (by simp [hk])
  have hlt := ht.left_lt (by simp)
  refine ensures_leaf ((path_reads (Nat.le_refl n) hv).bind ht.ended (by omega)
    fun target c₁ ts hts hd => ensures_expectName fun hn => ?_)
  have hle := hts.left_le
  have ht₁ := hts.next hn.name_ne_eof
  have hlt₁ := ht₁.left_le
  refine ensures_arguments (Nat.le_refl n) hv ht₁.ended (by omega) fun given c₂ us hus hd₁ => ?_
  have hle₂ := hus.left_le
  have ht₂ := (ht.trans ht₁).trans hus
  refine ensures_ifAt (fun _ => ?_) fun _ => ?_
  · refine (output_reads (m := n) (Nat.le_refl n)).bind hus.ended (by omega)
      fun names c₃ vs hvs hd₂ => ?_
    have hle₃ := hvs.left_le
    refine (block_reads (by omega) hs).bind hvs.ended (by omega) fun body c' ws hws hd₃ => ?_
    exact ensures_pure ⟨_, (ht₂.trans hvs).trans hws,
      by simpa using Derives.whenAs hk hd hn hd₁ hd₂ hd₃⟩
  · refine (block_reads (by omega) hs).bind hus.ended (by omega) fun body c' vs hvs hd₂ => ?_
    exact ensures_pure ⟨_, ht₂.trans hvs, by simpa using Derives.whenBlock hk hd hn hd₁ hd₂⟩

end Blocks

/-! ## Statements and stories -/

theorem statementBody_reads (hg : g.KeepsLayout) {stmt : Enclosing → Read Tree} {n : Bound}
    {m : Nat} {e : Enclosing} (hm : m < n) (hs : ∀ e, Reads g .statement m single (stmt e)) :
    Reads g .statement (m + 1) single (statementBody g stmt n e) := by
  intro c hc hl
  unfold statementBody
  refine ensures_kind ?_
  split <;> rename_i hk
  · exact ifBlock_ensures hg hm (hs e) hc (by omega) hk
  · exact foreachBlock_ensures hg hm (hs e.loop) hc (by omega) hk
  · exact whileBlock_ensures hg hm (hs e.loop) hc (by omega) hk
  · exact tryBlock_ensures hm (hs e) hc (by omega) hk
  · exact functionBlock_ensures hm (hs .function) hc (by omega) hk
  · exact whenBlock_ensures hg hm (hs e) hc (by omega) hk
  · rw [returnStatement, isInFunction_eq, pure_bind]
    split
    · exact jumpWithValue_ensures hg hc (by omega) (by simp [hk]) (.returnAlone hk)
        (.returnValue hk)
    · exact ensures_refuse rfl
  · exact loopJump_ensures hc (by simp [hk]) rfl (.breakOff hk)
  · exact loopJump_ensures hc (by simp [hk]) rfl (.continueOn hk)
  · exact jumpWithValue_ensures hg hc (by omega) (by simp [hk]) (.throwAlone hk) (.throwValue hk)
  · exact importStatement_ensures hc hk
  · exact simpleStatement_reads hg hm (hs e) c hc hl

theorem statement_reads (hg : g.KeepsLayout) :
    ∀ n e, Reads g .statement n single (statement g (n + 1) e)
  | 0, _ => fun c _ hl => by omega
  | n + 1, e => by
    intro c hc hl
    unfold statement
    have h := statementBody_reads (e := e) hg (Nat.lt_succ_self n) (statement_reads hg n)
    refine ensures_startStatement ((h c.startStatement hc hl).mono fun t c' ⟨ts, ht, hd⟩ => ?_)
    exact ⟨ts, ⟨ht.upcoming, ht.ended⟩, hd⟩

theorem storyStatements_reads {stmt : Read Tree} : ∀ {n m : Nat}, m ≤ n →
    Reads g .statement m single stmt → Reads g .statements m id (storyStatements stmt n)
  | 0, m, hm, _ => fun c _ hl => by omega
  | n + 1, m, hm, hs => by
    intro c hc hl
    unfold storyStatements
    refine ensures_ifAt (fun _ => ensures_pure ⟨[], .refl hc, .noStatements⟩) fun _ => ?_
    refine hs.bind hc hl fun t c₁ ts hts hd => ?_
    have hlt := hts.left_lt hd.statement_ne_nil
    refine (storyStatements_reads (m := m - 1) (by omega) (hs.mono (by omega))).bind hts.ended
      (by omega) fun rest c' us hus hd' => ?_
    exact ensures_pure ⟨_, hts.trans hus, .statements hd hd'⟩

end Read

/-! ## Trees of tokens -/

namespace Cursor

theorem upcoming_start (tokens : List Token) :
    (start tokens).upcoming = tokens ++ missingEnd tokens := by
  unfold start
  cases h : tokens ++ missingEnd tokens with
  | nil =>
    obtain ⟨rfl, h⟩ := List.append_eq_nil_iff.1 h
    simp [missingEnd] at h
  | cons t ts => rfl

theorem ended_start (tokens : List Token) : (start tokens).Ended := by
  unfold Ended
  rw [upcoming_start, missingEnd]
  cases h : tokens.getLast? with
  | none => simp [List.getLast?_append, h]
  | some last =>
    by_cases hk : last.kind = .eof <;> simp [List.getLast?_append, h, hk]

theorem left_start (tokens : List Token) : (start tokens).left ≤ tokens.length := by
  have h := congrArg List.length (upcoming_start tokens)
  have hm : (missingEnd tokens).length ≤ 1 := by
    unfold missingEnd
    split
    · simp
    · split <;> simp
  simp only [upcoming, List.length_cons, List.length_append] at h
  simp only [left]
  omega

end Cursor

theorem Cursor.Takes.prefix_start {tokens used : List Token} {c : Cursor}
    (h : (Cursor.start tokens).Takes used c) : used <+: tokens ++ Cursor.missingEnd tokens :=
  ⟨c.upcoming, by rw [← Cursor.upcoming_start, h.upcoming]⟩

namespace Read

variable {g : Grammar}

theorem story_ensures (hg : g.KeepsLayout) (tokens : List Token) :
    Ensures (story g (bound tokens)) (Cursor.start tokens) fun t c =>
      ∃ used trees, (Cursor.start tokens).Takes used c ∧ t = .of .start trees ∧
        Derives g .statements used trees := by
  have hl := Cursor.left_start tokens
  have hs := statement_reads hg (2 * tokens.length + 3) .story
  unfold story
  refine (storyStatements_reads (n := bound tokens) (by simp [bound]) hs).bind
    (Cursor.ended_start tokens) (by omega) fun trees c used ht hd => ?_
  exact ensures_pure ⟨used, trees, ht, rfl, hd⟩

theorem fragment_ensures (hg : g.KeepsLayout) (tokens : List Token) :
    Ensures (fragment g (bound tokens)) (Cursor.start tokens) fun t c =>
      ∃ used, (Cursor.start tokens).Takes used c ∧ Derives g .anyValue used [t] := by
  have hl := Cursor.left_start tokens
  unfold fragment
  refine (anyValue_reads hg (bound tokens)).bind (Cursor.ended_start tokens)
    (by simp only [bound]; omega) fun t c used ht hd => ?_
  refine ensures_isAt (ensures_isAt ?_)
  split
  · exact ensures_pure ⟨used, ht, hd⟩
  · exact ensures_unexpected

end Read

namespace Tree

variable {g : Grammar} {tokens : List Token}

/-- A tree that was read is the node of statements that some first tokens spell. -/
theorem ofTokens_ok (hg : g.KeepsLayout) {t : Tree} (h : ofTokens g tokens = .ok t) :
    ∃ used trees, used <+: tokens ++ Cursor.missingEnd tokens ∧ t = .of .start trees ∧
      Derives g .statements used trees := by
  obtain ⟨c, used, trees, ht, htree, hd⟩ := (Read.story_ensures hg tokens).of_ok h
  exact ⟨used, trees, ht.prefix_start, htree, hd⟩

theorem ofTokens_error (hg : g.KeepsLayout) {f : Fault} (h : ofTokens g tokens = .error f) :
    f.OfStory :=
  (Read.story_ensures hg tokens).of_error h

/-- A value that was read alone is spelled by some first tokens. -/
theorem ofFragment_ok (hg : g.KeepsLayout) {t : Tree} (h : ofFragment g tokens = .ok t) :
    ∃ used, used <+: tokens ++ Cursor.missingEnd tokens ∧ Derives g .anyValue used [t] := by
  obtain ⟨c, used, ht, hd⟩ := (Read.fragment_ensures hg tokens).of_ok h
  exact ⟨used, ht.prefix_start, hd⟩

theorem ofFragment_error (hg : g.KeepsLayout) {f : Fault} (h : ofFragment g tokens = .error f) :
    f.OfStory :=
  (Read.fragment_ensures hg tokens).of_error h

end Tree

end StoryLang
