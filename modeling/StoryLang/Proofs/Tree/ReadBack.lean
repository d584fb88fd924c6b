/-
What is written for a value is read as the value.

In what is written there are parentheses around every value within another
one. So no operator is told from another one by its precedence, and behind a
value there is a token that it does not go on with. A reader has to take the
tokens of its piece and none of its neighbours': `Gives` says just that, and
`Reads` says it of the reader of each piece.
-/
import StoryLang.Proofs.Tree.Climbing
import StoryLang.Proofs.Tree.Precedence

namespace StoryLang

/-! ## Readers -/

namespace Read

variable {α β : Type} {g : Grammar} {r : Read α} {us vs ws : List Token} {a : α} {b : β} {k : TokenKind}
  {t u f : Token}

/-- In front of the tokens `us` the reader gives `a`, and it leaves `vs`. -/
def Gives (r : Read α) (us : List Token) (a : α) (vs : List Token) : Prop :=
  ∀ c : Cursor, c.upcoming = us → ∃ c', r c = .ok (a, c') ∧ c'.upcoming = vs

theorem gives_pure : Gives (pure a) us a us := fun c hc => ⟨c, rfl, hc⟩

theorem Gives.bind {m : α → Read β} (h : Gives r us a vs) (h' : Gives (m a) vs b ws) :
    Gives (r >>= m) us b ws := by
  intro c hc
  obtain ⟨c', hr, hc'⟩ := h c hc
  obtain ⟨c'', hm, hc''⟩ := h' c' hc'
  refine ⟨c'', ?_, hc''⟩
  rw [bind_apply, hr]
  exact hm

/-- A reader that there does what another one does. -/
theorem Gives.congr {r' : Read α} (h : Gives r' us a vs)
    (he : ∀ c : Cursor, c.upcoming = us → r c = r' c) : Gives r us a vs := by
  intro c hc
  rw [he c hc]
  exact h c hc

theorem gives_leaf (hus : us ≠ []) : Gives leaf (t :: us) (.token t) us := by
  intro c hc
  refine ⟨c.next, ?_, Cursor.upcoming_next hc hus⟩
  rw [leaf_apply, Cursor.current_of_upcoming hc]

theorem gives_take (hus : us ≠ []) : Gives take (t :: us) t us := by
  intro c hc
  refine ⟨c.next, ?_, Cursor.upcoming_next hc hus⟩
  rw [take_apply, Cursor.current_of_upcoming hc]

theorem gives_ifAt {x y : Read α} (hx : t.kind = k → Gives x (t :: us) a vs)
    (hy : t.kind ≠ k → Gives y (t :: us) a vs) :
    Gives (isAt k >>= fun b => if b = true then x else y) (t :: us) a vs := by
  by_cases h : t.kind = k
  · refine (hx h).congr fun c hc => ?_
    simp [bind_apply, isAt_apply, Cursor.current_of_upcoming hc, h]
  · refine (hy h).congr fun c hc => ?_
    simp [bind_apply, isAt_apply, Cursor.current_of_upcoming hc, h]

theorem gives_unlessAt {x y : Read α} (h : t.kind = k) (hy : Gives y (t :: us) a vs) :
    Gives (isAt k >>= fun b => if (!b) = true then x else y) (t :: us) a vs := by
  refine hy.congr fun c hc => ?_
  simp [bind_apply, isAt_apply, Cursor.current_of_upcoming hc, h]

theorem gives_expect (h : t.kind = k) (hus : us ≠ []) : Gives (expect g k) (t :: us) (.token t) us :=
  gives_ifAt (fun _ => gives_leaf hus) fun hk => absurd h hk

theorem gives_expectName (h : g.isFreeName t) (hus : us ≠ []) :
    Gives (expectName g) (t :: us) (.token t) us := by
  refine (gives_leaf hus).congr fun c hc => ?_
  simp [expectName, bind_apply, isAtName_apply, Cursor.current_of_upcoming hc, h.1, h.2]

/-- The kinds of tokens that no value in parentheses goes on with. -/
def EndsOperand (k : TokenKind) : Prop := k.isSign = false ∧ k ≠ .keyword .asWord

instance {k : TokenKind} : Decidable (EndsOperand k) := inferInstanceAs (Decidable (_ ∧ _))

/-- The kinds of tokens that arguments in parentheses do not go on with. -/
def EndsCall (k : TokenKind) : Prop := EndsOperand k ∧ k ≠ .symbol .comma ∧ k ≠ .name

instance {k : TokenKind} : Decidable (EndsCall k) := inferInstanceAs (Decidable (_ ∧ _))

theorem EndsOperand.between? (hs : g.HasSigns) (hk : EndsOperand k) :
    g.operators.between? k = none := by
  cases ho : g.operators.between? k with
  | none => rfl
  | some o =>
    have hsign := hs k (.inl (by simp [ho]))
    simp [hk.1] at hsign

theorem EndsOperand.blocked {c : Cursor} (hs : g.HasSigns) (hf : EndsOperand f.kind)
    (hc : c.upcoming = f :: us) (q : Nat) : Blocked g q c := by
  have hcurrent := Cursor.current_of_upcoming hc
  simp [Blocked, atCast, hcurrent, hf.2, Grammar.binding, hf.between? hs]

theorem gives_climb {value : Nat → Read Tree} {min n : Nat} {left : Tree} (hs : g.HasSigns)
    (hf : EndsOperand f.kind) : Gives (climb g value min (n + 1) left) (f :: us) left (f :: us) :=
  fun c hc => ⟨c, climb_blocked (hf.blocked hs hc min), hc⟩

/-- What is read up to a token that no value goes on with is the value. -/
theorem gives_expression {min n : Nat} {left : Tree} (hs : g.HasSigns) (hf : EndsOperand f.kind)
    (h : Gives (operand g (expression g (n + 1)) (n + 1)) us left (f :: vs)) :
    Gives (expression g (n + 2) min) us left (f :: vs) :=
  h.bind (gives_climb hs hf)

theorem gives_callOrValue {value : Nat → Read Tree} {n : Nat} {left : Tree} (hf : f.kind ≠ .name)
    (h : Gives (value 0) us left (f :: vs)) : Gives (callOrValue g value n) us left (f :: vs) :=
  h.bind (gives_ifAt (fun hk => absurd hk hf) fun _ => gives_pure)

/-- A value in parentheses is an operand. -/
theorem gives_inParens {p : Position} {value : Nat → Read Tree} {n : Nat} {inner : Tree}
    (h : ∀ {f after}, f.kind = .symbol .rightParen →
      Gives (callOrValue g value n) (us ++ f :: after) inner (f :: after)) :
    Gives (operand g value n) (inParens p us ++ f :: vs) inner (f :: vs) := by
  have hread : Gives (parenthesized g value n) (inParens p us ++ f :: vs) inner (f :: vs) := by
    rw [inParens_append]
    exact (gives_take (by simp)).bind ((h rfl).bind ((gives_expect rfl (by simp)).bind gives_pure))
  refine hread.congr fun c hc => ?_
  have hcurrent := Cursor.current_of_upcoming hc
  simp [operand, bind_apply, kind_apply, hcurrent, Symbol.token]

/-! ## Rows -/

variable {p : Position} {after : List Token}

/-- Items with commas between them are read up to a token that is none. -/
theorem gives_commaSeparated {item : Read Tree} {ts : List Tree} (hf : f.kind ≠ .symbol .comma)
    (node : ∀ t ∈ ts, t.isNode = true)
    (each : ∀ t ∈ ts, ∀ {u : Token} {us : List Token}, u.kind = .symbol .comma ∨ u.kind = f.kind →
      Gives item (t.writePart p ++ u :: us) t (u :: us)) {n : Nat} (hn : ts.length ≤ n)
    (hts : ts ≠ []) :
    Gives (commaSeparated item n) (Tree.writeRow p (some .comma) ts ++ f :: after) ts (f :: after) := by
  induction ts generalizing n with
  | nil => cases hts rfl
  | cons t ts ih =>
    obtain ⟨n, rfl⟩ := Nat.exists_eq_succ_of_ne_zero (Nat.ne_zero_of_lt hn)
    rw [List.forall_mem_cons] at node each
    cases ts with
    | nil =>
      rw [Tree.writeRow_one]
      exact (each.1 (.inr rfl)).bind (gives_ifAt (fun hk => absurd hk hf) fun _ => gives_pure)
    | cons t' ts =>
      rw [Tree.writeRow_two node.1 (node.2 t' (by simp)), List.append_assoc, List.cons_append]
      refine (each.1 (.inl rfl)).bind (gives_ifAt (fun _ => ?_) fun hk => absurd rfl hk)
      exact (gives_take (by simp)).bind
        ((ih node.2 each.2 (Nat.le_of_succ_le_succ hn) (by simp)).bind gives_pure)

/-- What stands in front of a row adds `t` to what is read as the row, where the row starts with a
token of a kind in `P`. -/
def Leads (row : Nat → Read (List Tree)) (P : TokenKind → Prop) (ts : List Token) (t : Tree) : Prop :=
  ∀ ⦃k : Nat⦄ ⦃u : Token⦄ ⦃us : List Token⦄ ⦃rest : List Tree⦄ ⦃vs : List Token⦄, ts.length ≤ k →
    P u.kind → Gives (row k) (u :: us) rest vs → Gives (row (k + 1)) (ts ++ u :: us) (t :: rest) vs

/-- A row with nothing between its parts is read part by part. -/
theorem gives_row {row : Nat → Read (List Tree)} {P : TokenKind → Prop} {ts : List Tree}
    (hf : P f.kind) (stop : ∀ k, Gives (row (k + 1)) (f :: after) [] (f :: after))
    (starts : ∀ t ∈ ts, ∃ u us, t.writePart p = u :: us ∧ P u.kind)
    (each : ∀ t ∈ ts, Leads row P (t.writePart p) t) {k : Nat}
    (hk : (Tree.writeRow p none ts).length < k) :
    Gives (row k) (Tree.writeRow p none ts ++ f :: after) ts (f :: after) := by
  induction ts generalizing k with
  | nil =>
    obtain ⟨k, rfl⟩ := Nat.exists_eq_succ_of_ne_zero (Nat.ne_zero_of_lt hk)
    exact stop k
  | cons t ts ih =>
    obtain ⟨k, rfl⟩ := Nat.exists_eq_succ_of_ne_zero (Nat.ne_zero_of_lt hk)
    rw [List.forall_mem_cons] at starts each
    obtain ⟨v, vs, hv, -⟩ := starts.1
    rw [Tree.writeRow_none, List.length_append] at hk
    have hpos : 0 < (t.writePart p).length := by simp [hv]
    rw [Tree.writeRow_none, List.append_assoc]
    have hrest := ih starts.2 each.2 (by omega : _ < k)
    -- what comes next is the next part, or what is behind the row
    obtain ⟨u, us, hu, hp⟩ : ∃ u us, Tree.writeRow p none ts ++ f :: after = u :: us ∧ P u.kind := by
      cases ts with
      | nil => exact ⟨f, after, rfl, hf⟩
      | cons t' ts =>
        obtain ⟨u, us, hu, hp⟩ := starts.2 t' (by simp)
        exact ⟨u, us ++ (Tree.writeRow p none ts ++ f :: after), by simp [Tree.writeRow_none, hu], hp⟩
    rw [hu] at hrest ⊢
    exact each.1 (by omega) hp hrest

end Read

namespace Tree

variable {g : Grammar} {p : Position} {t : Tree}

open Read

/-- The piece is read from what is written for it, in front of anything that can stand behind it. -/
def Reads (g : Grammar) (p : Position) : Piece → Tree → Prop
  | .value, t => ∀ ⦃n : Nat⦄ ⦃f : Token⦄ ⦃after : List Token⦄,
    f.kind = .eof ∨ f.kind = .symbol .rightParen → (t.write p).length < n →
      Gives (callOrValue g (expression g n) n) (t.write p ++ f :: after) t (f :: after)
  | .path, t => ∀ ⦃n : Nat⦄ ⦃f : Token⦄ ⦃after : List Token⦄, EndsName f.kind →
    (t.write p).length ≤ n →
      Gives (operand g (expression g n) n) (t.write p ++ f :: after) t (f :: after)
  | .fragment, t => ∀ ⦃n : Nat⦄, (t.writePart p).length ≤ n →
    Leads (fragments g (expression g n)) (fun _ => True) (t.writePart p) t
  | .entry, t => ∀ ⦃n : Nat⦄ ⦃f : Token⦄ ⦃after : List Token⦄, EndsOperand f.kind →
    (t.writePart p).length ≤ n →
      Gives (mapItem g (expression g n)) (t.writePart p ++ f :: after) t (f :: after)
  | .argument, t => ∀ ⦃n : Nat⦄, (t.writePart p).length ≤ n →
    Leads (argumentList g (expression g n)) (fun k => EndsOperand k ∧ k ≠ .symbol .comma) (t.writePart p) t
  | .link, t => ∀ ⦃n : Nat⦄, (t.writePart p).length ≤ n →
    Leads (links g (expression g n)) EndsCall (t.writePart p) t
  | .types, t => ∀ ⦃n : Nat⦄ ⦃f : Token⦄ ⦃after : List Token⦄, f.kind ≠ .symbol .leftBracket →
    (t.writePart p).length ≤ n → Gives (types g n) (t.writePart p ++ f :: after) t (f :: after)

/-- A value in parentheses, as it stands within another one. -/
theorem Reads.enclosed {n min : Nat} {f : Token} {after : List Token} (hs : g.HasSigns)
    (ht : Writable g .value t) (h : Reads g p .value t) (hf : EndsOperand f.kind)
    (hn : (t.writePart p).length < n) :
    Gives (expression g n min) (t.writePart p ++ f :: after) t (f :: after) := by
  rw [ht.writePart_value, length_inParens] at hn
  obtain ⟨n, rfl⟩ : ∃ m, n = m + 2 := ⟨n - 2, by omega⟩
  rw [ht.writePart_value]
  exact gives_expression hs hf (gives_inParens fun hk => h (.inr hk) (by omega))

theorem ends_of_closes {k : TokenKind} (hk : k = .eof ∨ k = .symbol .rightParen) :
    EndsOperand k ∧ EndsName k ∧ k ≠ .name ∧ k ≠ .keyword .thenWord := by
  obtain rfl | rfl := hk <;> simp [EndsOperand, EndsName, TokenKind.isSign, Symbol.operators]

/-- What an operand is read from, a value is. -/
theorem Reads.ofOperand (hs : g.HasSigns) (hw : t.write p ≠ [])
    (h : ∀ {n : Nat} {f : Token} {after : List Token}, EndsOperand f.kind → EndsName f.kind →
      (t.write p).length ≤ n →
      Gives (operand g (expression g n) n) (t.write p ++ f :: after) t (f :: after)) :
    Reads g p .value t := by
  intro n f after hf hn
  have hpos := List.length_pos_iff.2 hw
  obtain ⟨n, rfl⟩ : ∃ m, n = m + 2 := ⟨n - 2, by omega⟩
  obtain ⟨hends, hname, hcall, -⟩ := ends_of_closes hf
  exact gives_callOrValue hcall (gives_expression hs hends (h hends hname (by omega)))

theorem reads_literal {rule : Rule} {v : Token} (hs : g.HasSigns) (h : g.isOperand v = true)
    (hnode : OperatorTree.operandNode v = of rule [.token v])
    (hw : (of rule [.token v]).write p = [v]) : Reads g p .value (of rule [.token v]) := by
  refine Reads.ofOperand hs (by simp [hw]) fun {n f after} _ hname hn => ?_
  rw [hw] at hn ⊢
  obtain ⟨n, rfl⟩ : ∃ m, n = m + 1 := ⟨n - 1, by rw [List.length_singleton] at hn; omega⟩
  intro c hc
  exact ⟨c.next, by rw [operand_simple h hc hname, hnode], Cursor.upcoming_next hc (by simp)⟩

/-- Items with commas between them, in brackets: the reader of lists and of maps. -/
def delimited (g : Grammar) (rule : Rule) (close : Symbol) (item : Read Tree) (n : Nat) :
    Read Tree := do
  let opening ← leaf
  let items ← if ← isAt (.symbol close) then pure [] else commaSeparated item n
  if !(← isAt (.symbol close)) then unexpected g [.symbol .comma, .symbol close]
  return .of rule (opening :: items ++ [← leaf])

theorem operand_list {value : Nat → Read Tree} {n : Nat} {c : Cursor}
    (hk : c.current.kind = .symbol .leftBracket) :
    operand g value n c = delimited g .list .rightBracket (value 0) n c := by
  simp only [operand, bind_apply, kind_apply, hk]
  rfl

theorem operand_map {value : Nat → Read Tree} {n : Nat} {c : Cursor}
    (hk : c.current.kind = .symbol .leftBrace) :
    operand g value n c = delimited g .map .rightBrace (mapItem g value) n c := by
  simp only [operand, bind_apply, kind_apply, hk]
  rfl

/-- A row of pieces with commas between them, from its opening bracket to the closing one. -/
theorem reads_delimited {rule : Rule} {close : Symbol} {piece : Piece} {opening closing : Token}
    {items : List Tree} (item : (Nat → Read Tree) → Read Tree) (hs : g.HasSigns)
    (hrule : rule = .list ∨ rule = .map)
    (hread : ∀ {value : Nat → Read Tree} {n : Nat} {c : Cursor}, c.current.kind = opening.kind →
      operand g value n c = delimited g rule close (item value) n c)
    (closes : closing.kind = .symbol close) (hclose : EndsOperand closing.kind) (hcomma : close ≠ .comma)
    (each : ∀ t ∈ items, Writable g piece t) (starts : ¬ piece.starts (.symbol close))
    (ih : ∀ t ∈ items, ∀ {n : Nat} {f : Token} {after : List Token}, EndsOperand f.kind →
      (t.writePart p).length < n →
        Gives (item (expression g n)) (t.writePart p ++ f :: after) t (f :: after)) :
    Reads g p .value (of rule (.token opening :: items ++ [.token closing])) := by
  have hw : (of rule (.token opening :: items ++ [.token closing])).write p =
      opening :: (writeRow p (some .comma) items ++ [closing]) := by
    rw [← writeRow_snoc]
    obtain rfl | rfl := hrule <;> rfl
  refine Reads.ofOperand hs (by rw [hw]; simp) fun {n f after} _ _ hn => ?_
  rw [hw] at hn ⊢
  simp only [List.length_cons, List.length_append, List.length_nil] at hn
  rw [List.cons_append, List.append_assoc, List.cons_append, List.nil_append]
  have hitem : ∀ t ∈ items, ∀ {u : Token} {us : List Token},
      u.kind = .symbol .comma ∨ u.kind = closing.kind →
        Gives (item (expression g n)) (t.writePart p ++ u :: us) t (u :: us) := by
    intro t ht u us hu
    have hpart : (t.writePart p).length ≤ (writeRow p (some .comma) items).length :=
      length_writePart_le ht
    refine ih t ht ?_ (by omega)
    obtain hu | hu := hu <;> rw [hu]
    · decide
    · exact hclose
  suffices h : Gives (delimited g rule close (item (expression g n)) n)
      (opening :: (writeRow p (some .comma) items ++ closing :: f :: after))
      (of rule (.token opening :: items ++ [.token closing])) (f :: after) from
    h.congr fun c hc => hread (by rw [Cursor.current_of_upcoming hc])
  unfold delimited
  cases items with
  | nil =>
    refine (gives_leaf (by simp)).bind (gives_ifAt (fun _ => ?_) fun hk => absurd closes hk)
    exact gives_pure.bind (gives_unlessAt closes ((gives_leaf (by simp)).bind gives_pure))
  | cons t ts =>
    have node : ∀ u ∈ t :: ts, u.isNode = true := fun u hu => (each u hu).isNode
    have hlength := length_le_writeRow (p := p) (s := .comma) node
    have hitems : Gives (commaSeparated (item (expression g n)) n)
        (writeRow p (some .comma) (t :: ts) ++ closing :: f :: after) (t :: ts)
        (closing :: f :: after) :=
      gives_commaSeparated (by simpa [closes] using hcomma) node hitem (by omega) (by simp)
    obtain ⟨u, us, hu, hk⟩ := (each t (by simp)).starts (p := p)
    rw [writeRow_cons, hu] at hitems ⊢
    refine (gives_leaf (by simp)).bind (gives_ifAt (fun hk' => absurd (hk' ▸ hk) starts) fun _ => ?_)
    exact hitems.bind (gives_unlessAt closes ((gives_leaf (by simp)).bind gives_pure))

theorem reads_list {items : List Tree} {opening closing : Token} (hs : g.HasSigns)
    (opens : opening.kind = .symbol .leftBracket) (closes : closing.kind = .symbol .rightBracket)
    (each : ∀ t ∈ items, Writable g .value t) (ih : ∀ t ∈ items, Reads g p .value t) :
    Reads g p .value (of .list (.token opening :: items ++ [.token closing])) :=
  reads_delimited (fun value => value 0) hs (.inl rfl) (fun hk => operand_list (hk.trans opens))
    closes (closes ▸ by decide) (by decide) each (by simp [Piece.starts])
    fun t ht _ _ _ hf hn => (ih t ht).enclosed hs (each t ht) hf hn

theorem reads_map {items : List Tree} {opening closing : Token} (hs : g.HasSigns)
    (opens : opening.kind = .symbol .leftBrace) (closes : closing.kind = .symbol .rightBrace)
    (each : ∀ t ∈ items, Writable g .entry t) (ih : ∀ t ∈ items, Reads g p .entry t) :
    Reads g p .value (of .map (.token opening :: items ++ [.token closing])) :=
  reads_delimited (mapItem g) hs (.inr rfl) (fun hk => operand_map (hk.trans opens)) closes
    (closes ▸ by decide) (by decide) each (by simp [Piece.starts])
    fun t ht _ _ _ hf hn => ih t ht hf (Nat.le_of_lt hn)

theorem reads_entry {key v : Tree} (hs : g.HasSigns) (keyed : Writable g .value key)
    (hkey : Reads g p .value key) (value : Writable g .value v) (hv : Reads g p .value v) :
    Reads g p .entry (of .mapItem [key, v]) := by
  have hw : (of .mapItem [key, v]).writePart p =
      key.writePart p ++ Symbol.colon.token p :: v.writePart p := by
    calc
      _ = writeRow p (some .colon) [key, v] := rfl
      _ = _ := by rw [writeRow_two keyed.isNode value.isNode, writeRow_one]
  intro n f after hf hn
  rw [hw] at hn ⊢
  rw [List.length_append, List.length_cons] at hn
  rw [List.append_assoc, List.cons_append]
  have hcolon : EndsOperand (.symbol .colon) := by decide
  refine (hkey.enclosed hs keyed hcolon (by omega)).bind ?_
  refine (gives_expect rfl (by simp)).bind ?_
  exact (hv.enclosed hs value hf (by omega)).bind gives_pure

/-! ## Paths -/

theorem reads_field {dot name : Token} (kind : dot.kind = .symbol .dot) (named : g.isFreeName name) :
    Reads g p .fragment (of .pathFragment [.token dot, .token name]) := by
  intro n _ k u us rest vs _ _ h
  refine gives_ifAt (fun _ => ?_) fun hk => absurd kind hk
  refine (gives_leaf (by simp)).bind ?_
  exact (gives_expectName named (by simp)).bind (h.bind gives_pure)

theorem reads_index {opening closing : Token} {v : Tree} (hs : g.HasSigns)
    (opens : opening.kind = .symbol .leftBracket) (closes : closing.kind = .symbol .rightBracket)
    (value : Writable g .value v) (hv : Reads g p .value v) :
    Reads g p .fragment (of .pathFragment [.token opening, v, .token closing]) := by
  have hw : (of .pathFragment [.token opening, v, .token closing]).writePart p =
      opening :: (v.writePart p ++ [closing]) := by
    calc
      _ = opening :: writeRow p none [v, .token closing] := rfl
      _ = _ := by rw [writeRow_none, writeRow_one, writePart_token]
  intro n hn k u us rest vs _ _ h
  rw [hw] at hn ⊢
  rw [List.length_cons, List.length_append] at hn
  rw [List.cons_append, List.append_assoc, List.cons_append, List.nil_append]
  refine gives_ifAt (fun hk => absurd (hk.symm.trans opens) (by decide)) fun _ => ?_
  refine gives_ifAt (fun _ => ?_) fun hk => absurd opens hk
  refine (gives_leaf (by simp)).bind ?_
  refine (hv.enclosed hs value (closes ▸ by decide) (by omega)).bind ?_
  exact (gives_expect closes (by simp)).bind (h.bind gives_pure)

theorem reads_path {root : Token} {fs : List Tree} (named : g.isFreeName root)
    (each : ∀ t ∈ fs, Writable g .fragment t) (ih : ∀ t ∈ fs, Reads g p .fragment t) :
    Reads g p .path (of .path (.token root :: fs)) := by
  have hw : (of .path (.token root :: fs)).write p = root :: writeRow p none fs := rfl
  intro n f after hf hn
  rw [hw] at hn ⊢
  rw [List.length_cons] at hn
  have hrow : Gives (fragments g (expression g n) n) (writeRow p none fs ++ f :: after) fs (f :: after) := by
    refine gives_row (P := fun _ => True) trivial (fun k => ?_) (fun t ht => ?_) (fun t ht => ?_) (by omega)
    · refine gives_ifAt (fun hk => absurd hk hf.2.2) fun _ => ?_
      exact gives_ifAt (fun hk => absurd hk hf.2.1) fun _ => gives_pure
    · obtain ⟨u, us, hu, -⟩ := (each t ht).starts (p := p)
      exact ⟨u, us, hu, trivial⟩
    · have hpart : (t.writePart p).length ≤ (writeRow p none fs).length := length_writePart_le ht
      exact ih t ht (by omega)
  have hread : Gives (path g (expression g n) n) (root :: (writeRow p none fs ++ f :: after))
      (of .path (.token root :: fs)) (f :: after) :=
    (gives_expectName named (by simp)).bind (hrow.bind gives_pure)
  -- a path and not a call of a function: no parenthesis follows the name
  obtain ⟨u, us, hu, hk⟩ : ∃ u us, writeRow p none fs ++ f :: after = u :: us ∧
      u.kind ≠ .symbol .leftParen := by
    cases fs with
    | nil => exact ⟨f, after, rfl, hf.1⟩
    | cons t ts =>
      obtain ⟨u, us, hu, hk⟩ := (each t (by simp)).starts (p := p)
      refine ⟨u, us ++ (writeRow p none ts ++ f :: after), by simp [writeRow_none, hu], ?_⟩
      obtain hk | hk := hk <;> simp [hk]
  rw [List.cons_append]
  refine hread.congr fun c hc => ?_
  rw [hu] at hc
  have hcurrent := Cursor.current_of_upcoming hc
  have hahead := Cursor.ahead_of_upcoming hc
  simp [operand, bind_apply, kind_apply, isBefore_apply, hcurrent, hahead, named.1, hk]

/-! ## Operators -/

theorem reads_unary {sign : Token} {v : Tree} (hs : g.HasSigns)
    (operator : (g.operators.before? sign.kind).isSome) (value : Writable g .value v)
    (hv : Reads g p .value v) : Reads g p .value (of .unaryExpression [.token sign, v]) := by
  have hw : (of .unaryExpression [.token sign, v]).write p = sign :: v.writePart p := by
    calc
      _ = sign :: writeRow p none [v] := rfl
      _ = _ := by rw [writeRow_one]
  refine Reads.ofOperand hs (by rw [hw]; simp) fun {n f after} hf _ hn => ?_
  rw [hw] at hn ⊢
  rw [List.length_cons] at hn
  obtain ⟨o, ho⟩ := Option.isSome_iff_exists.1 operator
  have hvalue : Gives (expression g n o.precedence) (v.writePart p ++ f :: after) v (f :: after) :=
    hv.enclosed hs value hf (by omega)
  intro c hc
  have hcurrent := Cursor.current_of_upcoming hc
  have hsign : c.current.kind.isSign = true := hcurrent ▸ hs _ (.inr operator)
  have hread : Gives (expression g n o.precedence >>= fun x =>
      pure (of .unaryExpression [.token sign, x])) (v.writePart p ++ f :: after)
      (of .unaryExpression [.token sign, v]) (f :: after) := hvalue.bind gives_pure
  rw [operand_sign hsign, prefixed_some (hcurrent ▸ ho), hcurrent]
  exact hread c.next (Cursor.upcoming_next hc (by simp))

/-- An operator in front of an operand, behind another one. -/
theorem gives_between {value : Nat → Read Tree} {min n : Nat} {left right : Tree} {sign f : Token}
    {o : Operator} {us after : List Token} (hs : g.HasSigns)
    (ho : g.operators.between? sign.kind = some o) (hmin : min < o.precedence) (hus : us ≠ [])
    (hright : Gives (value o.rightPrecedence) us right (f :: after)) (hf : EndsOperand f.kind) :
    Gives (climb g value min (n + 2) left) (sign :: us)
      (of .binaryExpression [left, .token sign, right]) (f :: after) := by
  intro c hc
  have hcurrent := Cursor.current_of_upcoming hc
  have hsign := hs sign.kind (.inl (by simp [ho]))
  have hcast : atCast g c = false := by
    have : sign.kind ≠ .keyword .asWord := fun he => by simp [he, TokenKind.isSign] at hsign
    simp [atCast, hcurrent, this]
  obtain ⟨c', hr, hc'⟩ := hright c.next (Cursor.upcoming_next hc hus)
  refine ⟨c', ?_, hc'⟩
  have hclash : g.clash sign.kind c'.current.kind = false := by
    simp [Grammar.clash, Cursor.current_of_upcoming hc', hf.between? hs]
  rw [climb_between hcast (hcurrent ▸ ho) hmin, bind_apply, hr, hcurrent]
  simp only [hclash, Bool.false_eq_true, if_false]
  exact climb_blocked (hf.blocked hs hc' min)

/-- A cast behind its operand. -/
theorem gives_cast {value : Nat → Read Tree} {min n : Nat} {left type : Tree} {asWord word f : Token}
    {us after : List Token} (hs : g.HasSigns) (kind : asWord.kind = .keyword .asWord)
    (named : g.namesType word = true) (hmin : min < g.castPrecedence)
    (htype : Gives (types g (n + 1)) (word :: us) type (f :: after)) (hf : EndsOperand f.kind) :
    Gives (climb g value min (n + 2) left) (asWord :: word :: us)
      (of .cast [left, .token asWord, type]) (f :: after) := by
  intro c hc
  have hcurrent := Cursor.current_of_upcoming hc
  have hcast : atCast g c = true := by
    simp [atCast, hcurrent, kind, Cursor.ahead_of_upcoming hc, named]
  have hread : Gives (types g (n + 1) >>= fun type =>
      climb g value min (n + 1) (of .cast [left, .token asWord, type])) (word :: us)
      (of .cast [left, .token asWord, type]) (f :: after) := htype.bind (gives_climb hs hf)
  rw [climb_cast hcast hmin, hcurrent]
  exact hread c.next (Cursor.upcoming_next hc (by simp))

/-- What an operand in parentheses goes on with makes a value. -/
theorem Reads.ofClimb {left : Tree} {w : Token} {ws : List Token} (hleft : Writable g .value left)
    (ih : Reads g p .value left) (hw : t.write p = left.writePart p ++ w :: ws)
    (h : ∀ {n : Nat} {f : Token} {after : List Token}, EndsOperand f.kind → EndsName f.kind →
      ws.length < n →
      Gives (climb g (expression g (n + 2)) 0 (n + 2) left) (w :: (ws ++ f :: after)) t (f :: after)) :
    Reads g p .value t := by
  intro n f after hf hn
  rw [hw, hleft.writePart_value] at hn ⊢
  rw [List.length_append, length_inParens, List.length_cons] at hn
  obtain ⟨n, rfl⟩ : ∃ m, n = m + 3 := ⟨n - 3, by omega⟩
  obtain ⟨hends, hname, hcall, -⟩ := ends_of_closes hf
  refine gives_callOrValue hcall ?_
  rw [List.append_assoc, List.cons_append]
  have hoperand : Gives (operand g (expression g (n + 2)) (n + 2))
      (inParens p (left.write p) ++ w :: (ws ++ f :: after)) left (w :: (ws ++ f :: after)) :=
    gives_inParens fun hk => ih (.inr hk) (by omega)
  exact hoperand.bind (h hends hname (by omega))

theorem reads_binary {left right : Tree} {sign : Token} (hs : g.HasSigns) (hb : g.Binds)
    (first : Writable g .value left) (operator : (g.operators.between? sign.kind).isSome)
    (second : Writable g .value right) (hl : Reads g p .value left) (hr : Reads g p .value right) :
    Reads g p .value (of .binaryExpression [left, .token sign, right]) := by
  have hw : (of .binaryExpression [left, .token sign, right]).write p =
      left.writePart p ++ sign :: right.writePart p := by
    calc
      _ = writeRow p none [left, .token sign, right] := rfl
      _ = _ := by rw [writeRow_none, writeRow_token, writeRow_one]
  refine Reads.ofClimb first hl hw fun {n f after} hf _ hn => ?_
  obtain ⟨o, ho⟩ := Option.isSome_iff_exists.1 operator
  exact gives_between hs ho (hb.2 _ _ ho) (by simp) (hr.enclosed hs second hf (by omega)) hf

theorem reads_cast {v : Tree} {asWord word : Token} {parts : List Tree} (hs : g.HasSigns)
    (hb : g.Binds) (value : Writable g .value v) (hv : Reads g p .value v)
    (kind : asWord.kind = .keyword .asWord) (named : g.namesType word = true)
    (ht : Reads g p .types (of .types (.token word :: parts))) :
    Reads g p .value (of .cast [v, .token asWord, of .types (.token word :: parts)]) := by
  have hw : (of .cast [v, .token asWord, of .types (.token word :: parts)]).write p =
      v.writePart p ++ asWord :: (of .types (.token word :: parts)).writePart p := by
    calc
      _ = writeRow p none [v, .token asWord, of .types (.token word :: parts)] := rfl
      _ = _ := by rw [writeRow_none, writeRow_token, writeRow_one]
  refine Reads.ofClimb value hv hw fun {n f after} hf hname hn => ?_
  exact gives_cast hs kind named hb.1 (ht hname.2.1 (by omega)) hf

theorem reads_types {word : Token} {parts : List Tree} (named : g.isTypeWord word)
    (each : ∀ t ∈ parts, Writable g .types t) (ih : ∀ t ∈ parts, Reads g p .types t) :
    Reads g p .types (of .types (.token word :: parts)) := by
  have hw : (of .types (.token word :: parts)).writePart p =
      word :: inBrackets p (writeRow p (some .comma) parts) := rfl
  intro n f after hf hn
  rw [hw] at hn ⊢
  rw [List.length_cons] at hn
  obtain ⟨n, rfl⟩ : ∃ m, n = m + 1 := ⟨n - 1, by omega⟩
  rw [types]
  have hword {us : List Token} {x : Read Tree}
      (h : Gives x (word :: us) (of .types (.token word :: parts)) (f :: after)) :
      Gives (do
        if !((← isAt (.keyword .functionWord)) || (← isAtName g)) then unexpected g [.name]
        x) (word :: us) (of .types (.token word :: parts)) (f :: after) := by
    refine h.congr fun c hc => ?_
    have hcurrent := Cursor.current_of_upcoming hc
    obtain hk | ⟨hk, hr⟩ := named
    · simp [bind_apply, isAt_apply, isAtName_apply, hcurrent, hk]
    · simp [bind_apply, isAt_apply, isAtName_apply, hcurrent, hk, hr]
  cases parts with
  | nil =>
    exact hword ((gives_leaf (by simp)).bind (gives_ifAt (fun hk => absurd hk hf) fun _ => gives_pure))
  | cons t ts =>
    have node : ∀ u ∈ t :: ts, u.isNode = true := fun u hu => (each u hu).isNode
    have hbrackets : inBrackets p (writeRow p (some .comma) (t :: ts)) =
        Symbol.leftBracket.token p :: writeRow p (some .comma) (t :: ts) ++
          [Symbol.rightBracket.token p] := by
      obtain ⟨u, us, hu, -⟩ := (each t (by simp)).starts (p := p)
      simp [inBrackets, writeRow_cons, hu]
    have hlength := length_le_writeRow (p := p) (s := .comma) node
    rw [hbrackets] at hn ⊢
    simp only [List.length_cons, List.length_append, List.length_nil] at hn hlength
    have hitems : Gives (commaSeparated (types g n) n)
        (writeRow p (some .comma) (t :: ts) ++ Symbol.rightBracket.token p :: f :: after) (t :: ts)
        (Symbol.rightBracket.token p :: f :: after) := by
      refine gives_commaSeparated (by simp [Symbol.token]) node (fun u hu v vs hv => ?_)
        (by rw [List.length_cons]; omega) (by simp)
      have hpart : (u.writePart p).length ≤ (writeRow p (some .comma) (t :: ts)).length :=
        length_writePart_le hu
      refine ih u hu ?_ (by omega)
      obtain hv | hv := hv <;> simp [hv, Symbol.token]
    simp only [List.cons_append, List.append_assoc, List.nil_append]
    refine hword ((gives_leaf (by simp)).bind (gives_ifAt (fun _ => ?_) fun hk => absurd rfl hk))
    refine (gives_take (by simp)).bind (hitems.bind (gives_unlessAt rfl ?_))
    exact (gives_take (by simp)).bind gives_pure

/-! ## Calls -/

theorem reads_argument {name : Token} {v : Tree} (hs : g.HasSigns) (named : g.isFreeName name)
    (value : Writable g .value v) (hv : Reads g p .value v) :
    Reads g p .argument (of .argument [.token name, v]) := by
  have hw : (of .argument [.token name, v]).writePart p =
      name :: Symbol.colon.token p :: v.writePart p := by
    calc
      _ = name :: Symbol.colon.token p :: writeRow p none [v] := rfl
      _ = _ := by rw [writeRow_one]
  intro n hn k u us rest vs _ hu h
  rw [hw] at hn ⊢
  simp only [List.length_cons] at hn
  refine gives_ifAt (fun _ => ?_) fun hk => absurd named.1 hk
  refine (gives_expectName named (by simp)).bind ((gives_expect rfl (by simp)).bind ?_)
  refine (hv.enclosed hs value hu.1 (by omega)).bind (gives_ifAt (fun hk => absurd hk hu.2) fun _ => ?_)
  exact h.bind gives_pure

theorem gives_arguments {given : List Tree} {n k : Nat} {f : Token} {after : List Token}
    (each : ∀ t ∈ given, Writable g .argument t) (ih : ∀ t ∈ given, Reads g p .argument t)
    (hf : EndsCall f.kind) (hn : (writeRow p none given).length ≤ n)
    (hk : (writeRow p none given).length < k) :
    Gives (arguments g (expression g n) k) (writeRow p none given ++ f :: after)
      (of .arguments given) (f :: after) := by
  refine Gives.bind (gives_row (P := fun k => EndsOperand k ∧ k ≠ .symbol .comma) ⟨hf.1, hf.2.1⟩
    (fun k => ?_) (fun t ht => ?_) (fun t ht => ?_) hk) gives_pure
  · exact gives_ifAt (fun hk => absurd hk hf.2.2) fun _ => gives_pure
  · obtain ⟨u, us, hu, hname⟩ := (each t ht).starts (p := p)
    exact ⟨u, us, hu, by rw [hname]; decide⟩
  · have hpart : (t.writePart p).length ≤ (writeRow p none given).length := length_writePart_le ht
    exact ih t ht (by omega)

theorem reads_functionCall {name opening closing : Token} {given : List Tree} (hs : g.HasSigns)
    (named : g.isFreeName name) (opens : opening.kind = .symbol .leftParen)
    (each : ∀ t ∈ given, Writable g .argument t) (closes : closing.kind = .symbol .rightParen)
    (ih : ∀ t ∈ given, Reads g p .argument t) :
    Reads g p .value
      (of .functionCall [.token name, .token opening, of .arguments given, .token closing]) := by
  have hw : (of .functionCall [.token name, .token opening, of .arguments given, .token closing]).write p =
      name :: opening :: (writeRow p none given ++ [closing]) := by
    calc
      _ = name :: opening :: writeRow p none [of .arguments given, .token closing] := rfl
      _ = _ := by rw [writeRow_none, writeRow_one]; rfl
  refine Reads.ofOperand hs (by rw [hw]; simp) fun {n f after} _ _ hn => ?_
  rw [hw] at hn ⊢
  simp only [List.length_cons, List.length_append] at hn
  have hgiven : Gives (arguments g (expression g n) n) (writeRow p none given ++ closing :: f :: after)
      (of .arguments given) (closing :: f :: after) :=
    gives_arguments each ih (by rw [closes]; decide) (by omega) (by omega)
  have hread : Gives (functionCall g (expression g n) n)
      (name :: opening :: (writeRow p none given ++ closing :: f :: after))
      (of .functionCall [.token name, .token opening, of .arguments given, .token closing])
      (f :: after) := by
    refine (gives_expectName named (by simp)).bind ((gives_expect opens (by simp)).bind ?_)
    exact hgiven.bind (gives_unlessAt closes ((gives_leaf (by simp)).bind gives_pure))
  simp only [List.cons_append, List.append_assoc, List.nil_append]
  refine hread.congr fun c hc => ?_
  have hcurrent := Cursor.current_of_upcoming hc
  have hahead := Cursor.ahead_of_upcoming hc
  simp [operand, bind_apply, kind_apply, isBefore_apply, hcurrent, hahead, named.1, opens]

theorem reads_link {word name : Token} {given : List Tree} (kind : word.kind = .keyword .thenWord)
    (named : g.isFreeName name) (each : ∀ t ∈ given, Writable g .argument t)
    (ih : ∀ t ∈ given, Reads g p .argument t) :
    Reads g p .link (of .mutationFragment [.token word, .token name, of .arguments given]) := by
  have hw : (of .mutationFragment [.token word, .token name, of .arguments given]).writePart p =
      word :: name :: writeRow p none given := by
    calc
      _ = word :: name :: writeRow p none [of .arguments given] := rfl
      _ = _ := by rw [writeRow_one]; rfl
  intro n hn k u us rest vs hk hu h
  rw [hw] at hn hk ⊢
  simp only [List.length_cons] at hn hk
  refine gives_ifAt (fun _ => ?_) fun hk => absurd kind hk
  refine (gives_leaf (by simp)).bind ((gives_expectName named (by simp)).bind ?_)
  exact (gives_arguments each ih hu (by omega) (by omega)).bind (h.bind gives_pure)

theorem gives_links {further : List Tree} {n k : Nat} {f : Token} {after : List Token}
    (each : ∀ t ∈ further, Writable g .link t) (ih : ∀ t ∈ further, Reads g p .link t)
    (hf : EndsCall f.kind) (hthen : f.kind ≠ .keyword .thenWord)
    (hn : (writeRow p none further).length ≤ n) (hk : (writeRow p none further).length < k) :
    Gives (links g (expression g n) k) (writeRow p none further ++ f :: after) further (f :: after) := by
  refine gives_row (P := EndsCall) hf (fun k => ?_) (fun t ht => ?_) (fun t ht => ?_) hk
  · exact gives_ifAt (fun hk => absurd hk hthen) fun _ => gives_pure
  · obtain ⟨u, us, hu, hword⟩ := (each t ht).starts (p := p)
    exact ⟨u, us, hu, by rw [hword]; decide⟩
  · have hpart : (t.writePart p).length ≤ (writeRow p none further).length := length_writePart_le ht
    exact ih t ht (by omega)

theorem reads_serviceCall {service : Tree} {command : Token} {given : List Tree} (hs : g.HasSigns)
    (path : Writable g .path service) (named : g.isFreeName command)
    (each : ∀ t ∈ given, Writable g .argument t) (hp : Reads g p .path service)
    (ih : ∀ t ∈ given, Reads g p .argument t) :
    Reads g p .value (of .serviceCall [service, .token command, of .arguments given]) := by
  have hw : (of .serviceCall [service, .token command, of .arguments given]).write p =
      service.write p ++ command :: writeRow p none given := by
    calc
      _ = service.write p ++ command :: writeRow p none [of .arguments given] := rfl
      _ = _ := by rw [writeRow_one]; rfl
  intro n f after hf hn
  rw [hw] at hn ⊢
  rw [List.length_append, List.length_cons] at hn
  obtain ⟨hends, -, hcall, hthen⟩ := ends_of_closes hf
  have hpos : 0 < (service.write p).length := by
    cases path
    exact Nat.succ_pos _
  obtain ⟨n, rfl⟩ : ∃ m, n = m + 2 := ⟨n - 2, by omega⟩
  have hservice : Gives (expression g (n + 2) 0)
      (service.write p ++ command :: (writeRow p none given ++ f :: after)) service
      (command :: (writeRow p none given ++ f :: after)) :=
    gives_expression hs (by rw [named.1]; decide) (hp (by simp [named.1, EndsName]) (by omega))
  have htail : Gives (serviceTail g (expression g (n + 2)) (n + 2) service)
      (command :: (writeRow p none given ++ f :: after))
      (of .serviceCall [service, .token command, of .arguments given]) (f :: after) := by
    have hcomma : f.kind ≠ .symbol .comma := by obtain hf | hf := hf <;> simp [hf]
    refine (gives_expectName named (by simp)).bind ?_
    refine (gives_arguments each ih ⟨hends, hcomma, hcall⟩ (by omega) (by omega)).bind ?_
    refine gives_ifAt (fun hk => absurd hk hthen) fun _ => ?_
    exact gives_ifAt (fun hk => absurd hk hends.2) fun _ => gives_pure
  rw [List.append_assoc, List.cons_append]
  refine hservice.bind (gives_ifAt (fun _ => ?_) fun hk => absurd named.1 hk)
  rw [if_pos path.isA_path]
  exact htail

theorem reads_mutation {subject : Tree} {name : Token} {given further : List Tree} (hs : g.HasSigns)
    (value : Writable g .value subject) (named : g.isFreeName name)
    (each : ∀ t ∈ given, Writable g .argument t) (chained : ∀ t ∈ further, Writable g .link t)
    (told : subject.isA .path = false ∨ further ≠ []) (hv : Reads g p .value subject)
    (ih : ∀ t ∈ given, Reads g p .argument t) (ih' : ∀ t ∈ further, Reads g p .link t) :
    Reads g p .value (of .mutation
      (subject :: of .mutationFragment [.token name, of .arguments given] :: further)) := by
  have hw : (of .mutation (subject :: of .mutationFragment [.token name, of .arguments given] ::
      further)).write p =
        subject.writePart p ++ name :: (writeRow p none given ++ writeRow p none further) := by
    have hfirst : (of .mutationFragment [.token name, of .arguments given]).writePart p =
        name :: writeRow p none given := by
      calc
        _ = name :: writeRow p none [of .arguments given] := rfl
        _ = _ := by rw [writeRow_one]; rfl
    calc
      _ = writeRow p none (subject :: of .mutationFragment [.token name, of .arguments given] ::
          further) := rfl
      _ = _ := by rw [writeRow_none, writeRow_none, hfirst, List.cons_append]
  intro n f after hf hn
  rw [hw] at hn ⊢
  rw [List.length_append, List.length_cons, List.length_append] at hn
  obtain ⟨hends, -, hcall, hthen⟩ := ends_of_closes hf
  have hcomma : f.kind ≠ .symbol .comma := by obtain hf | hf := hf <;> simp [hf]
  simp only [List.append_assoc, List.cons_append]
  -- the first link ends where the next one starts, or the value
  obtain ⟨u, us, hu, hk, hthen'⟩ : ∃ u us, writeRow p none further ++ f :: after = u :: us ∧
      EndsCall u.kind ∧ (further ≠ [] → u.kind = .keyword .thenWord) := by
    cases further with
    | nil => exact ⟨f, after, rfl, ⟨hends, hcomma, hcall⟩, fun h => absurd rfl h⟩
    | cons t ts =>
      obtain ⟨u, us, hu, hword⟩ := (chained t (by simp)).starts (p := p)
      refine ⟨u, us ++ (writeRow p none ts ++ f :: after), by simp [writeRow_none, hu], ?_,
        fun _ => hword⟩
      rw [hword]
      decide
  have hlinks : Gives (links g (expression g n) n) (u :: us) further (f :: after) :=
    hu ▸ gives_links chained ih' ⟨hends, hcomma, hcall⟩ hthen (by omega) (by omega)
  have hgiven : Gives (arguments g (expression g n) n) (writeRow p none given ++ u :: us)
      (of .arguments given) (u :: us) := gives_arguments each ih hk (by omega) (by omega)
  rw [hu]
  refine (hv.enclosed hs value (by rw [named.1]; decide) (by omega)).bind ?_
  refine gives_ifAt (fun _ => ?_) fun hk => absurd named.1 hk
  cases hpath : subject.isA .path with
  | true =>
    have hmore : further ≠ [] := told.resolve_left (by simp [hpath])
    refine (gives_expectName named (by simp)).bind (hgiven.bind ?_)
    exact gives_ifAt (fun _ => hlinks.bind gives_pure) fun hk => absurd (hthen' hmore) hk
  | false =>
    exact (gives_expectName named (by simp)).bind (hgiven.bind (hlinks.bind gives_pure))

/-- Every piece is read from what is written for it. -/
theorem Writable.reads {piece : Piece} (hs : g.HasSigns) (hb : g.Binds) (h : Writable g piece t) :
    Reads g p piece t := by
  induction h with
  | number kind =>
    obtain kind | kind := kind <;>
      exact reads_literal hs (by simp [Grammar.isOperand, kind])
        (by simp [OperatorTree.operandNode, kind]) rfl
  | string kind =>
    exact reads_literal hs (by simp [Grammar.isOperand, kind])
      (by simp [OperatorTree.operandNode, kind]) rfl
  | boolean kind =>
    obtain kind | kind := kind <;>
      exact reads_literal hs (by simp [Grammar.isOperand, kind])
        (by simp [OperatorTree.operandNode, kind]) rfl
  | null kind =>
    exact reads_literal hs (by simp [Grammar.isOperand, kind])
      (by simp [OperatorTree.operandNode, kind]) rfl
  | @ofPath t path ih =>
    refine Reads.ofOperand hs ?_ fun _ hname hn => ih hname hn
    cases path
    exact List.cons_ne_nil _ _
  | path named each ih => exact reads_path named each ih
  | field kind named => exact reads_field kind named
  | index opens value closes ih => exact reads_index hs opens closes value ih
  | list opens each closes ih => exact reads_list hs opens closes each ih
  | map opens each closes ih => exact reads_map hs opens closes each ih
  | entry keyed value ih ih' => exact reads_entry hs keyed ih value ih'
  | unary operator operand ih => exact reads_unary hs operator operand ih
  | binary first operator second ih ih' => exact reads_binary hs hb first operator second ih ih'
  | cast value kind named types ih ih' => exact reads_cast hs hb value ih kind named ih'
  | types named each ih => exact reads_types named each ih
  | functionCall named opens each closes ih => exact reads_functionCall hs named opens each closes ih
  | argument named value ih => exact reads_argument hs named value ih
  | serviceCall path named each ih ih' => exact reads_serviceCall hs path named each ih ih'
  | mutation value named each chained told ih ih' ih'' =>
    exact reads_mutation hs value named each chained told ih ih' ih''
  | link kind named each ih => exact reads_link kind named each ih

/-- **Every value can be written.** What is written for a value, up to the end of a story, is read
as that value. -/
theorem ofFragment_write {eof : Token} (h : Writable .builtIn .value t) (ends : eof.kind = .eof) :
    ofFragment .builtIn (t.write p ++ [eof]) = .ok t := by
  have hs : Grammar.builtIn.HasSigns :=
    Grammar.Accepted.builtIn.hasSigns (by simp [Grammar.SignsOnly, Grammar.builtIn])
  let start : Cursor := .start (t.write p ++ [eof])
  have hstart : start.upcoming = t.write p ++ [eof] := by
    rw [Cursor.upcoming_start, Cursor.missingEnd]
    simp [ends]
  have hn : (t.write p).length < bound (t.write p ++ [eof]) := by
    rw [bound, List.length_append]
    omega
  obtain ⟨c, hread, hc⟩ := h.reads hs Grammar.Accepted.builtIn.binds (.inl ends) hn start hstart
  have hcurrent := Cursor.current_of_upcoming hc
  have hvalue : anyValue .builtIn (bound (t.write p ++ [eof])) start = .ok (t, c) := hread
  have hfragment : fragment .builtIn (bound (t.write p ++ [eof])) start = .ok (t, c) := by
    rw [fragment, bind_apply, hvalue]
    simp [bind_apply, isAt_apply, hcurrent, ends, pure_apply]
  rw [ofFragment, hfragment]
  rfl

/-- The theorem for a chain of mutations of a sum of two calls, in the arguments of which there
are a cast, a map, a list and an operator before its operand. -/
theorem ofFragment_write_mutation :
    let token (k : TokenKind) (literal : String) : Token := ⟨k, literal, .first⟩
    let name (literal : String) : Tree := .token (token .name literal)
    let symbol (s : Symbol) : Tree := .token (s.token .first)
    let word (k : Keyword) : Tree := .token (token (.keyword k) k.name)
    let argument (literal : String) (v : Tree) : Tree := of .argument [name literal, v]
    let one := of .number [.token (token .int "1")]
    let items := of .list
      [symbol .leftBracket, one, of .boolean [word .trueWord], symbol .rightBracket]
    let map := of .map [symbol .leftBrace,
      of .mapItem [of .string [.token (token .string "k")], items], symbol .rightBrace]
    let type := of .types [name "map", of .types [name "string"], of .types [name "any"]]
    let call := of .functionCall [name "f", symbol .leftParen,
      of .arguments [argument "a" (of .cast [map, word .asWord, type])], symbol .rightParen]
    let path := of .path [name "x", of .pathFragment [symbol .dot, name "b"],
      of .pathFragment [symbol .leftBracket, one, symbol .rightBracket]]
    let service := of .serviceCall [path, name "fetch",
      of .arguments [argument "url" (of .unaryExpression [word .notWord, of .null [word .nullWord]])]]
    let t := of .mutation [of .binaryExpression [call, symbol .plus, service],
      of .mutationFragment [name "length", of .arguments []],
      of .mutationFragment [word .thenWord, name "print",
        of .arguments [argument "to" (of .path [name "x"])]]]
    let eof := token .eof ""
    Writable .builtIn .value t ∧ eof.kind = .eof ∧
      ofFragment .builtIn (t.write .first ++ [eof]) = .ok t := by
  intro token name symbol word argument one items map type call path service t eof
  have hone : Writable .builtIn .value one := .number (.inl rfl)
  have hitems : Writable .builtIn .value items := by
    refine @Writable.list .builtIn _ [one, _] _ rfl ?_ rfl
    exact List.forall_mem_cons.2 ⟨hone, List.forall_mem_singleton.2 (.boolean (.inl rfl))⟩
  have hmap : Writable .builtIn .value map := by
    refine @Writable.map .builtIn _ [_] _ rfl ?_ rfl
    exact List.forall_mem_singleton.2 (.entry (.string rfl) hitems)
  have htype : Writable .builtIn .types type := by
    refine .types (.inr ⟨rfl, by decide⟩) (List.forall_mem_cons.2 ⟨?_, List.forall_mem_singleton.2 ?_⟩)
    · exact .types (.inr ⟨rfl, by decide⟩) (by simp)
    · exact .types (.inr ⟨rfl, by decide⟩) (by simp)
  have hcall : Writable .builtIn .value call := by
    refine .functionCall ⟨rfl, by decide⟩ rfl (List.forall_mem_singleton.2 ?_) rfl
    exact .argument ⟨rfl, by decide⟩ (.cast hmap rfl (by decide) htype)
  have hpath : Writable .builtIn .path path := by
    refine .path ⟨rfl, by decide⟩ (List.forall_mem_cons.2 ⟨?_, List.forall_mem_singleton.2 ?_⟩)
    · exact .field rfl ⟨rfl, by decide⟩
    · exact .index rfl hone rfl
  have hservice : Writable .builtIn .value service := by
    refine .serviceCall hpath ⟨rfl, by decide⟩ (List.forall_mem_singleton.2 ?_)
    exact .argument ⟨rfl, by decide⟩ (.unary (by decide) (.null rfl))
  have hlink : Writable .builtIn .link (of .mutationFragment [word .thenWord, name "print",
      of .arguments [argument "to" (of .path [name "x"])]]) := by
    refine .link rfl ⟨rfl, by decide⟩ (List.forall_mem_singleton.2 ?_)
    exact .argument ⟨rfl, by decide⟩ (.ofPath (.path ⟨rfl, by decide⟩ (by simp)))
  have ht : Writable .builtIn .value t :=
    .mutation (.binary hcall (by decide) hservice) ⟨rfl, by decide⟩ (by simp)
      (List.forall_mem_singleton.2 hlink) (.inl rfl)
  exact ⟨ht, rfl, ofFragment_write ht rfl⟩

end Tree

end StoryLang
