/-
The same text in another place.

Two scanners in front of the same text, in places that are related, make the
same moves, and their places stay related. The widths of the open indentations
may differ too, as long as they are in the same order: a width is only ever
compared with others. What was read before does not matter, only what is added
to it, which has related places.
-/
import Mathlib.Data.List.Forall2
import Mathlib.Order.Monotone.Basic
import StoryLang.Proofs.Token.Moves

namespace StoryLang

/-- A relation between places that the same characters lead to again. -/
def Position.Carried (P : Position → Position → Prop) : Prop :=
  ∀ p p' c, P p p' → P (p.after c) (p'.after c)

/-- The same token, at a related place. -/
structure Token.Relocated (Q : Position → Position → Prop) (t t' : Token) : Prop where
  kind : t'.kind = t.kind
  literal : t'.literal = t.literal
  position : Q t.position t'.position

/-- Two lists that got related entries in front of what they were. -/
inductive Grown {α : Type} (R : α → α → Prop) (old old' : List α) : List α → List α → Prop where
  | old : Grown R old old' old old'
  | cons {a a' : α} {l l' : List α} (related : R a a') (others : Grown R old old' l l') :
    Grown R old old' (a :: l) (a' :: l')

theorem Grown.exists {α : Type} {R : α → α → Prop} {old old' l l' : List α} (h : Grown R old old' l l') :
    ∃ new new', l = new ++ old ∧ l' = new' ++ old' ∧ List.Forall₂ R new new' := by
  induction h with
  | old => exact ⟨[], [], rfl, rfl, .nil⟩
  | cons related _ ih =>
    obtain ⟨new, new', rfl, rfl, h⟩ := ih
    exact ⟨_ :: new, _ :: new', rfl, rfl, .cons related h⟩

variable {P Q : Position → Position → Prop}

/-! ## Places -/

/-- Two places of the same text. -/
structure Spot.Relocated (P : Position → Position → Prop) (z z' : Spot) : Prop where
  rest : z'.rest = z.rest
  place : P z.place z'.place
  before : z'.before.any Grammar.isWordChar = z.before.any Grammar.isWordChar

namespace Spot.Relocated

variable {z z' : Spot}

theorem next (hP : Position.Carried P) (h : z.Relocated P z') : z.next.Relocated P z'.next := by
  unfold Spot.next
  rw [h.rest]
  split
  · exact h
  · exact ⟨rfl, hP _ _ _ h.place, rfl⟩

theorem past (hP : Position.Carried P) (h : z.Relocated P z') (taken : List Char) :
    (z.past taken).Relocated P (z'.past taken) := by
  induction taken generalizing z z' with
  | nil => exact h
  | cons c taken ih => exact ih (h.next hP)

theorem pastWhile (hP : Position.Carried P) (h : z.Relocated P z') (p : Char → Bool) :
    (z.pastWhile p).Relocated P (z'.pastWhile p) := by
  unfold Spot.pastWhile
  rw [h.rest]
  exact h.past hP _

theorem pastComment (hP : Position.Carried P) (h : z.Relocated P z') :
    Option.Rel (Spot.Relocated P) z.pastComment? z'.pastComment? := by
  have hinside := (h.next hP).next hP
  unfold Spot.pastComment?
  dsimp only
  rw [hinside.rest]
  cases Spot.commentText? z.next.next.rest with
  | none => exact .none
  | some inside => exact .some (hinside.past hP inside)

end Spot.Relocated

/-! ## Strings -/

namespace Quotes

/-- Both stand in text, or as deep in code that was opened at related places. -/
inductive Inside.Relocated (P : Position → Position → Prop) : Inside → Inside → Prop where
  | text : Relocated P .text .text
  | code {p p' : Position} (opened : P p p') (depth : Nat) (quoted : Bool) :
    Relocated P (.code p depth quoted) (.code p' depth quoted)

variable {quote : Char} {i i' : Inside} {p p' opened opened' : Position}

theorem relocated_afterCode (h : P opened opened') (c : Char) (depth : Nat) (quoted : Bool) :
    (afterCode quote c opened depth quoted).Relocated P (afterCode quote c opened' depth quoted) := by
  unfold afterCode
  split
  · exact .code h _ _
  split
  · exact .code h _ _
  split
  · exact .code h _ _
  split
  · split
    · exact .text
    · exact .text
    · exact .code h _ _
  · exact .code h _ _

/-- A string has the same text wherever it is, or is open for the same reason. -/
theorem body_relocated (hP : Position.Carried P) (hi : i.Relocated P i') (hp : P p p') (cs : List Char) :
    EndAlike (Option.Rel P) Eq (body quote i p cs) (body quote i' p' cs) := by
  fun_induction body quote i p cs generalizing i' p'
  case case7 p d ds hd hn hq ih =>
    cases hi
    rw [body.eq_def quote .text p']
    simp only [hn, hq, hd, if_false, if_true]
    exact (ih .text (hP _ _ _ (hP _ _ _ hp))).map fun _ _ he => he ▸ rfl
  case case8 p c cs hn hq hb inside ih =>
    cases hi
    rw [body.eq_def quote .text p']
    simp only [hn, hq, hb, if_false]
    refine (ih ?_ (hP _ _ _ hp)).map fun _ _ he => he ▸ rfl
    unfold inside
    split
    · exact .code hp _ _
    · exact .text
  case case12 hn hb d ds hd ih =>
    cases hi
    rename_i opened' h
    obtain ⟨rfl, rfl⟩ := hb
    rw [body.eq_def quote (.code opened' _ _) p']
    simp only [hn, hd, if_false, if_true, and_self]
    exact (ih (.code h _ _) (hP _ _ _ (hP _ _ _ hp))).map fun _ _ he => he ▸ rfl
  case case13 hn hb ih =>
    cases hi
    rename_i opened' h
    rw [body.eq_def quote (.code opened' _ _) p']
    simp only [hn, hb, if_false]
    exact (ih (relocated_afterCode h _ _ _) (hP _ _ _ hp)).map fun _ _ he => he ▸ rfl
  -- the string ends here, or its line or the text does
  all_goals
    cases hi
    rw [body.eq_def quote _ p']
    simp [*]
    first | exact .ok rfl | exact .error .none | exact .error (.some ‹_›)

end Quotes

/-! ## States -/

namespace Scan

/-- The same fault at a related place, and related comments before it. -/
structure Stop.Relocated (P Q : Position → Position → Prop) (o o' : State) (e e' : Stop) : Prop where
  cause : e'.fault.cause = e.fault.cause
  position : P e.fault.position e'.fault.position
  hashComments : Grown Q o.hashComments o'.hashComments e.hashComments e'.hashComments

namespace State

/-- Two scanners in front of the same text that have read the same since `o` and `o'`. -/
structure Relocated (P Q : Position → Position → Prop) (f : Nat → Nat) (o o' s s' : State) : Prop where
  spot : s.spot.Relocated P s'.spot
  indents : s'.indents = s.indents.map f
  brackets : s'.brackets = s.brackets
  atLineStart : s'.atLineStart = s.atLineStart
  tokens : Grown (Token.Relocated Q) o.tokens o'.tokens s.tokens s'.tokens
  hashComments : Grown Q o.hashComments o'.hashComments s.hashComments s'.hashComments

variable {f : Nat → Nat} {o o' s s' : State} {m : ScanMode} {c : Char} {rest : List Char}

/-- Both stop with the same fault, or both go on from such states. -/
abbrev StayRelocated (P Q : Position → Position → Prop) (f : Nat → Nat) (o o' : State)
    (x x' : Except Stop State) : Prop :=
  EndAlike (Stop.Relocated P Q o o') (Relocated P Q f o o') x x'

/-- Both stop with the same fault, or both go on from such states in the same phase. -/
abbrev MoveRelocated (P Q : Position → Position → Prop) (f : Nat → Nat) (o o' : State)
    (x x' : Moved) : Prop :=
  EndAlike (Stop.Relocated P Q o o') (fun r r' => Relocated P Q f o o' r.1 r'.1 ∧ r'.2 = r.2) x x'

namespace Relocated

theorem moveTo (h : Relocated P Q f o o' s s') {z z' : Spot} (hz : z.Relocated P z') :
    Relocated P Q f o o' (s.moveTo z) (s'.moveTo z') :=
  ⟨hz, h.indents, h.brackets, h.atLineStart, h.tokens, h.hashComments⟩

theorem stop (h : Relocated P Q f o o' s s') {place place' : Position} (hp : P place place') {α : Type}
    {A : α → α → Prop} (cause : LexFault.Cause) :
    EndAlike (Stop.Relocated P Q o o') A (s.stop cause place) (s'.stop cause place') :=
  .error ⟨rfl, hp, h.hashComments⟩

section Carried

variable (hP : Position.Carried P)
include hP

theorem pastGap (h : Relocated P Q f o o' s s') :
    Relocated P Q f o o' (s.moveTo s.spot.pastGap) (s'.moveTo s'.spot.pastGap) :=
  h.moveTo (h.spot.pastWhile hP _)

theorem pastComment (h : Relocated P Q f o o' s s') : StayRelocated P Q f o o' s.pastComment s'.pastComment := by
  have hspot := h.spot.pastComment hP
  unfold State.pastComment
  revert hspot
  generalize s.spot.pastComment? = z, s'.spot.pastComment? = z'
  rintro (hz | _)
  · exact .ok (h.moveTo hz)
  · exact h.stop h.spot.place _

section Reading

variable (hQ : Q s.spot.place s'.spot.place)
include hQ

theorem pastHash (h : Relocated P Q f o o' s s') : Relocated P Q f o o' s.pastHash s'.pastHash :=
  ⟨h.spot.pastWhile hP _, h.indents, h.brackets, h.atLineStart, h.tokens, .cons hQ h.hashComments⟩

theorem push (h : Relocated P Q f o o' s s') (kind : TokenKind) (taken : List Char) :
    Relocated P Q f o o' (s.push kind taken) (s'.push kind taken) :=
  ⟨h.spot.past hP _, h.indents, h.brackets, h.atLineStart, .cons ⟨rfl, rfl, hQ⟩ h.tokens,
    h.hashComments⟩

theorem readString (h : Relocated P Q f o o' s s') (quote : Char) :
    StayRelocated P Q f o o' (s.readString quote) (s'.readString quote) := by
  have hinside := h.spot.next hP
  have hbody : EndAlike (Option.Rel P) Eq (Quotes.body quote .text s.spot.next.place s.spot.next.rest)
      (Quotes.body quote .text s'.spot.next.place s.spot.next.rest) :=
    Quotes.body_relocated hP .text hinside.place _
  unfold State.readString
  dsimp only
  rw [hinside.rest, h.spot.before]
  revert hbody
  generalize Quotes.body quote .text s.spot.next.place s.spot.next.rest = x,
    Quotes.body quote .text s'.spot.next.place s.spot.next.rest = x'
  rintro (hu | rfl)
  · rcases hu with hu | _
    · exact h.stop hu _
    · exact h.stop h.spot.place _
  · refine .ok ⟨(hinside.past hP _).next hP, h.indents, h.brackets, h.atLineStart,
      .cons ⟨rfl, rfl, hQ⟩ h.tokens, h.hashComments⟩

theorem readName (h : Relocated P Q f o o' s s') (g : Grammar) :
    Relocated P Q f o o' (s.readName g) (s'.readName g) := by
  unfold State.readName
  rw [h.spot.rest]
  exact h.push hP hQ _ _

theorem readNumber (h : Relocated P Q f o o' s s') : StayRelocated P Q f o o' s.readNumber s'.readNumber := by
  rw [readNumber_eq, readNumber_eq, h.spot.rest]
  split
  · exact .ok (h.push hP hQ _ _)
  · unfold readNumber.intToken
    split
    · exact .ok (h.push hP hQ _ _)
    · exact h.stop h.spot.place _

theorem readSymbol (h : Relocated P Q f o o' s s') (c : Char) (rest : List Char) :
    StayRelocated P Q f o o' (s.readSymbol c rest) (s'.readSymbol c rest) := by
  unfold State.readSymbol
  split
  · exact .ok (h.push hP hQ _ _)
  · split
    · rename_i symbol _
      have hpush := h.push hP hQ (.symbol symbol) [c]
      rw [h.brackets]
      exact .ok ⟨hpush.spot, h.indents, rfl, h.atLineStart, hpush.tokens, h.hashComments⟩
    · exact h.stop h.spot.place _

theorem readNext (h : Relocated P Q f o o' s s') (c : Char) (rest : List Char) :
    StayRelocated P Q f o o' (s.readNext m c rest) (s'.readNext m c rest) := by
  unfold State.readNext
  rw [h.brackets]
  split
  · split
    · have hpush := h.push hP hQ .newline ['\n']
      exact .ok ⟨hpush.spot, h.indents, h.brackets, rfl, hpush.tokens, h.hashComments⟩
    · exact .ok (h.moveTo (h.spot.next hP))
  split
  · exact .ok (h.moveTo (h.spot.pastWhile hP _))
  split
  · exact h.pastComment hP
  split
  · exact .ok (h.pastHash hP hQ)
  split
  · exact h.readString hP hQ _
  split
  · exact h.readString hP hQ _
  split
  · exact .ok (h.readName hP hQ _)
  split
  · exact h.readNumber hP hQ
  · exact h.readSymbol hP hQ _ _

theorem readOn (h : Relocated P Q f o o' s s') :
    MoveRelocated P Q f o o' (s.readOn m) (s'.readOn m) := by
  unfold State.readOn
  rw [h.spot.rest]
  split
  · exact .ok ⟨h, rfl⟩
  · refine (h.readNext hP hQ _ _).map fun t t' ht => ⟨ht, ?_⟩
    rw [phase, phase, ht.atLineStart]

end Reading

end Carried

/-! ## Indentations -/

section Widths

variable (hf : StrictMono f) (hf0 : f 0 = 0)
include hf

theorem closeWider (hQ : Q s.spot.place s'.spot.place) (w : Nat) (indents : List Nat)
    {old old' ts ts' : List Token} (h : Grown (Token.Relocated Q) old old' ts ts') :
    (State.closeWider (f w) s'.spot.place (indents.map f) ts').1 =
        (State.closeWider w s.spot.place indents ts).1.map f ∧
      Grown (Token.Relocated Q) old old' (State.closeWider w s.spot.place indents ts).2
        (State.closeWider (f w) s'.spot.place (indents.map f) ts').2 := by
  induction indents generalizing ts ts' with
  | nil => exact ⟨rfl, h⟩
  | cons top indents ih =>
    unfold State.closeWider
    simp only [List.map_cons, hf.lt_iff_lt]
    split
    · exact ih (.cons ⟨rfl, rfl, hQ⟩ h)
    · exact ⟨rfl, h⟩

include hf0

omit hf in
theorem headD_map (indents : List Nat) : (indents.map f).headD 0 = f (indents.headD 0) := by
  cases indents with
  | nil => exact hf0.symm
  | cons => rfl

theorem indentTo (h : Relocated P Q f o o' s s') (hQ : Q s.spot.place s'.spot.place) (w : Nat) :
    StayRelocated P Q f o o' (s.indentTo w) (s'.indentTo (f w)) := by
  obtain ⟨hindents, htokens⟩ := closeWider hf hQ w s.indents h.tokens
  unfold State.indentTo
  dsimp only
  rw [h.indents, headD_map hf0, hindents, headD_map hf0]
  simp only [hf.lt_iff_lt, hf.injective.eq_iff]
  split
  · exact .ok ⟨h.spot, rfl, h.brackets, rfl, .cons ⟨rfl, rfl, hQ⟩ h.tokens, h.hashComments⟩
  split
  · exact .ok ⟨h.spot, rfl, h.brackets, rfl, htokens, h.hashComments⟩
  · exact h.stop h.spot.place _

/-- Both do the same behind their blanks, if code has the same width in both places. -/
theorem act (hP : Position.Carried P) (h : Relocated P Q f o o' s s')
    (hQ : Q s.spot.place s'.spot.place) {p : Phase} {w w' : Nat}
    (hw : p ≠ .inLine → lead s.spot.rest = .code → w' = f w) :
    MoveRelocated P Q f o o' (s.act m p w) (s'.act m p w') := by
  unfold State.act
  rw [h.spot.rest]
  split
  · exact h.readOn hP hQ
  rename_i hp
  cases hl : lead s.spot.rest
  · exact .ok ⟨h, rfl⟩
  · exact .ok ⟨h.moveTo (h.spot.next hP), rfl⟩
  · exact .ok ⟨h.pastHash hP hQ, rfl⟩
  · exact .ok ⟨h.moveTo (h.spot.pastWhile hP _), rfl⟩
  · exact (h.pastComment hP).map fun t t' ht => ⟨ht, rfl⟩
  · have hindent := h.indentTo hf hf0 hQ w
    dsimp only
    rw [hw hp hl]
    generalize hu : s.indentTo w = x, hu' : s'.indentTo (f w) = x' at hindent
    cases hindent with
    | error reasons => exact .error reasons
    | ok ht =>
      refine ht.readOn hP ?_
      rw [(adds_indentTo hu).2, (adds_indentTo hu').2]
      exact hQ

theorem move (hP : Position.Carried P) (h : Relocated P Q f o o' s s')
    (hQ : Q s.spot.pastGap.place s'.spot.pastGap.place) {p : Phase}
    (hw : p ≠ .inLine → lead s.spot.pastGap.rest = .code → s'.indentation p = f (s.indentation p)) :
    MoveRelocated P Q f o o' (s.move m p) (s'.move m p) :=
  (h.pastGap hP).act hf hf0 hP hQ hw

end Widths

/-! ## The end of the text -/

/-- What the end of the text adds behind a token of a kind, with so many indentations open. -/
def ending (last : Option TokenKind) (opened : Nat) (p : Position) : List Token :=
  (if last = none ∨ last = some .newline then [] else [⟨.newline, "\n", p⟩]) ++
    List.replicate opened ⟨.dedent, "", p⟩ ++ [⟨.eof, "", p⟩]

theorem finish_ending (s : State) : s.finish =
    s.tokens.reverse ++ ending (s.tokens.head?.map Token.kind) s.indents.length s.spot.place := by
  unfold State.finish ending
  cases s.tokens with
  | nil => simp
  | cons t ts => simp

theorem ending_relocated {p p' : Position} (hp : Q p p') (last : Option TokenKind) (opened : Nat) :
    List.Forall₂ (Token.Relocated Q) (ending last opened p) (ending last opened p') := by
  have hlayout (kind : TokenKind) (literal : String) :
      Token.Relocated Q ⟨kind, literal, p⟩ ⟨kind, literal, p'⟩ := ⟨rfl, rfl, hp⟩
  refine List.rel_append (List.rel_append ?_ ?_) (.cons (hlayout _ _) .nil)
  · split
    · exact .nil
    · exact .cons (hlayout _ _) .nil
  · induction opened with
    | zero => exact .nil
    | succ opened ih => exact .cons (hlayout _ _) ih

theorem finish (h : Relocated P Q f o o' s s') (hQ : Q s.spot.place s'.spot.place)
    (ho : o'.tokens.head?.map Token.kind = o.tokens.head?.map Token.kind) :
    ∃ new new', s.finish = o.tokens.reverse ++ new ∧ s'.finish = o'.tokens.reverse ++ new' ∧
      List.Forall₂ (Token.Relocated Q) new new' := by
  obtain ⟨new, new', hs, hs', hnew⟩ := h.tokens.exists
  have hlast : s'.tokens.head?.map Token.kind = s.tokens.head?.map Token.kind := by
    rw [hs, hs']
    cases hnew with
    | nil => exact ho
    | cons ht => exact congrArg some ht.kind
  refine ⟨_, _, ?_, ?_, List.rel_append (List.rel_reverse hnew)
    (ending_relocated hQ (s.tokens.head?.map Token.kind) s.indents.length)⟩
  · rw [finish_ending, hs, List.reverse_append, List.append_assoc]
  · rw [finish_ending, hlast, hs', h.indents, List.length_map, List.reverse_append, List.append_assoc]

end Relocated

end State

end Scan

/-! ## Runs -/

/-- Two scans that read the same since `o` and `o'`: related tokens, or the same fault. -/
structure Scanned.Relocated (P : Position → Position → Prop) (o o' : Scan.State) (r r' : Scanned) :
    Prop where
  tokens : EndAlike (fun fault fault' => fault'.cause = fault.cause ∧ P fault.position fault'.position)
    (fun ts ts' => ∃ new new', ts = o.tokens.reverse ++ new ∧ ts' = o'.tokens.reverse ++ new' ∧
      List.Forall₂ (Token.Relocated P) new new') r.tokens r'.tokens
  hashComments : ∃ new new', r.hashComments = o.hashComments.reverse ++ new ∧
    r'.hashComments = o'.hashComments.reverse ++ new' ∧ List.Forall₂ P new new'

namespace Scan.State.Relocated

variable {o o' s s' : State} {m : ScanMode} {r r' : Scanned} {x x' : Moved}

theorem hashComments_reverse {l l' old old' : List Position} (h : Grown P old old' l l') :
    ∃ new new', l.reverse = old.reverse ++ new ∧ l'.reverse = old'.reverse ++ new' ∧
      List.Forall₂ P new new' := by
  obtain ⟨new, new', rfl, rfl, hnew⟩ := h.exists
  exact ⟨_, _, List.reverse_append, List.reverse_append, List.rel_reverse hnew⟩

section Columns

variable (hP : Position.Carried P) (hcol : ∀ p p', P p p' → p'.column = p.column)
include hP hcol

theorem indentation (h : Relocated P P id o o' s s') (p : Phase) :
    s'.indentation p = s.indentation p := by
  have hgap := h.spot.pastWhile hP Spot.isGap
  cases p with
  | fresh =>
    change widthFrom 0 (s'.spot.rest.takeWhile Spot.isGap) = widthFrom 0 (s.spot.rest.takeWhile Spot.isGap)
    rw [h.spot.rest]
  | commented | inLine => exact congrArg (· - 1) (hcol _ _ hgap.place)

theorem moves (h : Relocated P P id o o' s s') (p : Phase) :
    MoveRelocated P P id o o' (s.move m p) (s'.move m p) :=
  h.move strictMono_id rfl hP (h.spot.pastWhile hP _).place fun _ _ => h.indentation hP hcol p

/-- Where columns are the same, the same moves lead to the same end. -/
theorem comes (hx : MoveRelocated P P id o o' x x')
    (ho : o'.tokens.head?.map Token.kind = o.tokens.head?.map Token.kind)
    (h : Comes m x r) (h' : Comes m x' r') : Scanned.Relocated P o o' r r' := by
  have alongside (a a' : State × Option Phase) (ha : Relocated P P id o o' a.1 a'.1 ∧ a'.2 = a.2) :
      Alongside (Relocated P P id o o') (fun _ => Relocated P P id o o') a a' := by
    obtain ⟨s, y⟩ := a
    obtain ⟨s', y'⟩ := a'
    obtain ⟨hs, rfl⟩ := ha
    cases y' with
    | none => exact .done hs
    | some p => exact .on hs
  obtain ⟨e, e', he, rfl, rfl⟩ | ⟨t, t', ht, rfl, rfl⟩ :=
    Comes.related (fun p _ _ hs => (hs.moves hP hcol p).mono alongside) (hx.mono alongside) h h'
  · exact ⟨.error ⟨he.cause, he.position⟩, hashComments_reverse he.hashComments⟩
  · exact ⟨.ok (ht.finish ht.spot.place ho), hashComments_reverse ht.hashComments⟩

end Columns

end Scan.State.Relocated

end StoryLang
