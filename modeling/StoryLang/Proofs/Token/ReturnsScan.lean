/-
Scanning a text whose lines end in a carriage return and a newline, to its end.

Two scanners that have read the same of both texts come to the same: to the
end of the text, to the end of a line, or to the same code. So they take the
same steps, each as long as there is text for it, and end alike: with the same
tokens but for those at line ends, or none for the same reason
(`scan_withReturns`).
-/
import Mathlib.Data.List.Forall2
import StoryLang.Proofs.Token.Layout
import StoryLang.Proofs.Token.Returns

namespace StoryLang

open Text (withReturns)

namespace Scan

variable {text cs rest : List Char} {c : Char}

/-- A line without code starts with the same in both texts. -/
theorem lead_withReturns (h : cs.head? ≠ some '\n') : lead (withReturns cs) = lead cs := by
  have hhead {d : Char} (hd : d ≠ '\r' ∧ d ≠ '\n') {ds : List Char} :
      (withReturns ds).head? = some d → ∃ more, ds = d :: more :=
    fun hs => List.head?_eq_some_iff.1 ((Text.head?_withReturns hd ds).1 hs)
  rcases lead_cases cs with ⟨-, rfl⟩ | ⟨ds, -, rfl⟩ | ⟨ds, -, rfl⟩ | ⟨ds, -, rfl⟩ | ⟨ds, -, rfl⟩ | hcode
  · rfl
  · exact absurd rfl h
  · rw [Text.withReturns_cons (by decide)]
    rfl
  · rw [Text.withReturns_cons (by decide), Text.withReturns_cons (by decide)]
    rfl
  · rw [Text.withReturns_cons (by decide), Text.withReturns_cons (by decide)]
    rfl
  · rw [hcode]
    cases cs with
    | nil => cases hcode
    | cons c cs =>
      have hc : c ≠ '\n' := by simpa using h
      rw [Text.withReturns_cons hc]
      refine lead_cons hc ?_ ?_
      · rintro rfl
        cases hcode
      · rintro rfl
        refine ⟨fun hs => ?_, fun hs => ?_⟩ <;>
        · obtain ⟨more, rfl⟩ := hhead (by decide) hs
          cases hcode

namespace State

variable {s s' : State} {m : ScanMode} {w : Nat}

/-- What two scanners are in front of behind the blanks of a line. -/
inductive InFront (text : List Char) (s s' : State) : Prop where
  | done (beside : s.Beside text s') (rest : s.spot.rest = []) (spot : s'.spot = s.spot)
  | lineEnd {rest : List Char} {p : Position} {before before' : Option Char}
    (beside : s.Beside text s') (spot : s.spot = ⟨'\n' :: rest, p, before⟩)
    (spot' : s'.spot = ⟨'\n' :: withReturns rest, p.further, before'⟩)
  | code {c : Char} {rest : List Char} (facing : Facing text s s' c rest)

theorem Beside.inFront (h : s.Beside text s') :
    InFront text (s.moveTo s.spot.pastGap) (s'.moveTo s'.spot.pastGap) := by
  have hgap := h.pastGap
  have hlevel := h.spot.pastGap
  revert hgap hlevel
  generalize s.spot.pastGap = a, s'.spot.pastGap = a'
  intro hgap hlevel
  cases hlevel with
  | lineEnd => exact .lineEnd hgap rfl rfl
  | same a hcode =>
    cases hr : a.rest with
    | nil =>
      refine .done hgap hr ?_
      simp only [State.moveTo, Spot.returned, hr, Text.withReturns_nil]
      rw [← hr]
    | cons c rest => exact .code ⟨hgap, rfl, hr, by simpa [hr] using hcode⟩

/-- Where the text ends, both texts do, at the same place. -/
theorem Beside.place_eq (h : s.Beside text s') (hr : s.spot.rest = []) :
    s'.spot.place = s.spot.place := by
  obtain ⟨hs, -⟩ := h
  revert hs hr
  generalize s.spot = a, s'.spot = a'
  rintro hr (_ | _)
  · rfl
  · cases hr

/-- Both go over the end of a line. -/
theorem Beside.pastNewline {p : Position} {before before' : Option Char} (h : s.Beside text s')
    (hs : s.spot = ⟨'\n' :: rest, p, before⟩)
    (hs' : s'.spot = ⟨'\n' :: withReturns rest, p.further, before'⟩) :
    (s.moveTo s.spot.next).Beside text (s'.moveTo s'.spot.next) := by
  refine h.moveTo ?_ s.spot.reaches_next
  rw [hs, hs']
  exact .same ⟨rest, p.after '\n', some '\n'⟩

/-! ## The start of a line -/

theorem width_returned (rest : List Char) :
    widthFrom w ((withReturns rest).takeWhile Spot.isGap) = widthFrom w (rest.takeWhile Spot.isGap) := by
  induction rest generalizing w with
  | nil => rfl
  | cons c rest ih =>
    by_cases hc : c = '\n'
    · subst hc
      rfl
    · rw [Text.withReturns_cons hc, List.takeWhile_cons, List.takeWhile_cons]
      split
      · simp only [widthFrom, ih]
      · rfl

theorem Beside.width (h : s.Beside text s') : s'.width = s.width := by
  obtain ⟨hs, -⟩ := h
  unfold State.width
  revert hs
  generalize s.spot = a, s'.spot = a'
  rintro (_ | _)
  · exact width_returned _
  · rfl

theorem closeWider_beside (w : Nat) (indents : List Nat) {place : Position} {ts ts' : List Token}
    (hplace : ¬ place.EndsLine text) (h : List.Forall₂ (Token.Beside text) ts ts') :
    (closeWider w place indents ts').1 = (closeWider w place indents ts).1 ∧
      List.Forall₂ (Token.Beside text) (closeWider w place indents ts).2
        (closeWider w place indents ts').2 := by
  induction indents generalizing ts ts' with
  | nil => exact ⟨rfl, h⟩
  | cons top indents ih =>
    unfold closeWider
    split
    · exact ih (.cons (.same hplace) h)
    · exact ⟨rfl, h⟩

namespace Facing

theorem indentTo (h : Facing text s s' c rest) (w : Nat) :
    GoOn text (s.indentTo w) (s'.indentTo w) := by
  have hb := h.beside
  obtain ⟨hindents, htokens⟩ := closeWider_beside w s.indents h.inLine hb.tokens
  unfold State.indentTo
  simp only [hb.indents, h.place, hindents]
  split
  · exact .ok ⟨hb.spot, hb.reach, rfl, hb.brackets, rfl, hb.hashComments,
      .cons (.same h.inLine) hb.tokens⟩
  · split
    · exact .ok ⟨hb.spot, hb.reach, rfl, hb.brackets, rfl, hb.hashComments, htokens⟩
    · exact hb.stop h.inLine _

theorem indentTo_map (h : Facing text s s' c rest) (w : Nat) :
    GoOnIf text ((s.indentTo w).map (·, true)) ((s'.indentTo w).map (·, true)) :=
  (h.indentTo w).map fun _ _ hu => ⟨hu, rfl⟩

end Facing

theorem InFront.beside (h : InFront text s s') : s.Beside text s' := by
  cases h with
  | done beside => exact beside
  | lineEnd beside => exact beside
  | code facing => exact facing.beside

/-- A line without code starts with the same in both texts. -/
theorem InFront.lead_eq (h : InFront text s s') : lead s'.spot.rest = lead s.spot.rest := by
  cases h with
  | done _ _ spot => rw [spot]
  | lineEnd _ spot spot' =>
    rw [spot, spot']
    rfl
  | code hf => rw [hf.rest', lead_withReturns hf.head]

theorem InFront.facing (h : InFront text s s') (hc : lead s.spot.rest = .code) :
    ∃ c rest, Facing text s s' c rest := by
  cases h with
  | done _ rest =>
    rw [rest] at hc
    cases hc
  | lineEnd _ spot =>
    rw [spot] at hc
    cases hc
  | code hf => exact ⟨_, _, hf⟩

/-- What is done behind the blanks that a line of width `w` starts with. -/
def pastLead (fuel w : Nat) (s : State) : Except Stop (State × Bool) :=
  match lead s.spot.rest with
  | .none => .ok (s, false)
  | .newline => State.startLine fuel (s.moveTo s.spot.next)
  | .hash => State.startLine fuel s.pastHash
  | .slashes => State.startLine fuel (s.moveTo s.spot.lineEnd)
  | .comment =>
    match s.pastComment with
    | .error stop => .error stop
    | .ok u =>
      let u := u.moveTo u.spot.pastGap
      if lead u.spot.rest = .code then (u.indentTo (u.spot.place.column - 1)).map (·, true)
      else State.startLine fuel u
  | .code => (s.indentTo w).map (·, true)

theorem startLine_pastLead (fuel : Nat) (s : State) :
    s.startLine (fuel + 1) = pastLead fuel s.width (s.moveTo s.spot.pastGap) := startLine_eq fuel s

/-- Lines without code are passed in both texts, as long as there are any. -/
theorem startLine_beside {n n' : Nat} (h : s.Beside text s') (hn : s.spot.rest.length < n)
    (hn' : s'.spot.rest.length < n') : GoOnIf text (s.startLine n) (s'.startLine n') := by
  induction n generalizing n' s s' with
  | zero => omega
  | succ n ih =>
    obtain ⟨n', rfl⟩ := Nat.exists_eq_add_one_of_ne_zero (Nat.ne_of_gt (Nat.zero_lt_of_lt hn'))
    have hgap := Nat.le_trans s.spot.rest_pastGap_le (Nat.le_of_lt_succ hn)
    have hgap' := Nat.le_trans s'.spot.rest_pastGap_le (Nat.le_of_lt_succ hn')
    have hfront := h.inFront
    rw [startLine_pastLead, startLine_pastLead, h.width]
    change (s.moveTo s.spot.pastGap).spot.rest.length ≤ n at hgap
    change (s'.moveTo s'.spot.pastGap).spot.rest.length ≤ n' at hgap'
    revert hfront hgap hgap'
    generalize s.moveTo s.spot.pastGap = u, s'.moveTo s'.spot.pastGap = u'
    intro hfront hgap hgap'
    have further {v v' : State} (hv : v.Beside text v')
        (hlt : v.spot.rest.length < u.spot.rest.length)
        (hlt' : v'.spot.rest.length < u'.spot.rest.length) :
        GoOnIf text (v.startLine n) (v'.startLine n') :=
      ih hv (Nat.lt_of_lt_of_le hlt hgap) (Nat.lt_of_lt_of_le hlt' hgap')
    cases hfront with
    | done hb hr hspot =>
      unfold pastLead
      rw [hspot, hr]
      exact .ok ⟨hb, rfl⟩
    | lineEnd hb hspot hspot' =>
      have hnext := further (hb.pastNewline hspot hspot') (by simp [State.moveTo, hspot, Spot.next])
        (by simp [State.moveTo, hspot', Spot.next])
      unfold pastLead
      rw [hspot] at hnext ⊢
      rw [hspot'] at hnext ⊢
      exact hnext
    | @code c rest hf =>
      have hlead := lead_withReturns hf.head
      have hr' := hf.rest_eq
      unfold pastLead
      rw [hf.rest', hlead]
      rcases lead_cases u.spot.rest with ⟨hl, hr⟩ | ⟨ds, hl, hr⟩ | ⟨ds, hl, hr⟩ | ⟨ds, hl, hr⟩ |
        ⟨ds, hl, hr⟩ | hl
      all_goals simp only [hl]
      · simp [hf.rest] at hr
      · exact absurd (hr ▸ rfl) hf.head
      · exact further hf.pastHash (Spot.rest_lineEnd_lt hf.rest hf.code)
          (Spot.rest_lineEnd_lt hr' hf.code)
      · exact further hf.pastSlashes (Spot.rest_lineEnd_lt hf.rest hf.code)
          (Spot.rest_lineEnd_lt hr' hf.code)
      · have hstar' : u'.spot.rest = '/' :: '*' :: withReturns ds := by
          rw [hf.rest', hr, Text.withReturns_cons (by decide), Text.withReturns_cons (by decide)]
        have hcomment := hf.pastComment hr
        generalize hp : u.pastComment = x, hp' : u'.pastComment = x' at hcomment ⊢
        cases hcomment with
        | error reasons => exact .error reasons
        | @ok v v' hv =>
          have hlt := Nat.lt_of_le_of_lt v.spot.rest_pastGap_le (rest_pastComment_lt hr hp)
          have hlt' := Nat.lt_of_le_of_lt v'.spot.rest_pastGap_le (rest_pastComment_lt hstar' hp')
          have hfront := hv.inFront
          dsimp only
          rw [hfront.lead_eq]
          split
          · rename_i hcode
            obtain ⟨d, more, hcode⟩ := hfront.facing hcode
            rw [hcode.place]
            exact hcode.indentTo_map _
          · exact further hfront.beside hlt hlt'
      · exact hf.indentTo_map _

/-! ## Steps -/

namespace Facing

/-- Both read what comes next on their line. -/
theorem readNext (h : Facing text s s' c rest) (m : ScanMode) :
    GoOn text (s.readNext m c rest) (s'.readNext m c (withReturns rest)) := by
  have hslash : (withReturns rest).head? = some '/' ↔ rest.head? = some '/' :=
    Text.head?_withReturns (by decide) rest
  have hstar : (withReturns rest).head? = some '*' ↔ rest.head? = some '*' :=
    Text.head?_withReturns (by decide) rest
  unfold State.readNext
  rw [if_neg h.code, if_neg h.code]
  simp only [hslash, hstar]
  split
  · exact .ok h.pastSlashes
  split
  · rename_i hc
    obtain ⟨rfl, more, rfl⟩ : c = '/' ∧ ∃ more, rest = '*' :: more := by
      cases rest <;> simp_all
    exact h.pastComment h.rest
  split
  · exact .ok h.pastHash
  split
  · rename_i hc
    subst hc
    exact h.readString (.inl rfl)
  split
  · rename_i hc
    obtain ⟨rfl, -⟩ := hc
    exact h.readString (.inr rfl)
  split
  · exact .ok (h.readName m.grammar)
  split
  · exact h.readNumber
  · exact h.readSymbol

end Facing

/-- Both read the end of a line. -/
theorem Beside.readNewline {p : Position} {before before' : Option Char} (h : s.Beside text s')
    (hs : s.spot = ⟨'\n' :: rest, p, before⟩)
    (hs' : s'.spot = ⟨'\n' :: withReturns rest, p.further, before'⟩) :
    GoOn text (s.readNext m '\n' rest) (s'.readNext m '\n' (withReturns rest)) := by
  have hpast := h.pastNewline hs hs'
  have hends : p.EndsLine text := by
    have hi := h.reach.endsLine_iff
    rw [hs] at hi
    exact hi.2 rfl
  unfold State.readNext
  rw [if_pos rfl, if_pos rfl, h.brackets]
  split
  · refine .ok ⟨hpast.spot, hpast.reach, h.indents, h.brackets, rfl, h.hashComments, ?_⟩
    refine .cons ?_ h.tokens
    rw [hs, hs']
    exact .lineEnd hends
  · exact .ok hpast

theorem onLine_beside {p p' : State × Bool} (h : p.1.Beside text p'.1) (hmore : p'.2 = p.2) :
    GoOnIf text (onLine m p) (onLine m p') := by
  unfold onLine
  rw [hmore]
  split
  · have hfront := h.inFront
    have hrest (q : State) : q.spot.pastGap.rest = (q.moveTo q.spot.pastGap).spot.rest := rfl
    rw [hrest p.1, hrest p'.1]
    cases hfront with
    | done hb hr hspot =>
      rw [hspot, hr]
      exact .ok ⟨hb, rfl⟩
    | lineEnd hb hspot hspot' =>
      have hread := hb.readNewline (m := m) hspot hspot'
      rw [hspot, hspot']
      exact hread.map fun _ _ hu => ⟨hu, rfl⟩
    | code hf =>
      rw [hf.rest, hf.rest_eq]
      exact (hf.readNext m).map fun _ _ hu => ⟨hu, rfl⟩
  · exact .ok ⟨h, rfl⟩

/-- Both take a step. -/
theorem step_beside {n n' : Nat} (h : s.Beside text s') (hn : s.spot.rest.length < n)
    (hn' : s'.spot.rest.length < n') : GoOnIf text (s.step m n) (s'.step m n') := by
  rw [step_eq, step_eq, h.atLineStart]
  split
  · exact (startLine_beside h hn hn').bind fun _ _ hp => onLine_beside hp.1 hp.2
  · exact onLine_beside h rfl

/-! ## Runs -/

theorem finish_beside (h : s.Beside text s') (hr : s.spot.rest = []) :
    List.Forall₂ (Token.Beside text) s.finish s'.finish := by
  have hplace := h.place_eq hr
  have hends : ¬ s.spot.place.EndsLine text := fun he => by
    have hhead := h.reach.endsLine_iff.1 he
    simp [hr] at hhead
  have hlayout (kind : TokenKind) (literal : String) :
      Token.Beside text ⟨kind, literal, s.spot.place⟩ ⟨kind, literal, s'.spot.place⟩ := by
    rw [hplace]
    exact .same hends
  have htokens := h.tokens
  unfold State.finish
  rw [h.indents]
  refine List.rel_append (List.rel_append (List.rel_append (List.rel_reverse htokens) ?_) ?_)
    (.cons (hlayout _ _) .nil)
  · revert htokens
    generalize s.tokens = ts, s'.tokens = ts'
    rintro (_ | ⟨ht, _⟩)
    · exact .nil
    · dsimp only
      rw [ht.kind]
      split
      · exact .nil
      · exact .cons (hlayout _ _) .nil
  · exact List.forall₂_map_left_iff.2 (List.forall₂_map_right_iff.2
      (List.forall₂_same.2 fun _ _ => hlayout _ _))

end State

end Scan

/-- What two scans end with: the same fault, where no line ends, or tokens that are beside each
other. -/
structure Scanned.Beside (text : List Char) (a a' : Scanned) : Prop where
  tokens : EndAlike (fun fault fault' => fault' = fault ∧ ¬ fault.position.EndsLine text)
    (List.Forall₂ (Token.Beside text)) a.tokens a'.tokens
  hashComments : a'.hashComments = a.hashComments

namespace Scan.State

variable {text : List Char} {s s' : State} {m : ScanMode}

theorem run_beside {n n' : Nat} (h : s.Beside text s') (hn : s.spot.rest.length < n)
    (hn' : s'.spot.rest.length < n') : Scanned.Beside text (s.run m n) (s'.run m n') := by
  induction n generalizing n' s s' with
  | zero => omega
  | succ n ih =>
    obtain ⟨n', rfl⟩ := Nat.exists_eq_add_one_of_ne_zero (Nat.ne_of_gt (Nat.zero_lt_of_lt hn'))
    have hstep := step_beside (m := m) h hn hn'
    unfold State.run
    generalize hx : s.step m (n + 1) = x, hx' : s'.step m (n' + 1) = x' at hstep
    cases hstep with
    | error reasons =>
      obtain ⟨rfl, hplace⟩ := reasons
      exact ⟨.error ⟨rfl, hplace⟩, rfl⟩
    | @ok p p' results =>
      obtain ⟨u, more⟩ := p
      obtain ⟨u', more'⟩ := p'
      obtain ⟨hu, hmore⟩ := results
      change more' = more at hmore
      subst hmore
      obtain ⟨-, hless, hdone⟩ := adds_step hn hx
      obtain ⟨-, hless', -⟩ := adds_step hn' hx'
      cases more' with
      | true =>
        exact ih hu (Nat.lt_of_lt_of_le (hless rfl) (Nat.le_of_lt_succ hn))
          (Nat.lt_of_lt_of_le (hless' rfl) (Nat.le_of_lt_succ hn'))
      | false => exact ⟨.ok (finish_beside hu (hdone rfl)), congrArg List.reverse hu.hashComments⟩

end Scan.State

/-- The tokens of a text with a carriage return in front of every newline are those of the text,
but for the ends of lines; and its faults and its comments are the same. -/
theorem scan_withReturns (m : ScanMode) (text : List Char) :
    Scanned.Beside (Text.dropMark text) (scan m text) (scan m (withReturns text)) := by
  have hlen (cs : List Char) : (Text.dropMark cs).length < cs.length + 1 :=
    Nat.lt_succ_of_le (Text.length_dropMark cs)
  refine Scan.State.run_beside ?_ (hlen text) (hlen (withReturns text))
  refine ⟨?_, .refl _, rfl, rfl, rfl, rfl, .nil⟩
  rw [Scan.State.start, Scan.State.start, Text.dropMark_withReturns]
  exact .same (.start (Text.dropMark text))

end StoryLang
