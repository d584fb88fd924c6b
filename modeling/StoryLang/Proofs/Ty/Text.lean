/-
How a type is written, and what is read of a text.

A type reads back from its text, also with blanks around every type that is
written in it, and no other types are read than those that can be written
down. A tree of type names spells what its text names: the two readers share
only `Ty.ofName?`, one finds the parts of a type in a tree and the other cuts
them out of a text at the commas outside all brackets.
-/
import StoryLang.Check.Basic
import StoryLang.Grammar.BuiltIn
import StoryLang.Proofs.Text.Lines
import StoryLang.Proofs.Token.Literal
import StoryLang.Script.OfValue
import StoryLang.Ty.Reader

namespace StoryLang

namespace Text

variable {c : Char} {s : List Char} {texts : List (List Char)}

theorem consFirst_cases (h : s ∈ consFirst c texts) :
    s = [c] ∨ s ∈ texts ∨ ∃ u ∈ texts, s = c :: u := by
  cases texts with
  | nil => exact .inl (List.mem_singleton.1 h)
  | cons text texts =>
    rcases List.mem_cons.1 h with rfl | h
    · exact .inr (.inr ⟨text, List.mem_cons_self, rfl⟩)
    · exact .inr (.inl (List.mem_cons_of_mem text h))

theorem foldr_consFirst (s part : List Char) (more : List (List Char)) :
    s.foldr consFirst (part :: more) = (s ++ part) :: more := by
  induction s with
  | nil => rfl
  | cons c s ih => rw [List.foldr_cons, ih]; rfl

theorem length_trim (cs : List Char) : (trim cs).length ≤ cs.length :=
  Nat.le_trans (Text.trimEnd_prefix _).length_le (List.dropWhile_suffix isBlank).length_le

end Text

namespace Ty

open Text

variable {t e : Ty} {c : Char} {s name rest inner cs : List Char} {texts : List (List Char)}
  {parts : List Ty} {depth : Nat}

/-! ## Reading without a bound -/

/-- The type a text names, whatever the length of the text. -/
def read (raw : List Char) : Option Ty := readWith (raw.length + 1) raw

theorem ofText?_eq (s : String) : ofText? s = read s.toList := rfl

theorem mapM_congr {α β : Type} {f g : α → Option β} {as : List α} (h : ∀ a ∈ as, f a = g a) :
    as.mapM f = as.mapM g := by
  induction as with
  | nil => rfl
  | cons a as ih =>
    rw [List.mapM_cons, List.mapM_cons, h a List.mem_cons_self,
      ih fun b hb => h b (List.mem_cons_of_mem a hb)]

theorem dropBracket?_some (h : dropBracket? cs = some inner) : cs = inner ++ [']'] := by
  unfold dropBracket? at h
  split at h
  · rename_i hlast
    obtain ⟨front, rfl⟩ := List.getLast?_eq_some_iff.1 hlast
    rw [List.dropLast_concat] at h
    rw [Option.some.inj h]
  · cases h

theorem length_splitParts (h : s ∈ splitParts depth cs) : s.length ≤ cs.length := by
  induction cs generalizing depth s with
  | nil =>
    obtain rfl : s = [] := by simpa [splitParts] using h
    exact Nat.le_refl 0
  | cons c cs ih =>
    rw [splitParts] at h
    split at h
    · rcases List.mem_cons.1 h with rfl | h
      · exact Nat.zero_le _
      · exact Nat.le_succ_of_le (ih h)
    · rcases consFirst_cases h with rfl | h | ⟨u, hu, rfl⟩
      · exact Nat.succ_le_succ (Nat.zero_le _)
      · exact Nat.le_succ_of_le (ih h)
      · exact Nat.succ_le_succ (ih hu)

/-- The parts of a text are shorter than the text. -/
theorem length_part (hsplit : splitFirst? '[' (trim cs) = some (name, rest))
    (hdrop : dropBracket? rest = some inner) (hs : s ∈ splitParts 0 inner) :
    s.length < cs.length := by
  have htrim := length_trim cs
  rw [splitFirst?_some hsplit, dropBracket?_some hdrop] at htrim
  have := length_splitParts hs
  simp only [List.length_append, List.length_cons, List.length_nil] at htrim
  omega

/-- A bound past the length of the text does not matter. -/
theorem readWith_bound {n m : Nat} (hn : cs.length < n) (hm : cs.length < m) :
    readWith n cs = readWith m cs := by
  induction n generalizing m cs with
  | zero => omega
  | succ n ih =>
    cases m with
    | zero => omega
    | succ m =>
      rw [readWith, readWith]
      cases hsplit : splitFirst? '[' (trim cs) with
      | none => rfl
      | some found =>
        obtain ⟨name, rest⟩ := found
        cases hdrop : dropBracket? rest with
        | none => simp [hdrop]
        | some inner =>
          have hparts : ∀ s ∈ splitParts 0 inner, readWith n s = readWith m s := by
            intro s hs
            have := length_part hsplit hdrop hs
            exact ih (by omega) (by omega)
          simp only [hdrop, Option.bind_eq_bind, Option.bind_some, mapM_congr hparts]

/-- What is read of a text, from what is read of its parts. -/
theorem read_eq (cs : List Char) : read cs =
    match splitFirst? '[' (trim cs) with
    | none => ofName? (String.ofList (trim cs)) []
    | some (name, rest) => (dropBracket? rest).bind fun inner =>
      ((splitParts 0 inner).mapM read).bind (ofName? (String.ofList name)) := by
  rw [read, readWith]
  cases hsplit : splitFirst? '[' (trim cs) with
  | none => rfl
  | some found =>
    obtain ⟨name, rest⟩ := found
    cases hdrop : dropBracket? rest with
    | none => simp [hdrop]
    | some inner =>
      have hparts : ∀ s ∈ splitParts 0 inner, readWith cs.length s = read s := fun s hs =>
        readWith_bound (length_part hsplit hdrop hs) (Nat.lt_succ_self _)
      simp only [hdrop, Option.bind_eq_bind, Option.bind_some, mapM_congr hparts]

/-! ## Commas between brackets -/

/-- At that depth of brackets a text has no comma that cuts it, and its brackets are closed. -/
def Whole (depth : Nat) (s : List Char) : Prop :=
  ∀ rest, splitParts depth (s ++ rest) = s.foldr consFirst (splitParts depth rest)

theorem Whole.append {u : List Char} (hs : Whole depth s) (hu : Whole depth u) :
    Whole depth (s ++ u) := by
  intro rest
  rw [List.append_assoc, hs, hu, List.foldr_append]

/-- A character that stands for itself, between brackets or not. -/
def isPlain (c : Char) : Bool := c != ',' && c != '[' && c != ']'

theorem whole_plain (h : ∀ c ∈ s, isPlain c = true) (depth : Nat) : Whole depth s := by
  induction s with
  | nil => exact fun _ => rfl
  | cons c s ih =>
    obtain ⟨hcomma, hopen, hclose⟩ : c ≠ ',' ∧ c ≠ '[' ∧ c ≠ ']' := by
      simpa [isPlain, and_assoc] using h c List.mem_cons_self
    intro rest
    rw [List.cons_append, splitParts, if_neg fun hc => hcomma hc.1]
    simp only [hopen, hclose, if_false]
    rw [ih (fun d hd => h d (List.mem_cons_of_mem c hd)) rest]
    rfl

theorem whole_comma (depth : Nat) : Whole (depth + 1) [','] := fun rest => by
  simp [splitParts]

theorem whole_brackets (h : Whole (depth + 1) s) : Whole depth ('[' :: (s ++ [']'])) := by
  intro rest
  have hopen (cs : List Char) :
      splitParts depth ('[' :: cs) = consFirst '[' (splitParts (depth + 1) cs) := by
    simp [splitParts]
  have hclose : splitParts (depth + 1) (']' :: rest) = consFirst ']' (splitParts depth rest) := by
    simp [splitParts]
  rw [List.cons_append, hopen, List.append_assoc, h, List.singleton_append, hclose]
  simp

theorem whole_intercalate (h : ∀ s ∈ texts, Whole (depth + 1) s) :
    Whole (depth + 1) ([','].intercalate texts) := by
  induction texts with
  | nil => exact fun _ => rfl
  | cons s texts ih =>
    have ih := ih fun v hv => h v (List.mem_cons_of_mem s hv)
    cases texts with
    | nil => simpa using h s List.mem_cons_self
    | cons u more =>
      rw [List.intercalate_cons_cons]
      exact ((h s List.mem_cons_self).append (whole_comma depth)).append ih

/-- Texts with commas between them are the parts of what they make up. -/
theorem splitParts_intercalate (h : ∀ s ∈ texts, Whole 0 s) (hne : texts ≠ []) :
    splitParts 0 ([','].intercalate texts) = texts := by
  induction texts with
  | nil => exact absurd rfl hne
  | cons s texts ih =>
    have hs := h s List.mem_cons_self
    cases texts with
    | nil =>
      have hs := hs []
      rw [List.append_nil, splitParts, foldr_consFirst, List.append_nil] at hs
      rwa [List.intercalate_singleton]
    | cons u more =>
      have hcomma (cs : List Char) : splitParts 0 (',' :: cs) = [] :: splitParts 0 cs := by
        simp [splitParts]
      rw [List.intercalate_cons_cons, List.append_assoc, hs, List.singleton_append, hcomma,
        foldr_consFirst, List.append_nil,
        ih (fun v hv => h v (List.mem_cons_of_mem s hv)) (List.cons_ne_nil u more)]

/-! ## Reading what is written -/

/-- A text that could be the name of a type: one word, without brackets and commas. -/
def isWord (cs : List Char) : Bool :=
  !cs.isEmpty && cs.all fun c => isPlain c && !isBlank c

theorem isWord_iff : isWord cs = true ↔
    cs ≠ [] ∧ ∀ c ∈ cs, isPlain c = true ∧ isBlank c = false := by
  simp [isWord]

theorem bracket_of_isWord (h : isWord name = true) : '[' ∉ name := fun hm => by
  cases ((isWord_iff.1 h).2 _ hm).1

/-- Nothing is trimmed of a name, also with brackets behind it. -/
theorem trim_word (h : isWord name = true) : trim name = name :=
  Text.trim_eq_self (fun c hc => ((isWord_iff.1 h).2 c (List.mem_of_mem_head? hc)).2)
    fun c hc => ((isWord_iff.1 h).2 c (List.mem_of_getLast? hc)).2

theorem read_word (h : isWord name = true) : read name = ofName? (String.ofList name) [] := by
  rw [read_eq, trim_word h, splitFirst?_none (bracket_of_isWord h)]

/-- A name with parts in brackets is read as the type of that name and these parts. -/
theorem read_parts (hname : isWord name = true) (hne : texts ≠ []) (h : ∀ s ∈ texts, Whole 0 s) :
    read (name ++ '[' :: ([','].intercalate texts ++ [']'])) =
      (texts.mapM read).bind (ofName? (String.ofList name)) := by
  have htrim : trim (name ++ '[' :: ([','].intercalate texts ++ [']'])) =
      name ++ '[' :: ([','].intercalate texts ++ [']']) := by
    obtain ⟨hnil, hall⟩ := isWord_iff.1 hname
    obtain ⟨c, cs, rfl⟩ := List.exists_cons_of_ne_nil hnil
    refine Text.trim_eq_self (fun d hd => ?_) fun d hd => ?_
    · obtain rfl : c = d := by simpa using hd
      exact (hall c List.mem_cons_self).2
    · obtain rfl : ']' = d := by simpa [List.getLast?_append, List.getLast?_cons] using hd
      rfl
  have hdrop : dropBracket? ([','].intercalate texts ++ [']']) =
      some ([','].intercalate texts) := by
    simp [dropBracket?]
  rw [read_eq, htrim, splitFirst?_append (bracket_of_isWord hname)]
  simp only [hdrop, Option.bind_some, splitParts_intercalate h hne]

/-- Blanks around a type do not count. -/
theorem read_blanks {before after : List Char} (hb : ∀ c ∈ before, isBlank c = true)
    (ha : ∀ c ∈ after, isBlank c = true) : read (before ++ s ++ after) = read s := by
  rw [read_eq, read_eq, Text.trim_between hb ha]

/-! ## Types that can be written down -/

/-- The types that have a name and no parts. -/
def plains : List Ty := [int, float, string, boolean, regex, time, any, anyObject, anyFunction]

/-- A type that is built of those with a name of their own by lists and maps, to any depth. -/
inductive Written : Ty → Prop where
  | plain {t : Ty} (h : t ∈ plains) : Written t
  | list {e : Ty} (he : Written e) : Written (.list e)
  | map {k v : Ty} (hk : Written k) (hv : Written v) : Written (.map k v)

/-- A type as it is written, with or without blanks around each type expression in it. -/
inductive Padded : Ty → List Char → Prop where
  | plain {t : Ty} (h : t ∈ plains) : Padded t t.text.toList
  | list {e : Ty} {s : List Char} (he : Padded e s) :
    Padded (.list e) ("list[".toList ++ s ++ "]".toList)
  | map {k v : Ty} {s u : List Char} (hk : Padded k s) (hv : Padded v u) :
    Padded (.map k v) ("map[".toList ++ s ++ ",".toList ++ u ++ "]".toList)
  | blanks {t : Ty} {s : List Char} (before after : List Char) (h : Padded t s)
    (hb : ∀ c ∈ before, isBlank c = true) (ha : ∀ c ∈ after, isBlank c = true) :
    Padded t (before ++ s ++ after)

theorem padded_text (h : Written t) : Padded t t.text.toList := by
  induction h with
  | plain h => exact .plain h
  | list _ ih => simpa [text] using ih.list
  | map _ _ ihk ihv => simpa [text] using ihk.map ihv

theorem plains_read : ∀ t ∈ plains, isWord t.text.toList = true ∧ ofName? t.text [] = some t := by
  decide

theorem whole_word (h : isWord name = true) (depth : Nat) : Whole depth name :=
  whole_plain (fun c hc => ((isWord_iff.1 h).2 c hc).1) depth

theorem whole_blanks (h : ∀ c ∈ s, isBlank c = true) (depth : Nat) : Whole depth s := by
  refine whole_plain (fun c hc => ?_) depth
  have hc := h c hc
  simp only [isPlain, Bool.and_eq_true, bne_iff_ne]
  refine ⟨⟨?_, ?_⟩, ?_⟩ <;> rintro rfl <;> cases hc

/-- A name with parts in brackets is one part of what it stands in. -/
theorem whole_parts (hname : isWord name = true) (h : ∀ s ∈ texts, ∀ depth, Whole depth s)
    (depth : Nat) : Whole depth (name ++ '[' :: ([','].intercalate texts ++ [']'])) :=
  (whole_word hname depth).append
    (whole_brackets (whole_intercalate fun s hs => h s hs (depth + 1)))

theorem list_eq (s : List Char) : "list[".toList ++ s ++ "]".toList =
    "list".toList ++ '[' :: ([','].intercalate [s] ++ [']']) := by
  simp

theorem map_eq (s u : List Char) : "map[".toList ++ s ++ ",".toList ++ u ++ "]".toList =
    "map".toList ++ '[' :: ([','].intercalate [s, u] ++ [']']) := by
  simp

theorem Padded.whole (h : Padded t s) : ∀ depth, Whole depth s := by
  induction h with
  | plain h => exact whole_word (plains_read _ h).1
  | @list e s _ ih =>
    rw [list_eq]
    exact whole_parts (by decide) (by simpa using ih)
  | @map k v s u _ _ ihk ihv =>
    rw [map_eq]
    exact whole_parts (by decide) (by simpa using ⟨ihk, ihv⟩)
  | blanks _ _ _ hb ha ih =>
    exact fun depth => ((whole_blanks hb depth).append (ih depth)).append (whole_blanks ha depth)

/-- A type reads back from its text, with or without blanks. -/
theorem Padded.read (h : Padded t s) : read s = some t := by
  induction h with
  | @plain t h => rw [read_word (plains_read t h).1, String.ofList_toList, (plains_read t h).2]
  | @list e s he ih =>
    rw [list_eq, read_parts (by decide) (List.cons_ne_nil s []) (by simpa using he.whole 0)]
    simp only [List.mapM_cons, ih]
    rfl
  | @map k v s u hk hv ihk ihv =>
    rw [map_eq, read_parts (by decide) (List.cons_ne_nil s [u])
      (by simpa using ⟨hk.whole 0, hv.whole 0⟩)]
    simp only [List.mapM_cons, ihk, ihv]
    rfl
  | blanks _ _ _ hb ha ih => rw [read_blanks hb ha, ih]

/-! ## Types that are read -/

theorem written_plain? {name : String} (h : plain? name = some t) : Written t := by
  refine .plain ?_
  unfold plain? at h
  repeat' split at h
  all_goals cases h <;> decide

theorem written_ofName? {name : String} (hparts : ∀ p ∈ parts, Written p)
    (h : ofName? name parts = some t) : Written t := by
  have hany : Written any := .plain (by decide)
  unfold ofName? at h
  split at h
  · match parts, hparts, h with
    | [], _, h => exact Option.some.inj h ▸ .list hany
    | [e], hparts, h => exact Option.some.inj h ▸ .list (hparts e (by simp))
    | _ :: _ :: _, _, h => cases h
  split at h
  · match parts, hparts, h with
    | [], _, h => exact Option.some.inj h ▸ .map hany hany
    | [k], hparts, h => exact Option.some.inj h ▸ .map (hparts k (by simp)) hany
    | [k, v], hparts, h => exact Option.some.inj h ▸ .map (hparts k (by simp)) (hparts v (by simp))
    | _ :: _ :: _ :: _, _, h => cases h
  · match parts, h with
    | [], h => exact written_plain? h
    | _ :: _, h => cases h

theorem exists_of_mapM {α β : Type} {f : α → Option β} {as : List α} {bs : List β}
    (h : as.mapM f = some bs) : ∀ b ∈ bs, ∃ a ∈ as, f a = some b := by
  induction as generalizing bs with
  | nil =>
    obtain rfl : [] = bs := Option.some.inj h
    exact fun b hb => absurd hb List.not_mem_nil
  | cons a as ih =>
    rw [List.mapM_cons] at h
    obtain ⟨b, hb, h⟩ := Option.bind_eq_some_iff.1 h
    obtain ⟨more, hmore, h⟩ := Option.bind_eq_some_iff.1 h
    obtain rfl : b :: more = bs := Option.some.inj h
    intro c hc
    rcases List.mem_cons.1 hc with rfl | hc
    · exact ⟨a, List.mem_cons_self, hb⟩
    · obtain ⟨d, hd, hf⟩ := ih hmore c hc
      exact ⟨d, List.mem_cons_of_mem a hd, hf⟩

/-- What is read can be written down. -/
theorem written_read (h : read cs = some t) : Written t := by
  induction hn : cs.length using Nat.strongRecOn generalizing cs t with
  | ind n ih =>
    subst hn
    rw [read_eq] at h
    cases hsplit : splitFirst? '[' (trim cs) with
    | none =>
      rw [hsplit] at h
      exact written_ofName? (by simp) h
    | some found =>
      obtain ⟨name, rest⟩ := found
      rw [hsplit] at h
      obtain ⟨inner, hdrop, h⟩ := Option.bind_eq_some_iff.1 h
      obtain ⟨parts, hparts, h⟩ := Option.bind_eq_some_iff.1 h
      refine written_ofName? (fun p hp => ?_) h
      obtain ⟨s, hs, hp⟩ := exists_of_mapM hparts p hp
      exact ih s.length (length_part hsplit hdrop hs) hp rfl

end Ty

/-! ## Trees of type names -/

mutual

/-- A tree of type names: every node in it starts with a token that spells one of the names. -/
def Tree.NamesTypes (names : List String) : Tree → Prop
  | .token t => t.literal ∈ names
  | .node _ _ ps => (∃ t, firstTokenOf? ps = some t ∧ t.literal ∈ names) ∧ NamesTypesAll names ps

/-- The same for the nodes of a row. -/
def Tree.NamesTypesAll (names : List String) : List Tree → Prop
  | [] => True
  | .token _ :: ts => NamesTypesAll names ts
  | .node r l ps :: ts => NamesTypes names (.node r l ps) ∧ NamesTypesAll names ts

end

namespace Check

open Ty Value

theorem builtIn_isWord : ∀ name ∈ Grammar.builtIn.typeNames, isWord name.toList = true := by
  decide

mutual

/-- What a tree of type names spells is what is read of its text. -/
theorem spelled_eq : ∀ t : Tree, t.NamesTypes Grammar.builtIn.typeNames →
    (∀ depth, Whole depth (typesText t).toList) ∧
      (spelled t).toOption = read (typesText t).toList
  | .token t, h => by
    have hword := builtIn_isWord _ h
    refine ⟨whole_word hword, ?_⟩
    rw [typesText, read_word hword, String.ofList_toList, spelled]
    cases ofName? t.literal [] <;> rfl
  | .node r l ps, ⟨⟨t, ht, hname⟩, h⟩ => by
    have hword := builtIn_isWord _ hname
    obtain ⟨hwhole, heq⟩ := spelledParts_eq ps h
    have hspelled : (spelled (.node r l ps)).toOption =
        (spelledParts ps).toOption.bind (ofName? t.literal) := by
      rw [spelled, ht]
      dsimp only
      cases spelledParts ps with
      | error wrong => rfl
      | ok parts =>
        dsimp only [Except.toOption, Option.bind_some]
        cases ofName? t.literal parts <;> rfl
    rw [hspelled, heq, typesText, ht]
    cases htexts : typesTexts ps with
    | nil =>
      refine ⟨whole_word hword, ?_⟩
      exact (read_word hword).symm ▸ by simp
    | cons text texts =>
      rw [htexts] at hwhole
      have hlist : (t.literal ++ "[" ++ ",".intercalate (text :: texts) ++ "]").toList =
          t.literal.toList ++
            '[' :: ([','].intercalate ((text :: texts).map String.toList) ++ [']']) := by
        simp
      dsimp only [Option.map_some, Option.getD_some]
      rw [hlist, read_parts hword (by simp) (by simpa using fun u hu => hwhole u hu 0)]
      refine ⟨whole_parts hword (by simpa using hwhole), ?_⟩
      rw [List.mapM_map, String.ofList_toList]
      rfl

theorem spelledParts_eq : ∀ ps : List Tree, Tree.NamesTypesAll Grammar.builtIn.typeNames ps →
    (∀ text ∈ typesTexts ps, ∀ depth, Whole depth text.toList) ∧
      (spelledParts ps).toOption = (typesTexts ps).mapM fun text => read text.toList
  | [], _ => ⟨fun _ h => absurd h List.not_mem_nil, rfl⟩
  | .token _ :: ts, h => spelledParts_eq ts h
  | .node r l ps :: ts, ⟨hfirst, hrest⟩ => by
    obtain ⟨hwhole, heq⟩ := spelled_eq (.node r l ps) hfirst
    obtain ⟨hwholes, heqs⟩ := spelledParts_eq ts hrest
    rw [typesTexts, spelledParts, List.mapM_cons, ← heq, ← heqs]
    refine ⟨by simpa using ⟨hwhole, hwholes⟩, ?_⟩
    cases spelled (.node r l ps) <;> cases spelledParts ts <;> rfl

end

end Check

namespace Ty

open Text (isBlank)

/-- A type reads back from its text, and so with blanks around every type expression in it. Only
types that can be written down are read. What a tree of built-in type names spells, if it spells a
type, is what is read of the text of the tree. -/
theorem ofText?_text :
    (∀ t, Written t → Padded t t.text.toList) ∧
      (∀ t s, Padded t s → ofText? (String.ofList s) = some t) ∧
      (∀ s t, ofText? s = some t → Written t) ∧
      ∀ types : Tree, types.NamesTypes Grammar.builtIn.typeNames →
        ∀ t, Check.spelled types = .ok t ↔ ofText? (Value.typesText types) = some t := by
  refine ⟨fun t => padded_text, fun t s h => ?_, fun s t => written_read, fun types h t => ?_⟩
  · rw [ofText?_eq, String.toList_ofList, h.read]
  · rw [ofText?_eq, ← (Check.spelled_eq types h).2, toOption_eq_some]

/-- A map of lists, as a tree of names. -/
def nestedTypes : Tree :=
  let name (s : String) : Tree := .token ⟨.name, s, ⟨1, 1⟩⟩
  let mark (s : Symbol) : Tree := .token ⟨.symbol s, s.text, ⟨1, 1⟩⟩
  .of .types [name "map", mark .leftBracket, .of .types [name "string"], mark .comma,
    .of .types [name "list", mark .leftBracket, .of .types [name "int"], mark .rightBracket],
    mark .rightBracket]

theorem ofText?_text_nested :
    Padded (map string (list int)) " map[string\t, list[ int ]]".toList ∧
      ofText? " map[string\t, list[ int ]]" = some (map string (list int)) ∧
      nestedTypes.NamesTypes Grammar.builtIn.typeNames ∧
      Check.spelled nestedTypes = .ok (map string (list int)) := by
  obtain ⟨hwritten, hread, -, htree⟩ := ofText?_text
  have hblank : isBlank ' ' = true ∧ isBlank '\t' = true := by decide
  have hint : Padded int "int".toList := .plain (by decide)
  have hstring : Padded string "string".toList := .plain (by decide)
  have hpadded : Padded (map string (list int)) " map[string\t, list[ int ]]".toList := by
    have hkey := hstring.blanks [] ['\t'] (by simp) (by simp [hblank])
    have hitem := hint.blanks [' '] [' '] (by simp [hblank]) (by simp [hblank])
    have hvalue := hitem.list.blanks [' '] [] (by simp [hblank]) (by simp)
    simpa using (hkey.map hvalue).blanks [' '] [] (by simp [hblank]) (by simp)
  have hnames : nestedTypes.NamesTypes Grammar.builtIn.typeNames := by
    simp [nestedTypes, Tree.NamesTypes, Tree.NamesTypesAll, Tree.firstTokenOf?, Tree.firstToken?,
      Grammar.builtIn]
  have htext : Value.typesText nestedTypes = (map string (list int)).text := by decide
  have hwrite : Written (map string (list int)) :=
    .map (.plain (by decide)) (.list (.plain (by decide)))
  have hplain := hread _ _ (hwritten _ hwrite)
  refine ⟨hpadded, ?_, hnames, (htree _ hnames _).2 ?_⟩
  · simpa using hread _ _ hpadded
  · rw [htext, ← hplain, String.ofList_toList]

end Ty

end StoryLang
