/-
Reading a text from left to right while keeping count of lines and columns.
-/
import StoryLang.Position

namespace StoryLang

/-- Where reading stands: the text still to read, the place of its first
character, and the character before it. -/
structure Spot where
  rest : List Char
  place : Position
  before : Option Char
  deriving DecidableEq, Repr

namespace Spot

/-- The start of a text. -/
def start (text : List Char) : Spot := ⟨text, .first, none⟩

/-- Behind the next character, if there is one. -/
def next (s : Spot) : Spot :=
  match s.rest with
  | [] => s
  | c :: cs => ⟨cs, s.place.after c, some c⟩

/-- Behind the characters of `taken`, which the rest of the text starts with. -/
def past (s : Spot) (taken : List Char) : Spot :=
  taken.foldl (fun s _ => s.next) s

/-- Behind all the next characters that satisfy `p`. -/
def pastWhile (s : Spot) (p : Char → Bool) : Spot := s.past (s.rest.takeWhile p)

/-- Spaces, tabs, carriage returns and form feeds: what may stand between tokens of a line. -/
def isGap (c : Char) : Bool := c = ' ' || c = '\t' || c = '\r' || c.toNat = 12

/-- Behind the blanks that come next on the line. -/
def pastGap (s : Spot) : Spot := s.pastWhile isGap

/-- The end of the line, in front of its newline. -/
def lineEnd (s : Spot) : Spot := s.pastWhile (· ≠ '\n')

/-- The text from inside a comment up to and with its closing mark. -/
def commentText? : List Char → Option (List Char)
  | [] => none
  | '*' :: '/' :: _ => some ['*', '/']
  | c :: cs => (commentText? cs).map (c :: ·)

/-- Behind the block comment that starts here, if it is closed. It does not nest. -/
def pastComment? (s : Spot) : Option Spot :=
  let inside := s.next.next
  (commentText? inside.rest).map inside.past

theorem rest_next (s : Spot) : s.next.rest = s.rest.drop 1 := by
  unfold next
  split <;> simp_all

theorem rest_past (s : Spot) (taken : List Char) :
    (s.past taken).rest = s.rest.drop taken.length := by
  induction taken generalizing s with
  | nil => simp [past]
  | cons c cs ih =>
    have h := ih s.next
    simp only [past, List.foldl_cons] at h ⊢
    rw [h, rest_next, List.drop_drop, List.length_cons, Nat.add_comm]

end Spot

end StoryLang
