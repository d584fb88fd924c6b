/-
The grammar of the language itself: its text, and the tables the text declares.
-/
import StoryLang.Grammar.Basic

namespace StoryLang.Grammar

/-- The text of the built-in grammar. -/
def builtInSource : String := "# Storyscript grammar tables.
#
#   keyword  <name> <spelling>
#   operator <precedence> <left|right|none> <operator>...
#   unary    <precedence> <operator>...
#   cast     <precedence>
#   reserved <word>...
#   type     <name>...

keyword if if
keyword else else
keyword foreach foreach
keyword while while
keyword as as
keyword try try
keyword catch catch
keyword finally finally
keyword throw throw
keyword function function
keyword returns returns
keyword return return
keyword break break
keyword continue continue
keyword import import
keyword when when
keyword then then
keyword and and
keyword or or
keyword not not
keyword true true
keyword false false
keyword null null

operator 1 left or
operator 2 left and
operator 3 none == !=
operator 4 none < <= > >=
operator 5 left + -
operator 6 left * / %
operator 7 right ^
unary 2 not
unary 8 -
cast 9

reserved async story assert called mock

type int float string boolean any object function regex time list map
"

/-- The built-in grammar: every keyword is spelled as it is called. -/
def builtIn : Grammar where
  source := builtInSource
  keywords := (Keyword.all.map fun k => (k.name, k)).reverse
  spellings := (Keyword.all.map fun k => (k, k.name)).reverse
  operators :=
    { between :=
        [⟨.keyword .orWord, 1, .left⟩, ⟨.keyword .andWord, 2, .left⟩,
          ⟨.symbol .equal, 3, .none⟩, ⟨.symbol .notEqual, 3, .none⟩,
          ⟨.symbol .lesser, 4, .none⟩, ⟨.symbol .lesserEqual, 4, .none⟩,
          ⟨.symbol .greater, 4, .none⟩, ⟨.symbol .greaterEqual, 4, .none⟩,
          ⟨.symbol .plus, 5, .left⟩, ⟨.symbol .minus, 5, .left⟩,
          ⟨.symbol .star, 6, .left⟩, ⟨.symbol .slash, 6, .left⟩, ⟨.symbol .percent, 6, .left⟩,
          ⟨.symbol .caret, 7, .right⟩]
      before := [⟨.keyword .notWord, 2, .right⟩, ⟨.symbol .minus, 8, .right⟩] }
  castPrecedence := 9
  reserved := ["async", "story", "assert", "called", "mock"]
  typeNames :=
    ["int", "float", "string", "boolean", "any", "object", "function", "regex", "time", "list",
      "map"]

end StoryLang.Grammar
