/-
Message templates: every `{}` of a template stands for a value.

Values are put in from left to right. What was put in is not looked at again,
so a value that holds `{}` comes out as it is, and places beyond the last
value stay as they are written.
-/

namespace StoryLang.Text

/-- Fills the places of a template. -/
def fillChars : List Char → List String → List Char
  | '{' :: '}' :: rest, v :: values => v.toList ++ fillChars rest values
  | '{' :: '}' :: rest, [] => '{' :: '}' :: fillChars rest []
  | c :: rest, values => c :: fillChars rest values
  | [], _ => []

/-- The template with its places filled by the values in order. -/
def fill (template : String) (values : List String) : String :=
  String.ofList (fillChars template.toList values)

end StoryLang.Text
