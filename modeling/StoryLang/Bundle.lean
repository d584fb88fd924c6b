/-
Bundles: stories that are compiled together.

The stories of a bundle have only the options in common. One that fails, or
whose file cannot be read, does not stop the others.
-/
import StoryLang.Folder.Basic

namespace StoryLang

/-- Stories by name, and the files that could not be read by path. -/
structure Bundle where
  stories : NameMap Story
  unreadable : NameMap Fault

namespace Bundle

/-- No stories. -/
def empty : Bundle := ⟨.empty, .empty⟩

/-- One more story. It replaces a story of the same name. -/
def add (b : Bundle) (s : Story) : Bundle := { b with stories := b.stories.insert s.name s }

/-- The bundle of some stories. -/
def ofStories (stories : List Story) : Bundle := stories.foldl add empty

/-- One more file of a folder. -/
def addFile (f : Folder) (b : Bundle) (path : String) : Bundle :=
  match f.story path with
  | .ok s => b.add s
  | .error fault => { b with unreadable := b.unreadable.insert path fault }

/-- The bundle of some files of a folder. -/
def ofFiles (f : Folder) (paths : List String) : Bundle := paths.foldl (addFile f) empty

/-- How many stories there are, those that could not be read as well. -/
def size (b : Bundle) : Nat := b.stories.entries.length + b.unreadable.entries.length

def isEmpty (b : Bundle) : Bool := b.size = 0

/-- What stories give, and what files that could not be read do. -/
def gather {α : Type} (b : Bundle) (ofStory : Story → α) (ofFault : String → Fault → α) :
    NameMap α :=
  let read : NameMap α := ⟨b.stories.entries.map fun (name, s) => (name, ofStory s)⟩
  b.unreadable.entries.foldl (fun m (path, fault) => m.insert path (ofFault path fault)) read

/-- The outcomes of the stories. -/
def compile (b : Bundle) (o : Options) : NameMap Outcome :=
  b.gather (·.compile o) fun path fault => .failed path fault.diagnostic

/-- The tokens of the stories. -/
def tokens (b : Bundle) (o : Options) : NameMap (Except Diagnostic (List Token)) :=
  b.gather (·.tokens o) fun path fault => .error (fault.diagnostic.inStory path)

end Bundle

/-- The outcomes of the stories of a bundle. -/
abbrev Outcomes : Type := NameMap Outcome

namespace Outcomes

/-- The errors of all stories. -/
def errors (o : Outcomes) : List Diagnostic := o.values.flatMap Outcome.errors

/-- The outcome of the only story. -/
def only? (o : Outcomes) : Option Outcome :=
  match o.entries with
  | [(_, outcome)] => some outcome
  | _ => none

/-- The stories that are compiled, by name. -/
def compiled (o : Outcomes) : List (String × CompiledStory) :=
  o.entries.filterMap fun (name, outcome) => outcome.compiled.map (name, ·)

/-- The services of all stories. -/
def services (o : Outcomes) : List String :=
  (NameMap.ofList (o.compiled.flatMap fun (_, c) => c.services.map (·, ()))).names

/-- The document of a bundle. Stories that failed are left out. -/
def document (o : Outcomes) (concise : Bool) : Json :=
  let whole := Json.obj
    [("stories", .obj (o.compiled.map fun (name, c) => (name, c.toJson))),
     ("services", .arr (o.services.map .str)),
     ("entrypoint", .arr (o.compiled.map fun (name, _) => .str name))]
  if concise then whole.clean else whole

end Outcomes

end StoryLang
