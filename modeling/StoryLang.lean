import StoryLang.Bundle
import StoryLang.Check.Basic
import StoryLang.Check.Call
import StoryLang.Check.Statement
import StoryLang.Check.Value
import StoryLang.Coord
import StoryLang.Decimal.Binary64
import StoryLang.Decimal.Shortest
import StoryLang.Diagnostic.Basic
import StoryLang.Diagnostic.Code
import StoryLang.Fault
import StoryLang.Features
import StoryLang.Folder.Basic
import StoryLang.Grammar.Basic
import StoryLang.Grammar.BuiltIn
import StoryLang.Hoist.Basic
import StoryLang.Hoist.Issued
import StoryLang.Hoist.Pieces
import StoryLang.Hub.Basic
import StoryLang.Hub.Document
import StoryLang.Json.Basic
import StoryLang.Json.Printer
import StoryLang.Json.Reader
import StoryLang.Options
import StoryLang.Position
import StoryLang.Proofs.Check.Again.Statement
import StoryLang.Proofs.Check.Again.Value
import StoryLang.Proofs.Check.Arguments
import StoryLang.Proofs.Check.Around
import StoryLang.Proofs.Check.Contract
import StoryLang.Proofs.Check.Declared
import StoryLang.Proofs.Check.Known.Statement
import StoryLang.Proofs.Check.Known.Value
import StoryLang.Proofs.Check.Literal
import StoryLang.Proofs.Check.Noted.Statement
import StoryLang.Proofs.Check.Noted.Value
import StoryLang.Proofs.Check.Outputs
import StoryLang.Proofs.Check.Paired.Statement
import StoryLang.Proofs.Check.Paired.Value
import StoryLang.Proofs.Check.Place
import StoryLang.Proofs.Check.Retold
import StoryLang.Proofs.Check.Sight.Basic
import StoryLang.Proofs.Check.Sight.Statement
import StoryLang.Proofs.Check.Statement
import StoryLang.Proofs.Check.Stays
import StoryLang.Proofs.Check.Steps
import StoryLang.Proofs.Coord
import StoryLang.Proofs.Diagnostic.Caret
import StoryLang.Proofs.Fault
import StoryLang.Proofs.Features
import StoryLang.Proofs.Follows
import StoryLang.Proofs.Grammar.Declared
import StoryLang.Proofs.Grammar.Keywords
import StoryLang.Proofs.Hoist.Again
import StoryLang.Proofs.Hoist.Alike
import StoryLang.Proofs.Hoist.Calls
import StoryLang.Proofs.Hoist.Code
import StoryLang.Proofs.Hoist.Guards
import StoryLang.Proofs.Hoist.Issued
import StoryLang.Proofs.Hoist.Job
import StoryLang.Proofs.Hoist.Normal
import StoryLang.Proofs.Hoist.Outline
import StoryLang.Proofs.Hoist.Pieces
import StoryLang.Proofs.Hoist.Placement
import StoryLang.Proofs.Hoist.Plain
import StoryLang.Proofs.Hoist.Read
import StoryLang.Proofs.Hoist.Restore
import StoryLang.Proofs.Hoist.Sound
import StoryLang.Proofs.Hoist.Variables
import StoryLang.Proofs.Json.Clean
import StoryLang.Proofs.Ranged.Check
import StoryLang.Proofs.Ranged.Hoist
import StoryLang.Proofs.Ranged.Scan
import StoryLang.Proofs.Ranged.Tree
import StoryLang.Proofs.Respell.Checking
import StoryLang.Proofs.Respell.Header
import StoryLang.Proofs.Respell.Hoist
import StoryLang.Proofs.Respell.Scan
import StoryLang.Proofs.Respell.Text
import StoryLang.Proofs.Respell.Typing
import StoryLang.Proofs.Respell.Writing
import StoryLang.Proofs.Script.Called
import StoryLang.Proofs.Script.Concise
import StoryLang.Proofs.Script.Defect
import StoryLang.Proofs.Script.Kept
import StoryLang.Proofs.Script.Known
import StoryLang.Proofs.Script.Laid
import StoryLang.Proofs.Script.Named
import StoryLang.Proofs.Script.OfTree
import StoryLang.Proofs.Script.Operators
import StoryLang.Proofs.Script.Record
import StoryLang.Proofs.Script.Stands
import StoryLang.Proofs.Script.ToldApart
import StoryLang.Proofs.Story.Blocks
import StoryLang.Proofs.Story.Concise
import StoryLang.Proofs.Story.Escaped
import StoryLang.Proofs.Story.Known
import StoryLang.Proofs.Story.Listening
import StoryLang.Proofs.Story.Outline
import StoryLang.Proofs.Story.Padded
import StoryLang.Proofs.Story.Plain
import StoryLang.Proofs.Story.Quotes
import StoryLang.Proofs.Story.Respelled
import StoryLang.Proofs.Story.Result
import StoryLang.Proofs.Story.Returns
import StoryLang.Proofs.Story.Sourced
import StoryLang.Proofs.Story.Stops
import StoryLang.Proofs.Text.Distance
import StoryLang.Proofs.Text.Lines
import StoryLang.Proofs.Text.Number
import StoryLang.Proofs.Token.Abreast
import StoryLang.Proofs.Token.Comment
import StoryLang.Proofs.Token.CommentLine
import StoryLang.Proofs.Token.Extended
import StoryLang.Proofs.Token.Follow
import StoryLang.Proofs.Token.Interpolates
import StoryLang.Proofs.Token.Interpolation
import StoryLang.Proofs.Token.Layout
import StoryLang.Proofs.Token.Led
import StoryLang.Proofs.Token.Literal
import StoryLang.Proofs.Token.Moves
import StoryLang.Proofs.Token.Opens
import StoryLang.Proofs.Token.Reach
import StoryLang.Proofs.Token.Region
import StoryLang.Proofs.Token.Reindent
import StoryLang.Proofs.Token.Relocated
import StoryLang.Proofs.Token.Returns
import StoryLang.Proofs.Token.ReturnsScan
import StoryLang.Proofs.Token.Reworded
import StoryLang.Proofs.Token.Shared
import StoryLang.Proofs.Token.Spelled
import StoryLang.Proofs.Token.Steps
import StoryLang.Proofs.Token.Taken
import StoryLang.Proofs.Token.Transcript
import StoryLang.Proofs.Tree.Alike
import StoryLang.Proofs.Tree.Alone
import StoryLang.Proofs.Tree.Blocks
import StoryLang.Proofs.Tree.Climbing
import StoryLang.Proofs.Tree.Derivation
import StoryLang.Proofs.Tree.Fork.Basic
import StoryLang.Proofs.Tree.Fork.Expected
import StoryLang.Proofs.Tree.Fork.Line
import StoryLang.Proofs.Tree.Fork.Value
import StoryLang.Proofs.Tree.Form
import StoryLang.Proofs.Tree.Hole
import StoryLang.Proofs.Tree.Jumps
import StoryLang.Proofs.Tree.Layers
import StoryLang.Proofs.Tree.Like
import StoryLang.Proofs.Tree.Marks
import StoryLang.Proofs.Tree.Names
import StoryLang.Proofs.Tree.Outline
import StoryLang.Proofs.Tree.Precedence
import StoryLang.Proofs.Tree.Progress
import StoryLang.Proofs.Tree.ReadBack
import StoryLang.Proofs.Tree.Reading.Statement
import StoryLang.Proofs.Tree.Reading.Value
import StoryLang.Proofs.Tree.Returns
import StoryLang.Proofs.Tree.Steps
import StoryLang.Proofs.Tree.Stops
import StoryLang.Proofs.Tree.Together
import StoryLang.Proofs.Tree.Walks
import StoryLang.Proofs.Tree.Yield
import StoryLang.Proofs.Ty.Accepts
import StoryLang.Proofs.Ty.Text
import StoryLang.Ranged.Basic
import StoryLang.Ranged.Check
import StoryLang.Ranged.Hoist
import StoryLang.Ranged.Scan
import StoryLang.Ranged.Tree
import StoryLang.Scope
import StoryLang.Script.Basic
import StoryLang.Script.OfTree
import StoryLang.Script.OfValue
import StoryLang.Script.Value
import StoryLang.Story.Basic
import StoryLang.Text.Blank
import StoryLang.Text.Distance
import StoryLang.Text.Names
import StoryLang.Text.Number
import StoryLang.Text.Quoted
import StoryLang.Text.Template
import StoryLang.Token.Basic
import StoryLang.Token.Fault
import StoryLang.Token.Kind
import StoryLang.Token.Quotes
import StoryLang.Token.Scan
import StoryLang.Token.Spot
import StoryLang.Tree.Basic
import StoryLang.Tree.Cursor
import StoryLang.Tree.Printer
import StoryLang.Tree.Rule
import StoryLang.Tree.Shape
import StoryLang.Tree.Statement
import StoryLang.Tree.Value
import StoryLang.Ty.Basic
import StoryLang.Ty.Operation
import StoryLang.Ty.Reader
