import Treewalk.Number.Layout
import Treewalk.Number.Remainder
import Treewalk.Bindings
import Treewalk.Text.Lines
import Treewalk.Text.Quoted
import Treewalk.Token.Scan
import Treewalk.Reporter
import Treewalk.Tree.Outline
import Treewalk.CompiledUnit
import Treewalk.Tree.Grammar
import Treewalk.Value.Operators
import Treewalk.Files
import Treewalk.Eval.Tree
import Treewalk.Program
import Treewalk.Proofs.Grammar.Derivation
import Treewalk.Proofs.Grammar.Reading
import Treewalk.Proofs.Grammar.Soundness
import Treewalk.Proofs.Grammar.Completeness
import Treewalk.Proofs.Scopes.Position
import Treewalk.Proofs.Scopes.Nodes
import Treewalk.Proofs.Scopes.Shape
import Treewalk.Proofs.Watching
import Treewalk.Proofs.Scopes.Visits
import Treewalk.Proofs.Scopes.Agreement
import Treewalk.Proofs.Scopes.Placement
import Treewalk.Proofs.Scopes.Lookup
import Treewalk.Proofs.Scopes.Resolution
import Treewalk.Proofs.Scopes.Units
import Treewalk.Proofs.Scopes.Tables
import Treewalk.Proofs.Run.Events
import Treewalk.Proofs.Run.Erasure
import Treewalk.Proofs.Scopes.Housing
import Treewalk.Proofs.Run.Standing
import Treewalk.Proofs.Run.Invariant
import Treewalk.Proofs.Run.Steps
import Treewalk.Proofs.Run.Calm
import Treewalk.Proofs.Run.Objects
import Treewalk.Proofs.Run.Calls
import Treewalk.Proofs.Run.Modules
import Treewalk.Proofs.Run.Safety
import Treewalk.Proofs.Run.Environments
import Treewalk.Proofs.Run.Constants
import Treewalk.Proofs.Run.Homes
import Treewalk.Proofs.Control.Handlers
import Treewalk.Proofs.Control.Quiet
import Treewalk.Proofs.Control.Signals
import Treewalk.Proofs.Control.Taking
import Treewalk.Proofs.Control.Sessions
import Treewalk.Proofs.Twins.Moved
import Treewalk.Proofs.Twins.Worlds
import Treewalk.Proofs.Twins.Steps
import Treewalk.Proofs.Twins.Runs
import Treewalk.Proofs.Twins.Rejection
import Treewalk.Proofs.Pieces.Scanning
import Treewalk.Proofs.Pieces.Carrying
import Treewalk.Proofs.Pieces.Resolving
import Treewalk.Proofs.Pieces.Joining
import Treewalk.Proofs.Pieces.Running
import Treewalk.Proofs.Pieces.Sessions
import Treewalk.Proofs.Run.Units
import Treewalk.Proofs.Loading.Loads
import Treewalk.Proofs.Loading.Invariant
import Treewalk.Proofs.Loading.Steps
import Treewalk.Proofs.Loading.Runs
import Treewalk.Proofs.Loading.Sessions
import Treewalk.Proofs.Reach.Things
import Treewalk.Proofs.Reach.Frames
import Treewalk.Proofs.Reach.Steps
import Treewalk.Proofs.Reach.Runs
import Treewalk.Proofs.Reach.Owners
import Treewalk.Proofs.Reach.Sessions
import Treewalk.Proofs.Loading.Course
import Treewalk.Proofs.Scopes.Bare
import Treewalk.Proofs.Scopes.Constants
import Treewalk.Proofs.Loading.Constants
import Treewalk.Proofs.Loading.Identity
import Treewalk.Proofs.Control.Prompt
import Treewalk.Proofs.Scanning.Stretches
import Treewalk.Proofs.Control.Status
import Treewalk.Proofs.Scopes.Lexical
import Treewalk.Proofs.Loading.Unbound
import Treewalk.Proofs.Scopes.Keywords
import Treewalk.Proofs.Scopes.OwnInitial
import Treewalk.Proofs.Methods.Initializers
import Treewalk.Proofs.Methods.Super
import Treewalk.Proofs.Scanning.Positions
import Treewalk.Proofs.Scanning.Strings
import Treewalk.Proofs.Scanning.Spelling
import Treewalk.Proofs.Grammar.Tracing
import Treewalk.Proofs.Grammar.Progress
import Treewalk.Proofs.Grammar.Following
import Treewalk.Proofs.Grammar.Recovery
import Treewalk.Proofs.Scanning.Breaks
import Treewalk.Proofs.Control.Lawful
import Treewalk.Proofs.Control.Imports
import Treewalk.Proofs.Loops.WrittenOut
import Treewalk.Proofs.Loops.Pairing
import Treewalk.Proofs.Loops.Limits
import Treewalk.Proofs.Loops.Steps
import Treewalk.Proofs.Loops.Runs
import Treewalk.Proofs.Loops.Resolving
import Treewalk.Proofs.Loops.Diagonal
import Treewalk.Proofs.Loops.Rounds
import Treewalk.Proofs.Loops.Replacing
import Treewalk.Proofs.Loops.Units
import Treewalk.Proofs.Loops.Faithful
import Treewalk.Proofs.Scopes.Written
import Treewalk.Proofs.Scanning.Names
import Treewalk.Proofs.Control.ImportNames
import Treewalk.Proofs.Outlines.Forms
import Treewalk.Proofs.Outlines.Numbers
import Treewalk.Proofs.Outlines.Expressions
import Treewalk.Proofs.Parentheses.Trees
import Treewalk.Proofs.Parentheses.Resolving
import Treewalk.Proofs.Parentheses.Steps
import Treewalk.Proofs.Parentheses.Runs
import Treewalk.Proofs.Parentheses.Units
import Treewalk.Proofs.Renaming.Trees
import Treewalk.Proofs.Renaming.Read
import Treewalk.Proofs.Renaming.Scopes
import Treewalk.Proofs.Renaming.Resolving
import Treewalk.Proofs.Renaming.Worlds
import Treewalk.Proofs.Renaming.Steps
import Treewalk.Proofs.Renaming.Runs
import Treewalk.Proofs.Renaming.Units
import Treewalk.Proofs.Run.Throughout
import Treewalk.Proofs.Loading.Directories
import Treewalk.Proofs.Control.Blaming
import Treewalk.Proofs.Control.Arising
import Treewalk.Proofs.Scopes.Restoring
import Treewalk.Proofs.Chains.Walks
import Treewalk.Proofs.Chains.Sessions
