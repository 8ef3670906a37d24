import FineGrain.Text.Span
import FineGrain.Text.Edit
import FineGrain.Names
import FineGrain.AnonymousFunction
import FineGrain.Alias
import FineGrain.Options
import FineGrain.Hook.Children
import FineGrain.Text.Identifier
import FineGrain.Grammar.Read.Expression
import FineGrain.Grammar.Read.Markup
import FineGrain.Grammar.Read.Class
import FineGrain.Grammar.Program
import FineGrain.Lexical.Event
import FineGrain.Lexical.Free
import FineGrain.Rewrite.Draft
import FineGrain.Rewrite.Setting
import FineGrain.Rewrite.Attribute
import FineGrain.Rewrite.Tree
import FineGrain.Transform
import FineGrain.Toml.Document
import FineGrain.Options.Document
import FineGrain.World.Owned
import FineGrain.World.Memo
import FineGrain.World.Task
import FineGrain.Program.Eval
import FineGrain.Files.Disk
import FineGrain.Command.Run
import FineGrain.Main
import FineGrain.Proofs.Memo.System
import FineGrain.Proofs.Hook.System
import FineGrain.Proofs.Text.Weave
import FineGrain.Proofs.Rewrite.Account
import FineGrain.Proofs.Rewrite.Importing
import FineGrain.Proofs.Rewrite.Rendering
import FineGrain.Proofs.Course.Basic
import FineGrain.Proofs.Course.Punctual
import FineGrain.Proofs.Course.Kinds
import FineGrain.Proofs.Course.UnderWay
import FineGrain.Proofs.Course.Memos
import FineGrain.Proofs.Course.Neat
import FineGrain.Proofs.Course.Follows
import FineGrain.Proofs.Course.Reading
import FineGrain.Proofs.Course.Owning
import FineGrain.Proofs.Course.Effects
import FineGrain.Proofs.Course.Hooks
import FineGrain.Proofs.Course.States
import FineGrain.Proofs.Course.Programs
import FineGrain.Proofs.Course.Wakeups
import FineGrain.Proofs.Course.Cleanups
import FineGrain.Proofs.Course.Adjoining
import FineGrain.Proofs.Course.Subscriptions
import FineGrain.Proofs.Course.Batches
import FineGrain.Proofs.Course.Coalescing
import FineGrain.Proofs.Propagation.Rest
import FineGrain.Proofs.Course.Disposal
import FineGrain.Proofs.Rewrite.Passing
import FineGrain.Proofs.Reactive.Clients
import FineGrain.Proofs.Rewrite.Matching
import FineGrain.Proofs.World.Indifference
import FineGrain.Proofs.Program.Value
import FineGrain.Proofs.Course.Turns
import FineGrain.Proofs.Course.Scopes
import FineGrain.Proofs.Command.Planning
import FineGrain.Proofs.Command.Writing
import FineGrain.Proofs.Command.Mirroring
import FineGrain.Proofs.Command.InPlace
import FineGrain.Proofs.Rewrite.Units
import FineGrain.Proofs.Grammar.Literal
import FineGrain.Proofs.Rewrite.Reading
import FineGrain.Proofs.Course.Reentrance
import FineGrain.Proofs.AnonymousFunction.Skipping
import FineGrain.Proofs.Lexical.OnePass
import FineGrain.Proofs.Text.Recording
import FineGrain.Proofs.Text.Splicing
import FineGrain.Proofs.Names
import FineGrain.Proofs.Names.Calls
import FineGrain.Proofs.AnonymousFunction.Scanning
import FineGrain.Proofs.AnonymousFunction.Replacing
import FineGrain.Proofs.AnonymousFunction.Bytes
import FineGrain.Proofs.AnonymousFunction.Naming
import FineGrain.Proofs.Hook.Arrivals
import FineGrain.Proofs.Course.Priorities
import FineGrain.Proofs.World.Closure
import FineGrain.Proofs.Hook.Closure
import FineGrain.Proofs.World.Release
import FineGrain.Proofs.Course.Silence
import FineGrain.Proofs.Course.Changing
import FineGrain.Proofs.Course.Flushing
import FineGrain.Proofs.Course.Queue
import FineGrain.Proofs.Course.Coherence
import FineGrain.Proofs.Command.Configuring
import FineGrain.Proofs.Rewrite.Keeping
import FineGrain.Proofs.Rewrite.Hygiene
import FineGrain.Proofs.Rewrite.Spelling
