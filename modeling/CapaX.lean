import CapaX.Collections.OrdSet
import CapaX.Collections.IndexMap
import CapaX.Collections.OrdMap
import CapaX.Control.Except
import CapaX.Control.Interleaving
import CapaX.Graphs.Dfs
import CapaX.Graphs.Chain
import CapaX.Address
import CapaX.Features
import CapaX.Freeze
import CapaX.Rules.Scope
import CapaX.Rules.Node
import CapaX.Rules.Supported
import CapaX.Rules.Text
import CapaX.Rules.Grammar
import CapaX.Rules.Meta
import CapaX.Rules.Graph
import CapaX.Rules.Acceptance
import CapaX.Engine
import CapaX.Engine.Reading
import CapaX.Engine.FeatureSets
import CapaX.Engine.Evidence
import CapaX.Engine.Alike
import CapaX.Engine.ShortCircuit
import CapaX.Engine.Passes
import CapaX.Capabilities.Expansion
import CapaX.Capabilities.Extraction
import CapaX.Capabilities.Optimizer
import CapaX.Capabilities.Ruleset
import CapaX.Capabilities.Indexing
import CapaX.Capabilities.Matching
import CapaX.Capabilities.Order
import CapaX.Capabilities.Names
import CapaX.Capabilities.ScopeOrder
import CapaX.Capabilities.Failure
import CapaX.Parallel
import CapaX.Capabilities.Drivers
import CapaX.Capabilities.StaticAnalysis
import CapaX.Capabilities.Meaning
import CapaX.Capabilities.Unfolding
import CapaX.Dotnet.Names
import CapaX.Dotnet.Resolution
import CapaX.Engine.Locations
import CapaX.Capabilities.DynamicAnalysis
import CapaX.Capabilities.Gathering
import CapaX.Capabilities.SpanOfCalls
import CapaX.Capabilities.DynamicSubscopes
import CapaX.Capabilities.Recording
import CapaX.Capabilities.StaticMeaning
import CapaX.Graphs.Recursion
import CapaX.ResultDocument
import CapaX.ResultDocument.Splicing
import CapaX.ResultDocument.Tracing
import CapaX.ResultDocument.Ambiguity
import CapaX.Graphs.Worklist
import CapaX.Recovery.Image
import CapaX.Recovery.Flow
import CapaX.Recovery.Closure
import CapaX.Control.Logged
import CapaX.ElfOs.Reading
import CapaX.ElfOs.Headers
import CapaX.ElfOs.Detection
import CapaX.ElfOs.Bounds
import CapaX.ElfOs.Memory
import CapaX.Recovery.Seeds
import CapaX.Recovery.Switch
import CapaX.Recovery.Dispatch
import CapaX.Recovery.Views
import CapaX.Rules.Integers
import CapaX.Rules.Built
import CapaX.Rules.WellScoped
import CapaX.Rules.Vocabulary
import CapaX.Rules.Descriptions
import CapaX.Capabilities.TagFilter
import CapaX.Wire.Json
import CapaX.Wire.Rendered
import CapaX.Wire.Frozen
import CapaX.Wire.RoundTrip
import CapaX.Graphs.Components
import CapaX.Recovery.Loops
import CapaX.Collections.Indices
import CapaX.Recovery.Signatures
import CapaX.Control.Stateful
import CapaX.Recovery.Libraries
import CapaX.Recovery.FirstWins
import CapaX.Isa.A64
import CapaX.Recovery.ArmSwitch
import CapaX.Recovery.Recover
import CapaX.Recovery.Accessor
import CapaX.Extract.Carve
import CapaX.Extract.Strings
import CapaX.Isa.A64Load
import CapaX.Recovery.PltStub
import CapaX.Collections.Intervals
import CapaX.Recovery.Locations
import CapaX.Loader.Mapping
import CapaX.Loader.DelayImports
import CapaX.Loader.Load
import CapaX.Loader.Bounds
import CapaX.Recovery.Blocks
import CapaX.Aarch64.Materialize
import CapaX.Aarch64.Operands
import CapaX.Isa.X86
import CapaX.Emucode.State
import CapaX.Emucode.Agreement
import CapaX.Emucode.Values
import CapaX.Emucode.Step
import CapaX.Codec.Leb128
import CapaX.Recovery.FunctionStarts
import CapaX.Dotnet.Nesting
import CapaX.Recovery.TailBlocks
import CapaX.Codec.Words
import CapaX.ElfOs.GnuHash
import CapaX.ElfOs.ImportNames
import CapaX.Graphs.Reaching
import CapaX.Recovery.SwitchBase
import CapaX.Control.Budget
import CapaX.Loader.ChainedFixups
import CapaX.Loader.FixupTables
import CapaX.Codec.Carried
import CapaX.Wire.Document
import CapaX.Wire.Listing
import CapaX.Wire.Rewriting
import CapaX.Wire.Reordering
import CapaX.Capabilities.DynamicOrder
import CapaX.ResultDocument.Sites
import CapaX.ResultDocument.DynamicSites
import CapaX.ResultDocument.Layout
import CapaX.ResultDocument.DynamicTracing
import CapaX.ResultDocument.Lookups
import CapaX.Render.Capabilities
import CapaX.Api
import CapaX.Api.Meaning
import CapaX.Emucode.Verdict
import CapaX.ResultDocument.RuleMetadata
import CapaX.Codec.Fields
import CapaX.ResultDocument.Written
import CapaX.ResultDocument.Reread
