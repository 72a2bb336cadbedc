import FrameGraph.Assembly.Basic
import FrameGraph.Catalog
import FrameGraph.CommandLine.Execute
import FrameGraph.Diagram
import FrameGraph.Inspect
import FrameGraph.Main
import FrameGraph.Schedule.Frame
import FrameGraph.Script.Parse
import FrameGraph.Session
import FrameGraph.Table.Interner
import FrameGraph.Timing.Profile
import FrameGraph.Window.Scope
import FrameGraph.World.Create
import FrameGraph.Proofs.Script.Derivation
import FrameGraph.Proofs.Script.Recognition
import FrameGraph.Proofs.Script.Acceptance
import FrameGraph.Proofs.Decimal.Bits
import FrameGraph.Proofs.Decimal.Reading
import FrameGraph.Proofs.Source.Lines
import FrameGraph.Proofs.Source.Bisection
import FrameGraph.Proofs.Script.Patterns
import FrameGraph.Proofs.Script.Spelling
import FrameGraph.Proofs.Script.Printing
import FrameGraph.Proofs.Script.Canonical
import FrameGraph.Proofs.Script.RoundTrip
import FrameGraph.Proofs.Schedule.Placement
import FrameGraph.Proofs.Schedule.Cycles
import FrameGraph.Proofs.Table.Slots
import FrameGraph.Proofs.Table.Validity
import FrameGraph.Proofs.Table.Refinement
import FrameGraph.Proofs.Behaviour.Confinement
import FrameGraph.Proofs.World.Ownership
import FrameGraph.Proofs.World.Release
import FrameGraph.Proofs.World.Pruning
import FrameGraph.Proofs.World.Creation
import FrameGraph.Proofs.World.Edits
import FrameGraph.Proofs.World.Gather
import FrameGraph.Proofs.World.Rooted
import FrameGraph.Proofs.Schedule.Wiring
import FrameGraph.Proofs.World.Reached
import FrameGraph.Proofs.Schedule.Faults
import FrameGraph.Proofs.Schedule.Building
import FrameGraph.Proofs.Schedule.Outcome
import FrameGraph.Proofs.Schedule.Dataflow
import FrameGraph.Proofs.World.Course
import FrameGraph.Proofs.World.Fading
import FrameGraph.Proofs.Schedule.Running
import FrameGraph.Proofs.Session.Lifecycle
import FrameGraph.Proofs.Script.Isolation
import FrameGraph.Proofs.Script.Declared
import FrameGraph.Proofs.Script.Longest
import FrameGraph.Proofs.Script.Munch
import FrameGraph.Proofs.World.Growth
import FrameGraph.Proofs.World.Shrinking
import FrameGraph.Proofs.Assembly.Connections
import FrameGraph.Proofs.Schedule.Compatibility
import FrameGraph.Proofs.World.Making
import FrameGraph.Proofs.World.Inputs
import FrameGraph.Proofs.Assembly.Effects
import FrameGraph.Proofs.Assembly.Account
import FrameGraph.Proofs.Script.Tiling
import FrameGraph.Proofs.Behaviour.Conformity
import FrameGraph.Proofs.World.Typing
import FrameGraph.Proofs.Schedule.Validation
import FrameGraph.Proofs.World.Farewells
import FrameGraph.Proofs.World.Chronicle
import FrameGraph.Proofs.World.Moments
import FrameGraph.Proofs.World.Stages
import FrameGraph.Proofs.Schedule.Attending
import FrameGraph.Proofs.Session.Scopes
import FrameGraph.Proofs.Script.LineBreaks
import FrameGraph.Proofs.Assembly.Repeats
import FrameGraph.Proofs.World.Enclosure
import FrameGraph.Proofs.World.Endings
import FrameGraph.Proofs.Script.Viability
import FrameGraph.Proofs.Script.Locality
import FrameGraph.Proofs.Script.Extents
import FrameGraph.Proofs.Script.Reports
import FrameGraph.Proofs.World.Freeing
import FrameGraph.Proofs.World.Occupancy
import FrameGraph.Proofs.World.Resolution
import FrameGraph.Proofs.Assembly.Parameters
import FrameGraph.Proofs.Assembly.Rewiring
import FrameGraph.Proofs.Assembly.Precedence
import FrameGraph.Proofs.Assembly.Reapplying
import FrameGraph.Proofs.Table.Capacity
import FrameGraph.Proofs.Script.Literals
import FrameGraph.Proofs.Script.Numerals
import FrameGraph.Proofs.Decimal.Shortness
import FrameGraph.Proofs.Script.Widths
import FrameGraph.Proofs.Schedule.Levels
import FrameGraph.Proofs.World.Naming
import FrameGraph.Proofs.World.Numbering
import FrameGraph.Proofs.Schedule.Severed
import FrameGraph.Proofs.Session.Additivity
import FrameGraph.Proofs.Table.Interning
import FrameGraph.Proofs.Timing.Profiling
import FrameGraph.Proofs.Catalog.Registration
import FrameGraph.Proofs.Catalog.Population
import FrameGraph.Proofs.Diagram.Picture
import FrameGraph.Proofs.Timing.Recurrence
import FrameGraph.Proofs.Table.Searches
import FrameGraph.Proofs.Image.Places
import FrameGraph.Proofs.Window.Coordinates
import FrameGraph.Proofs.Window.Resampling
import FrameGraph.Proofs.Window.Stamping
