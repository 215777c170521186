import Racez.Buffer.Basic
import Racez.Buffer.Flush
import Racez.Buffer.Interleaving
import Racez.Container.BoundedBag
import Racez.Container.OrderedMap
import Racez.Container.OrderedSet
import Racez.Container.SortedVector
import Racez.Convert.Addresses
import Racez.Convert.Alignment
import Racez.Convert.Basic
import Racez.Convert.Covering
import Racez.Convert.Floor
import Racez.Convert.MemoryOps
import Racez.Convert.Spec
import Racez.Convert.SymbolErrors
import Racez.Convert.SymbolRows
import Racez.Convert.Symbols
import Racez.Detect.Conflicts
import Racez.Detect.Core
import Racez.Detect.Deletion
import Racez.Detect.Forget
import Racez.Detect.Independence
import Racez.Detect.Invariant
import Racez.Detect.Justified
import Racez.Detect.Merge
import Racez.Detect.Monotone
import Racez.Detect.Offline
import Racez.Detect.Report
import Racez.Detect.StaleSize
import Racez.Eraser.Discipline
import Racez.Hooks.AllocOrder
import Racez.Hooks.Calls
import Racez.Hooks.Lifecycle
import Racez.Hooks.Logged
import Racez.Hooks.Logging
import Racez.Hooks.Producers
import Racez.Hooks.Sampling
import Racez.Hooks.SignalHandler
import Racez.Hooks.StartFailure
import Racez.Hooks.Stop
import Racez.Lockset.Basic
import Racez.Lockset.Failure
import Racez.Lockset.Hooks
import Racez.Lockset.Interrupt
import Racez.Lockset.Refinement
import Racez.Lockset.Statements
import Racez.Lockset.Trylock
import Racez.Matching.Greedy
import Racez.Profile.Reader
import Racez.Profile.RoundTrip
import Racez.Record.Basic
import Racez.Simulate.Accesses
import Racez.Simulate.Attribution
import Racez.Simulate.Effects
import Racez.Simulate.FileTable
import Racez.Simulate.Guarded
import Racez.Simulate.Host
import Racez.Simulate.Located
import Racez.Simulate.Order
import Racez.Simulate.Pass
import Racez.Simulate.Pollution
import Racez.Simulate.Rebuild
import Racez.Simulate.RipRelative
import Racez.Simulate.Seen
import Racez.Simulate.Session
import Racez.Simulate.Sound
import Racez.Simulate.Spec
import Racez.Simulate.Workers
import Racez.Stdio.Lines
import Racez.Stdio.Numerals
import Racez.Transition.Halting
import Racez.Transition.Run
import Racez.Transition.Tickets
import Racez.X86.Machine
