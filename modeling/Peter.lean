import Peter.Actions
import Peter.ArgSplit
import Peter.Bookkeeping
import Peter.Bounds
import Peter.Buffer
import Peter.Chunks
import Peter.Cipher
import Peter.Closing
import Peter.Control
import Peter.Cursors
import Peter.Deaths
import Peter.Durations
import Peter.Exclusion
import Peter.Exits
import Peter.Forging
import Peter.Framing
import Peter.Isolation
import Peter.KeyUse
import Peter.Launch
import Peter.Layout
import Peter.Lib.Amortized
import Peter.Lib.BreadthFirst
import Peter.Lib.Faults
import Peter.Lib.Loops
import Peter.Lib.MixedRadix
import Peter.Lib.Quoted
import Peter.Load
import Peter.Lookups
import Peter.Moves
import Peter.Orders
import Peter.PadUse
import Peter.PidFile
import Peter.Placeholders
import Peter.Progress
import Peter.Queue
import Peter.Reaping
import Peter.Refusals
import Peter.Remote
import Peter.Replacing
import Peter.Restart
import Peter.Runtimes
import Peter.Sealed
import Peter.Search
import Peter.Sections
import Peter.Sequences
import Peter.Several
import Peter.Shutdown
import Peter.Splitter
import Peter.StartLimit
import Peter.Startup
import Peter.Stops
import Peter.Termination
