import Tob.Library.Discipline
import Tob.Library.Related
import Tob.Library.JsonText
import Tob.Json.Unicode
import Tob.Json.Writer
import Tob.Json.Document
import Tob.Book.Refinement
import Tob.Book.Highlight
import Tob.Book.CachedEnd
import Tob.Book.Batch
import Tob.Book.Walk
import Tob.Wire.Masking
import Tob.Wire.Frame
import Tob.Wire.WireFrame
import Tob.Wire.RoundTrip
import Tob.Wire.Bounds
import Tob.Wire.Format
import Tob.Wire.Loops
import Tob.Wire.Prefix
import Tob.Diff.DiffLogic
import Tob.Diff.Messages
import Tob.Diff.Frames
import Tob.Diff.Boundaries
import Tob.Diff.Backlog
import Tob.Diff.Upgrade
import Tob.Diff.Output
import Tob.Diff.Generate
import Tob.Diff.Dispatch
import Tob.Diff.AllOrNothing
import Tob.Diff.Session
import Tob.Diff.Control
import Tob.Diff.Detection
import Tob.Snapshot.Receiver
import Tob.Snapshot.Header
import Tob.Snapshot.Fields
import Tob.Snapshot.Delivery
import Tob.Snapshot.Room
import Tob.Snapshot.Tls
import Tob.Snapshot.Unconsumed
import Tob.Snapshot.HeaderSearch
import Tob.Live.Gap
import Tob.Live.Partial
import Tob.Live.Retry
import Tob.Live.Scaling
import Tob.System.Display
import Tob.System.Progress
