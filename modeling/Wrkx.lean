import Wrkx.Base.Blocks
import Wrkx.Base.Bounded
import Wrkx.Base.CString
import Wrkx.Base.Framing
import Wrkx.Base.HalvingTicks
import Wrkx.Base.History
import Wrkx.Base.HttpText
import Wrkx.Base.Keyword
import Wrkx.Base.LogLinear
import Wrkx.Base.OrderStatistic
import Wrkx.Base.Rate
import Wrkx.Base.Ring
import Wrkx.Base.Run
import Wrkx.Base.Separated
import Wrkx.Base.Significand
import Wrkx.Base.Word
import Wrkx.Connection.Acts
import Wrkx.Connection.Backend
import Wrkx.Connection.Batches
import Wrkx.Connection.Buffer
import Wrkx.Connection.Callbacks
import Wrkx.Connection.Chains
import Wrkx.Connection.CleanClose
import Wrkx.Connection.Delivery
import Wrkx.Connection.Errors
import Wrkx.Connection.Frame
import Wrkx.Connection.Growth
import Wrkx.Connection.Handlers
import Wrkx.Connection.Interchange
import Wrkx.Connection.Latency
import Wrkx.Connection.Machine
import Wrkx.Connection.Overflow
import Wrkx.Connection.Pacing
import Wrkx.Connection.ParsedReads
import Wrkx.Connection.Plan
import Wrkx.Connection.Reading
import Wrkx.Connection.Recorded
import Wrkx.Connection.Requests
import Wrkx.Connection.Response
import Wrkx.Connection.Sample
import Wrkx.Connection.Shape
import Wrkx.Connection.State
import Wrkx.Connection.Streams
import Wrkx.Connection.Timing
import Wrkx.Connection.Turns
import Wrkx.Connection.Wire
import Wrkx.Hdr.Counters
import Wrkx.Hdr.Equivalent
import Wrkx.Hdr.Filled
import Wrkx.Hdr.Histogram
import Wrkx.Hdr.Iterator
import Wrkx.Hdr.Mean
import Wrkx.Hdr.Merge
import Wrkx.Hdr.PercentileIter
import Wrkx.Hdr.Recording
import Wrkx.Hdr.Sizing
import Wrkx.Hdr.Slots
import Wrkx.Hdr.Spectrum
import Wrkx.Hdr.SpectrumRows
import Wrkx.Hdr.Summary
import Wrkx.Http.Asserts
import Wrkx.Http.Bodies
import Wrkx.Http.Cases
import Wrkx.Http.Cuts
import Wrkx.Http.Execute
import Wrkx.Http.Feeds
import Wrkx.Http.Headers
import Wrkx.Http.Limit
import Wrkx.Http.Lines
import Wrkx.Http.Matcher
import Wrkx.Http.Parser
import Wrkx.Http.Phases
import Wrkx.Http.Quiet
import Wrkx.Http.Reads
import Wrkx.Http.Responses
import Wrkx.Http.Restart
import Wrkx.Http.Values
import Wrkx.Loop.EventLoop
import Wrkx.Lua.Api
import Wrkx.Lua.Copy
import Wrkx.Lua.Format
import Wrkx.Lua.Requests
import Wrkx.Process.Attempts
import Wrkx.Process.Descriptors
import Wrkx.Process.Divisors
import Wrkx.Process.Holding
import Wrkx.Process.Interleaved
import Wrkx.Process.Machine
import Wrkx.Process.Samples
import Wrkx.Process.Timeouts
import Wrkx.Stats.Percentile
import Wrkx.Stats.Sorting
import Wrkx.Stats.Stats
import Wrkx.Stats.Window
import Wrkx.Stats.Within
import Wrkx.Thread.Timers
import Wrkx.Units.Affinity
import Wrkx.Units.Columns
import Wrkx.Units.Format
import Wrkx.Units.Options
import Wrkx.Units.Scan
import Wrkx.Units.Units
