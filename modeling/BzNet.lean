import BzNet.Lib.Run
import BzNet.Lib.Loop
import BzNet.Lib.Serial
import BzNet.Lib.RingBuffer
import BzNet.Lib.LruTable
import BzNet.Lib.Slots
import BzNet.Lib.History
import BzNet.Lib.TokenBucket
import BzNet.Lib.Extremes
import BzNet.Lib.Smoothing
import BzNet.Lib.Windows
import BzNet.Lib.Bytes
import BzNet.Lib.Marker
import BzNet.Lib.Cuts
import BzNet.Lib.Spans
import BzNet.Lib.Stores
import BzNet.Lib.Text
import BzNet.Lib.Ledger
import BzNet.Lib.Jitter
import BzNet.Lib.Shared
import BzNet.Wire
import BzNet.Gov.Trace
import BzNet.Gov.Ledger
import BzNet.Gov.Verdict
import BzNet.Gov.Arrival
import BzNet.Gov.Window
import BzNet.Dampen.Core
import BzNet.Dampen.Record
import BzNet.Dampen.Suppression
import BzNet.Dampen.Interference
import BzNet.Dampen.Lists
import BzNet.Dampen.Epoch
import BzNet.Dampen.Backoff
import BzNet.Dampen.Body
import BzNet.Rtt.Core
import BzNet.Rtt.Record
import BzNet.Rtt.Invariant
import BzNet.Rtt.Karn
import BzNet.Rtt.Retire
import BzNet.Rtt.Totals
import BzNet.Rtt.Smooth
import BzNet.Reorder.Core
import BzNet.Reorder.Entry
import BzNet.Reorder.HoldWindow
import BzNet.Reorder.Receive
import BzNet.Reorder.Table
import BzNet.Reorder.Conservation
import BzNet.Reorder.Machine
import BzNet.Reorder.Accounting
import BzNet.Reorder.Order
import BzNet.Reorder.InOrder
import BzNet.Reorder.Ready
import BzNet.Reorder.Fair
import BzNet.Reorder.Window
import BzNet.Reorder.Close
import BzNet.Reorder.HookCalls
import BzNet.Reorder.Invariant
import BzNet.Reorder.Restore
import BzNet.Pace.Core
import BzNet.Pace.Queue
import BzNet.Pace.Order
import BzNet.Pace.Due
import BzNet.Pace.Duplicate
import BzNet.Pace.Close
import BzNet.Pace.Measure
import BzNet.Pace.Refill
import BzNet.Pace.Conform
import BzNet.Proxy.Hooks
import BzNet.Proxy.Calls
import BzNet.Proxy.Isolation
import BzNet.Proxy.PurgeGate
import BzNet.Proxy.RttSession
import BzNet.Proxy.RttFeed
import BzNet.Proxy.Deliver
import BzNet.Proxy.Sends
import BzNet.Proxy.SendSections
import BzNet.Proxy.RttSends
import BzNet.Proxy.Wake
import BzNet.Link.Core
import BzNet.Link.Outbox
import BzNet.Link.Inbox
import BzNet.Link.Account
import BzNet.Iocp.Core
import BzNet.Iocp.Completions
import BzNet.Iocp.Pick
import BzNet.Iocp.Waits
import BzNet.Globals.Core
import BzNet.Globals.Band
import BzNet.Patch.Scan
import BzNet.Patch.Threads
import BzNet.Patch.Polls
import BzNet.Patch.Passes
import BzNet.Patch.Process
import BzNet.Socket.Options
import BzNet.Socket.Kept
import BzNet.Install.Iat
import BzNet.Install.Retry
import BzNet.Install.ByPointer
import BzNet.Install.Covered
import BzNet.Install.Settings
import BzNet.Proxy.SessionEnd
import BzNet.Buffer.Core
import BzNet.Buffer.Decode
import BzNet.Buffer.RoundTrip
import BzNet.Buffer.Scan
import BzNet.Buffer.PeerFilter
import BzNet.Buffer.Settings
import BzNet.Analyze.Slices
import BzNet.Analyze.Sessions
