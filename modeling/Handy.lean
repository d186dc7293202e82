import Handy.Lib.Run
import Handy.Lib.Crew
import Handy.Lib.Framing
import Handy.Lib.Resume
import Handy.Lib.OrdMap
import Handy.Lib.Backlog
import Handy.Lib.Cut
import Handy.Lib.Owned
import Handy.Lib.Grouped
import Handy.Lib.Rotation
import Handy.Net.Buffer
import Handy.Net.Capacity
import Handy.Net.RawBuffer
import Handy.Net.Queue
import Handy.Base.SafeQueue
import Handy.Base.ThreadPool
import Handy.Base.Wakeup
import Handy.Base.Poller
import Handy.Base.Timers
import Handy.Base.TimerLife
import Handy.Base.TimerPass
import Handy.Base.PollTimeout
import Handy.Base.Idle
import Handy.Base.IdlePass
import Handy.Base.IdleOrder
import Handy.Base.IdleGone
import Handy.Base.MultiBase
import Handy.Base.Channels
import Handy.Base.ChannelLoop
import Handy.Base.Kqueue
import Handy.Codec.Model
import Handy.Codec.Loop
import Handy.Codec.Safety
import Handy.Codec.Clone
import Handy.Codec.LengthStream
import Handy.Codec.LineStream
import Handy.Codec.BracketStream
import Handy.Codec.DeadEnd
import Handy.Proto.Codec
import Handy.Proto.Safety
import Handy.Proto.Stream
import Handy.Conn.Machine
import Handy.Conn.Calculus
import Handy.Conn.Stack
import Handy.Conn.Turn
import Handy.Conn.NullChannel
import Handy.Conn.LifeCycle
import Handy.Conn.Arrivals
import Handy.Conn.Fifo
import Handy.Conn.Interest
import Handy.Conn.Isolation
import Handy.Conn.Delivery
import Handy.Conn.Cleanup
import Handy.Conn.IdleIds
import Handy.Conn.Hsha
import Handy.Conn.Link
import Handy.Conn.Accept
import Handy.Http.Text
import Handy.Http.Message
import Handy.Http.Decode
import Handy.Http.Fragments
import Handy.Http.Path
import Handy.Http.Query
import Handy.Http.Safety
import Handy.Http.Serve
import Handy.Http.Encode
import Handy.Http.SentBlock
import Handy.Http.RequestTrip
import Handy.Http.ResponseTrip
import Handy.Http.HeaderLines
import Handy.Http.Framed
import Handy.Http.Expect
import Handy.Http.Status
import Handy.Http.Client
import Handy.Http.Exchange
import Handy.Http.StatServer
import Handy.Http.StatConn
import Handy.Http.Server
import Handy.File.Status
import Handy.File.RenameSave
import Handy.File.Content
import Handy.Log.Rotation
import Handy.Log.Files
import Handy.Log.Line
import Handy.Conf.Scan
import Handy.Conf.Parse
import Handy.Conf.Lines
import Handy.Conf.Grammar
import Handy.Conf.Values
import Handy.Conf.Sections
