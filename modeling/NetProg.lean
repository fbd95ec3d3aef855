import NetProg.Lib.Run
import NetProg.Lib.Runs
import NetProg.Lib.Schedule
import NetProg.Lib.Duplex
import NetProg.Lib.Completion
import NetProg.Lib.Dialogue
import NetProg.Lib.Talk
import NetProg.Lib.Fields
import NetProg.Lib.Framing
import NetProg.Lib.Ownership
import NetProg.Lib.Template
import NetProg.Lib.LineReader
import NetProg.Lib.Transfer
import NetProg.Lib.Loop
import NetProg.Lib.Guard
import NetProg.Lib.Register
import NetProg.Lib.Sessions
import NetProg.Lib.FailingReader
import NetProg.Lib.Simulation
import NetProg.Lib.Strings
import NetProg.System.Machine
import NetProg.System.Text
import NetProg.System.Sockaddr
import NetProg.System.InternetText
import NetProg.System.Stream
import NetProg.System.ReadFailure
import NetProg.System.Receive
import NetProg.System.Send
import NetProg.System.Chunked
import NetProg.System.Conn
import NetProg.System.Calls
import NetProg.System.Transcript
import NetProg.System.Collect
import NetProg.System.FrameLoop
import NetProg.System.Select
import NetProg.System.Descriptor
import NetProg.System.Peer
import NetProg.System.Echo
import NetProg.System.LineClient
import NetProg.System.StrCli
import NetProg.C.Wrapsock
import NetProg.C.ConnectNonb
import NetProg.C.Blocks
import NetProg.C.Readline
import NetProg.C.ReadlineStatics
import NetProg.C.StrEcho
import NetProg.C.Strings
import NetProg.C.ErrorPrinters
import NetProg.C.SockNtop
import NetProg.C.SockNtopBuffer
import NetProg.C.TcpSixteenServer
import NetProg.C.SixteenMessages
import NetProg.C.UnixDgramServer
import NetProg.C.UeventMonitor
import NetProg.C.TcpStreamerServer
import NetProg.Cxx.Wrapsock
import NetProg.Cxx.Blocks
import NetProg.Cxx.TcpSixteenServer
import NetProg.Cxx.TcpStreamerServer
import NetProg.C.BlockServer
import NetProg.Cxx.ReadBuffer
import NetProg.Cxx.SocketStream
import NetProg.Cxx.StrEcho
import NetProg.Cxx.Format
import NetProg.Cxx.SocketAddress
import NetProg.Cxx.AddressSetters
import NetProg.Cxx.Wrapunix
import NetProg.Cxx.ErrorCode
import NetProg.Cxx.TimedConnect
import NetProg.Cxx.SocketLifetime
import NetProg.Python.Blocks
import NetProg.Python.TcpSixteenServer
import NetProg.Python.WorkerThread
import NetProg.Decoders
import NetProg.LineReaders
import NetProg.ReadErrors
import NetProg.AddressPrinters
import NetProg.C.Clients
import NetProg.Cxx.Clients
import NetProg.Python.Sendall
import NetProg.Python.StrCli
import NetProg.Python.Clients
import NetProg.SixteenServers
import NetProg.SixteenExchange
import NetProg.StreamerServers
import NetProg.StreamerExchange
import NetProg.BlockExchange
import NetProg.Senders
import NetProg.Receivers
import NetProg.EchoServers
import NetProg.EchoRuns
import NetProg.EchoSessions
import NetProg.EchoEnds
import NetProg.ClientRuns
import NetProg.Uevent.Monitor
import NetProg.Uevent.Decode
import NetProg.Uevent.Delivery
import NetProg.UdpLocal
import NetProg.UnixDgramServers
import NetProg.Uevent.Conservation
import NetProg.Uevent.FailedCheck
import NetProg.Uevent.Stale
import NetProg.Uevent.Removal
import NetProg.C.ConnectNonb
import NetProg.Cxx.AddressSetters
import NetProg.Cxx.TimedConnect
