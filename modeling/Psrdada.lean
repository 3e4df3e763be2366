import Psrdada.Concurrency.Program
import Psrdada.Concurrency.System
import Psrdada.Concurrency.Outline
import Psrdada.Concurrency.Solo
import Psrdada.Concurrency.Runs
import Psrdada.Ring.SharedMemory
import Psrdada.Ring.Ipcbuf
import Psrdada.Ring.Ipcio
import Psrdada.Ring.PublicationLog
import Psrdada.Ring.Views
import Psrdada.Ring.Invariant
import Psrdada.Ring.Rules
import Psrdada.Ring.Reclaim
import Psrdada.Ring.Writer
import Psrdada.Ring.Reader
import Psrdada.Session.Client
import Psrdada.Session.Contract
import Psrdada.Session.Write
import Psrdada.Session.WriteSession
import Psrdada.Session.Read
import Psrdada.Session.ReadSession
import Psrdada.Session.Streams
import Psrdada.Pwc.Control
import Psrdada.Pwc.Rejection
import Psrdada.Pwc.Transfer
import Psrdada.Pwc.Recorder
import Psrdada.Pwc.Agreement
import Psrdada.Pwc.Multi
import Psrdada.Pwc.Blocks
import Psrdada.Pwc.Timing
import Psrdada.Pwc.Main
import Psrdada.Pwc.Steps
import Psrdada.Pwc.Admission
import Psrdada.Pwc.Durations
import Psrdada.Header.CString
import Psrdada.Header.AsciiHeader
import Psrdada.Header.Entries
import Psrdada.Header.RoundTrip
import Psrdada.Header.Placement
import Psrdada.Header.SetGet
import Psrdada.Client.Source
import Psrdada.Client.ClientLoops
import Psrdada.Client.Splitting
import Psrdada.Client.Offsets
import Psrdada.Client.BlockLoop
import Psrdada.Client.Switching
import Psrdada.Header.Numbers
import Psrdada.Client.Writing
import Psrdada.Diskdb.Files
import Psrdada.Diskdb.Diskdb
import Psrdada.Diskdb.Contiguity
import Psrdada.Diskdb.Reading
import Psrdada.Diskdb.Runs
import Psrdada.Diskdb.FilesToRing
import Psrdada.Intervals.Merge
import Psrdada.Dbevent.Dbevent
import Psrdada.Dbevent.Rounding
import Psrdada.Dbevent.Replaying
import Psrdada.Dbevent.Requests
import Psrdada.Dbmergedb.Dbmergedb
import Psrdada.Dbmergedb.Chunks
import Psrdada.Dbmergedb.Aligning
import Psrdada.Bits.Packing
import Psrdada.Mopsr.Udp
import Psrdada.Mopsr.RoundTrip
import Psrdada.Mopsr.Codecs
import Psrdada.Memory.Copy
import Psrdada.Capture.Datagram
import Psrdada.Capture.Blocks
import Psrdada.Capture.Queue
import Psrdada.Capture.Placement
import Psrdada.Leda.UdpdbThread
import Psrdada.Mopsr.UdpdbThread
import Psrdada.Bpsr.Udpdb
import Psrdada.Bpsr.Placement
import Psrdada.Apsr.Udp
import Psrdada.Apsr.Udpdb
import Psrdada.Apsr.Continuity
import Psrdada.Caspsr.UdpNdb
import Psrdada.Caspsr.Transfers
import Psrdada.Header.Search
import Psrdada.Header.Updates
import Psrdada.Header.Conversions
import Psrdada.Header.OneLine
import Psrdada.Dbdisk.Dbdisk
import Psrdada.Dbdisk.FileSize
import Psrdada.Dbdisk.Numbering
import Psrdada.Dbdisk.WriteBlock
import Psrdada.Ib.WaitCq
import Psrdada.Ib.Matching
import Psrdada.Client.Sink
import Psrdada.Client.SinkTransfers
import Psrdada.Nexus.State
import Psrdada.Nexus.Stdio
import Psrdada.Nexus.CommandServer
import Psrdada.Nexus.Replies
import Psrdada.Nexus.Exchanges
import Psrdada.Time.Arithmetic
import Psrdada.Time.Calendar
import Psrdada.Time.Mjd
import Psrdada.Time.Str2tm
import Psrdada.Time.DateText
import Psrdada.Num.Numbers
import Psrdada.Num.Agreement
import Psrdada.Memory.Assign
import Psrdada.Memory.Slots
import Psrdada.Caspsr.Dbdecidb
import Psrdada.Mopsr.Dbsplitdb
import Psrdada.Mopsr.Splitting
import Psrdada.Mopsr.Dbtransposedb
import Psrdada.Mopsr.Dbreblockdb
import Psrdada.Mopsr.Reblocking
import Psrdada.Float.Rounding
import Psrdada.Leda.DbupdbLookup
import Psrdada.Leda.Promotion
import Psrdada.Refinement.Calls
import Psrdada.Nexus.Dispatch
import Psrdada.Ring.ReaderSlots
import Psrdada.Session.Accounting
import Psrdada.Client.Seeking
import Psrdada.Hdu.DadaHdu
import Psrdada.Hdu.LifeCycle
import Psrdada.Dbcopydb.Dbcopydb
import Psrdada.Dbcopydb.Transfers
import Psrdada.Dbcopydb.ZeroCopy
import Psrdada.Nexus.CommandParse
import Psrdada.Strings.StringArray
import Psrdada.Strings.ListRefinement
import Psrdada.Mopsr.CornerTurn
import Psrdada.Concurrency.Clients
import Psrdada.Ring.Locks
import Psrdada.Ring.LockedCalls
import Psrdada.Ring.AnyClients
import Psrdada.Session.Pending
import Psrdada.Session.Numbers
import Psrdada.Header.Store
import Psrdada.Header.Stamps
import Psrdada.Concurrency.Connection
import Psrdada.Ib.Transfer
import Psrdada.Ib.Agreement
import Psrdada.Client.Appending
import Psrdada.Replay.Recording
import Psrdada.Replay.Observation
import Psrdada.Concurrency.Fairness
import Psrdada.Dbmergedb.Merging
import Psrdada.Nic.Dbnic
import Psrdada.Nic.Nicdb
import Psrdada.Nic.Scattering
