import Unworkable.Library.Words
import Unworkable.Library.Outcome
import Unworkable.Library.Region
import Unworkable.Library.ChunkedReader
import Unworkable.Torrent.State
import Unworkable.Torrent.Storage
import Unworkable.Torrent.Bitfield
import Unworkable.Torrent.Integrity
import Unworkable.Torrent.Walks
import Unworkable.Torrent.Counters
import Unworkable.Torrent.Contents
import Unworkable.Torrent.Startup
import Unworkable.Torrent.References
import Unworkable.Torrent.Layout
import Unworkable.Session.State
import Unworkable.Session.Requests
import Unworkable.Wire.Encode
import Unworkable.Session.Scheduler
import Unworkable.Session.Message
import Unworkable.Wire.Response
import Unworkable.Session.System
import Unworkable.Wire.Framing
import Unworkable.Session.StoreInvariant
import Unworkable.Session.Ledger
import Unworkable.Session.Refinement
import Unworkable.Session.Tally
import Unworkable.Session.Representation
import Unworkable.Session.Unrequested
import Unworkable.Session.Bounds
import Unworkable.Session.Indices
import Unworkable.Session.Silence
import Unworkable.Session.Verified
import Unworkable.Session.Accounting
import Unworkable.Session.Workload
import Unworkable.Session.QueueLength
import Unworkable.Session.Completion
import Unworkable.Wire.Steering
import Unworkable.Session.Wanted
import Unworkable.Library.RedBlack
import Unworkable.Session.KeyOrder
import Unworkable.Library.Balance
import Unworkable.Library.Lockstep
import Unworkable.Session.IndexTree
import Unworkable.Session.Near
import Unworkable.Session.TreeRun
import Unworkable.Session.LonePeer
import Unworkable.Session.Assignment
import Unworkable.Session.Uploads
import Unworkable.Session.Serving
import Unworkable.Session.Reported
import Unworkable.Wire.Obedience
import Unworkable.Wire.Agreement
import Unworkable.Library.Bits
import Unworkable.Session.Announced
import Unworkable.Control.RoundTrip
import Unworkable.Bencode.Parser
import Unworkable.Bencode.Globals
import Unworkable.Bencode.Syntax
import Unworkable.Bencode.Reads
import Unworkable.Bencode.Strict
import Unworkable.Bencode.Value
import Unworkable.Bencode.Accepts
import Unworkable.Bencode.Exact
import Unworkable.Torrent.Lengths
import Unworkable.Torrent.Resume
import Unworkable.Torrent.Blocks
import Unworkable.Wire.Handshake
import Unworkable.Session.Discards
import Unworkable.Session.Fields
import Unworkable.Session.Endgame
import Unworkable.Session.Rarest
import Unworkable.Session.Interest
import Unworkable.Session.Tracker
import Unworkable.Session.Choking
import Unworkable.Session.Departure
import Unworkable.Tracker.Compact
import Unworkable.Tracker.Buffer
import Unworkable.Tracker.Url
import Unworkable.Tracker.Response
import Unworkable.Tracker.Typed
import Unworkable.Library.CancelQueue
import Unworkable.Session.Account
import Unworkable.Session.UploadQueue
import Unworkable.Session.Receipts
import Unworkable.Bencode.Find
import Unworkable.Torrent.Strstr
import Unworkable.Torrent.ParseFile
import Unworkable.Torrent.InfoHash
import Unworkable.Torrent.Extras
import Unworkable.Bencode.Terminator
import Unworkable.Library.WordLoop
import Unworkable.Session.BlockLoop
import Unworkable.Tracker.SetBuffer
import Unworkable.Torrent.Pages
import Unworkable.Library.Comparator
import Unworkable.Session.Ranking
import Unworkable.Control.Notice
import Unworkable.Library.Path
import Unworkable.Torrent.Confinement
import Unworkable.Session.Pair
import Unworkable.Library.BlockHash
import Unworkable.Library.SecureHash
import Unworkable.Digest.Sha1
import Unworkable.Digest.Rounds
import Unworkable.Digest.Streaming
import Unworkable.Session.Restart
import Unworkable.Session.Download
import Unworkable.Session.Truthful
import Unworkable.Session.Records
import Unworkable.Library.Query
import Unworkable.Tracker.Request
import Unworkable.Library.LineReader
import Unworkable.Control.Session
import Unworkable.Control.Follow
