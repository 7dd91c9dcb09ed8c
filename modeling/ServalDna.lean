import ServalDna.BarCache
import ServalDna.BufferCopy
import ServalDna.ConfChildren
import ServalDna.ConfOm
import ServalDna.ConversationList
import ServalDna.DataFormats
import ServalDna.DuplicateFilter
import ServalDna.FilterSafety
import ServalDna.HeaderLines
import ServalDna.HttpRanges
import ServalDna.JournalFetch
import ServalDna.LinkRecords
import ServalDna.ManifestInspect
import ServalDna.ManifestPack
import ServalDna.ManifestRestore
import ServalDna.MdpBindings
import ServalDna.MdpNonce
import ServalDna.MdpPorts
import ServalDna.Monitor
import ServalDna.MspLimits
import ServalDna.PackedNumbers
import ServalDna.PacketRadio
import ServalDna.PacketSafety
import ServalDna.PlyPages
import ServalDna.PrintText
import ServalDna.QueueAck
import ServalDna.ReadCache
import ServalDna.SubscriberWalk
import ServalDna.SyncWindow
import ServalDna.UriEncoding
import ServalDna.VompRuns
