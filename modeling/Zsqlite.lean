import Zsqlite.Lib.Machine
import Zsqlite.Lib.Outcome
import Zsqlite.Lib.Bytes
import Zsqlite.Lib.Overlay
import Zsqlite.Lib.Code
import Zsqlite.Lib.Chain
import Zsqlite.Lib.Journal
import Zsqlite.Lib.Greedy
import Zsqlite.Lib.Wire
import Zsqlite.Lib.Hex
import Zsqlite.Lib.Cursor
import Zsqlite.Lib.Recency
import Zsqlite.Lib.Smallest
import Zsqlite.Lib.Slide
import Zsqlite.Lib.Assoc
import Zsqlite.Lib.Keeps
import Zsqlite.Domain
import Zsqlite.Format
import Zsqlite.ActiveCodec
import Zsqlite.PageFile
import Zsqlite.StateSectors
import Zsqlite.Placement
import Zsqlite.Objects
import Zsqlite.Frame
import Zsqlite.Pack
import Zsqlite.MaintenanceRead
import Zsqlite.View
import Zsqlite.PinnedView
import Zsqlite.FrameCodec
import Zsqlite.SegmentCodec
import Zsqlite.ObjectNames
import Zsqlite.Envelope
import Zsqlite.Samples
import Zsqlite.Seed
import Zsqlite.Head
import Zsqlite.Seal
import Zsqlite.PackCodec
import Zsqlite.BlobCodec
import Zsqlite.SealImage
import Zsqlite.Parallel
import Zsqlite.Install
import Zsqlite.Delta
import Zsqlite.Parents
import Zsqlite.Limits
import Zsqlite.ManifestCodec
import Zsqlite.Index
import Zsqlite.Publication
import Zsqlite.CatalogHistory
import Zsqlite.Vfs
import Zsqlite.Repack
import Zsqlite.Eligible
import Zsqlite.Cache
import Zsqlite.Slots
import Zsqlite.DiskCache
import Zsqlite.HttpBucket
import Zsqlite.ReadMany
import Zsqlite.Snapshot
import Zsqlite.Store.State
import Zsqlite.Store.Open
import Zsqlite.Store.Write
import Zsqlite.Store.Maintenance
import Zsqlite.Store.Layers
import Zsqlite.Store.Transaction
import Zsqlite.Store.Commit
import Zsqlite.Store.Reload
import Zsqlite.Store.Invariant
import Zsqlite.Store.Bootstrap
import Zsqlite.Store.Calls
import Zsqlite.Store.Sealing
import Zsqlite.Store.Conversion
import Zsqlite.Store.Session
import Zsqlite.Store.Sizes
import Zsqlite.Store.SealedView
