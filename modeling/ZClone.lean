import ZClone.Lib.ChainLog
import ZClone.Lib.Prog
import ZClone.Lib.Quote
import ZClone.Recover.Basic
import ZClone.Recover.Journal
import ZClone.Recover.Replay
import ZClone.Recover.Upload
import ZClone.Recover.Durable
import ZClone.Recover.UploadSpec
import ZClone.Recover.Resume
import ZClone.Recover.Restore
import ZClone.Recover.RoundTrip
import ZClone.Recover.Quiet
import ZClone.Recover.Complete
import ZClone.Lib.Merge
import ZClone.Lib.Run
import ZClone.Lib.Regexp
import ZClone.March.Basic
import ZClone.March.MatchListings
import ZClone.March.Join
import ZClone.March.ProcessJob
import ZClone.March.NoTraverse
import ZClone.March.Goroutines
import ZClone.Filter.Glob
import ZClone.Filter.FilesFrom
import ZClone.DirList.Sorter
import ZClone.DirList.DirSorted
import ZClone.Sync.Basic
import ZClone.Sync.EmptyDirs
import ZClone.Sync.DirModTimes
import ZClone.Sync.FailedListing
import ZClone.Lib.MinMaxHeap
import ZClone.Sync.Pipe
import ZClone.Lib.File
import ZClone.Lib.Search
import ZClone.Ranges.Basic
import ZClone.Ranges.Find
import ZClone.Ranges.Slice
import ZClone.Ranges.SliceFind
import ZClone.Vfs.Append
import ZClone.Vfs.CacheFile
import ZClone.Vfs.RangesInside
import ZClone.Vfs.Item
import ZClone.Vfs.Overlay
import ZClone.Vfs.WriteRace
import ZClone.Lib.Utf8
import ZClone.Encoder.Basic
import ZClone.Encoder.Blocks
import ZClone.Encoder.RoundTrip
import ZClone.Encoder.Acceptable
import ZClone.Fspath.Basic
import ZClone.Fspath.RoundTrip
import ZClone.Fspath.ConfigName
import ZClone.Fspath.JoinRootPath
import ZClone.Lib.Decimal
import ZClone.Lib.Path
import ZClone.Transform.Basic
import ZClone.Transform.Segments
import ZClone.Lib.Int64
import ZClone.Lib.Reader
import ZClone.Crypt.Nonce
import ZClone.Crypt.Stream
import ZClone.Crypt.Blocks
import ZClone.Crypt.Place
import ZClone.Crypt.RandomAccess
import ZClone.Crypt.Sizes
import ZClone.Version.Basic
import ZClone.Crypt.Obfuscate
import ZClone.Crypt.Names
import ZClone.Crypt.NameRoundTrip
import ZClone.Lib.Cache
import ZClone.Lib.Hex
import ZClone.Serve.Proxy
import ZClone.Serve.Isolation
import ZClone.Serve.Restic
import ZClone.Operations.OpenOptions
import ZClone.Operations.MultiThread
import ZClone.Operations.MultiThreadCopy
import ZClone.Serve.S3Multipart
import ZClone.Serve.S3Complete
import ZClone.Serve.S3Acknowledged
import ZClone.Operations.UploadMultipart
import ZClone.Operations.ReOpen
import ZClone.Operations.Move
import ZClone.Union.List
import ZClone.Chunker.Names
import ZClone.Chunker.NameRoundTrip
import ZClone.Chunker.LinearReader
import ZClone.Chunker.LinearDelivers
import ZClone.Bisync.FileList
import ZClone.Bisync.Deltas
import ZClone.Bisync.Resolve
import ZClone.Bisync.LockFile
import ZClone.Walk.DirTree
import ZClone.Walk.Parents
import ZClone.Walk.Prune
import ZClone.Walk.ListR
import ZClone.Walk.Agree
import ZClone.Encoder.StandardPath
import ZClone.Filter.GlobMeaning
import ZClone.Vfs.Downloaders
import ZClone.WriteBack.Basic
import ZClone.WriteBack.Attended
import ZClone.WriteBack.Progress
import ZClone.Vfs.Virtual
import ZClone.Operations.Overlap
import ZClone.MailRu.Hash
import ZClone.Bucket.Status
import ZClone.Dircache.Inverse
import ZClone.Config.Storage
import ZClone.Pool.Accounting
