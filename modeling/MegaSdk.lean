import MegaSdk.Lib.ParentForest
import MegaSdk.Lib.Runs
import MegaSdk.Tree.Move
import MegaSdk.Api.Submission
import MegaSdk.Crypto.SymmCipher
import MegaSdk.Lib.ByteFile
import MegaSdk.Xfer.Chunks
import MegaSdk.Xfer.Agreement
import MegaSdk.Xfer.Slot
import MegaSdk.Xfer.Layout
import MegaSdk.Xfer.Progress
import MegaSdk.Xfer.TempFile
import MegaSdk.Cache.Coherence
import MegaSdk.Cache.Reload
import MegaSdk.Sync.Association
import MegaSdk.Server.Isolation
import MegaSdk.Server.Commands
import MegaSdk.Crypto.Cbc
import MegaSdk.Nodes.Denotation
import MegaSdk.Crypto.Rsa
import MegaSdk.Xfer.FileAttributes
import MegaSdk.Xfer.Completion
import MegaSdk.Sync.Names
import MegaSdk.Sync.Direction
import MegaSdk.Sync.StateTable
import MegaSdk.Sync.Creation
import MegaSdk.Server.Alignment
import MegaSdk.Json.Cursor
import MegaSdk.Xfer.Files
import MegaSdk.Tree.Delivery
import MegaSdk.Server.Shares
import MegaSdk.Server.ShareKeys
import MegaSdk.Xfer.Partition
import MegaSdk.Xfer.Queue
import MegaSdk.Nodes.FingerprintIndex
import MegaSdk.Xfer.AttachOnce
import MegaSdk.Sync.TreeMoves
import MegaSdk.Sync.DebrisMoves
import MegaSdk.Contacts.UserCache
import MegaSdk.Crypto.Signature
import MegaSdk.Crypto.KeyArrays
import MegaSdk.Xfer.Connections
import MegaSdk.Xfer.AttributeBounds
import MegaSdk.Cache.RecordIds
import MegaSdk.Server.KeyResponse
import MegaSdk.Server.KeySelector
import MegaSdk.Server.ShareNodeKeys
import MegaSdk.Nodes.Subkeys
import MegaSdk.Nodes.FingerprintText
import MegaSdk.Nodes.FingerprintCoverage
import MegaSdk.Cache.RecordBounds
import MegaSdk.Sync.RecordReads
import MegaSdk.Sync.NameClash
import MegaSdk.Sync.Paths
import MegaSdk.Sync.FsIds
import MegaSdk.Sync.LocalBytes
import MegaSdk.Sync.CreationBatches
import MegaSdk.Sync.Passes
import MegaSdk.Sync.Exclusion
import MegaSdk.Lib.Odometer
import MegaSdk.Lib.Loops
import MegaSdk.Lib.Registers
import MegaSdk.Api.RequestIds
import MegaSdk.Api.BackoffDelays
import MegaSdk.Xfer.Pipelining
import MegaSdk.Xfer.Dispatching
import MegaSdk.Nodes.FingerprintErrors
import MegaSdk.Nodes.Unescaping
import MegaSdk.Nodes.AttributeUpdate
import MegaSdk.Server.QuotaItems
import MegaSdk.Json.PackedNames
import MegaSdk.Server.MemberOrder
import MegaSdk.Server.UserAttributes
import MegaSdk.Crypto.PasswordKey
import MegaSdk.Xfer.ChunkBoundaries
import MegaSdk.Base64Buffers
import MegaSdk.Cache.AttributeMaps
import MegaSdk.Lib.Writers
import MegaSdk.Json.Decimals
import MegaSdk.Server.CommandText
import MegaSdk.Server.KeyDelivery
import MegaSdk.Server.Polling
import MegaSdk.Xfer.AttributeFetch
import MegaSdk.Sync.FileEvents
import MegaSdk.Sync.InitialScan
