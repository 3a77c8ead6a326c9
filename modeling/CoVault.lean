import CoVault.Circuit.Bits
import CoVault.Circuit.Cipher
import CoVault.Circuit.Compare
import CoVault.Circuit.Secrets
import CoVault.Dualex.Labels
import CoVault.Dualex.RefusedReveal
import CoVault.Dualex.RevealDiscipline
import CoVault.Dualex.RevealInvariant
import CoVault.Dualex.RevealProtocol
import CoVault.Dualex.RevealSafety
import CoVault.Dualex.RevealedValue
import CoVault.Dualex.Revealer
import CoVault.Dualex.Setup
import CoVault.Dualex.SwapInvariant
import CoVault.Dualex.SwapSafety
import CoVault.Dualex.SwappableRam
import CoVault.Encounters.BlockCipher
import CoVault.Encounters.Decode
import CoVault.Encounters.Fields
import CoVault.Encounters.Generate
import CoVault.Encounters.LinkOrder
import CoVault.Garbling.DualExecution
import CoVault.Garbling.EqualityCircuit
import CoVault.Garbling.HalfGate
import CoVault.Garbling.StoredValues
import CoVault.Ingress.Confirm
import CoVault.Ingress.Reciprocation
import CoVault.Library.BinaryPolynomial
import CoVault.Library.BinarySearch
import CoVault.Library.Cells
import CoVault.Library.Chains
import CoVault.Library.ChunkedNetwork
import CoVault.Library.Codes
import CoVault.Library.Compaction
import CoVault.Library.Duplicates
import CoVault.Library.GateCircuit
import CoVault.Library.GlobalOrder
import CoVault.Library.InOrder
import CoVault.Library.MergeLimits
import CoVault.Library.NetworkContents
import CoVault.Library.Positional
import CoVault.Library.Slices
import CoVault.Library.SortNetwork
import CoVault.Library.Transition
import CoVault.Macs.Hmac
import CoVault.Macs.Kmac
import CoVault.Macs.LengthEncoders
import CoVault.Macs.MultGF2
import CoVault.Macs.PolynomialMac
import CoVault.MapReduce.CategoryMerge
import CoVault.MapReduce.CategoryTally
import CoVault.MapReduce.Counting
import CoVault.MapReduce.FirstStage
import CoVault.MapReduce.LaterStage
import CoVault.MapReduce.ListTransport
import CoVault.MapReduce.Pipeline
import CoVault.MapReduce.PlainShares
import CoVault.MapReduce.Query
import CoVault.MapReduce.ReduceLayer
import CoVault.MapReduce.Reducer
import CoVault.MapReduce.Removal
import CoVault.MapReduce.StoredTile
import CoVault.MapReduce.TopCategory
import CoVault.MapReduce.UniqueDevices
import CoVault.MapReduce.WorkingIntegers
import CoVault.MapReduce.WrappedOrder
import CoVault.Noise.Gaussian
import CoVault.PathQuery.BloomFilter
import CoVault.PathQuery.Contact
import CoVault.PathQuery.Effects
import CoVault.PathQuery.Fetches
import CoVault.PathQuery.FilterHistory
import CoVault.PathQuery.Flow
import CoVault.PathQuery.FlowCount
import CoVault.PathQuery.LookupKeys
import CoVault.PathQuery.OverStore
import CoVault.PathQuery.Partitions
import CoVault.PathQuery.Provided
import CoVault.PathQuery.Stopping
import CoVault.PathQuery.UnsignedRange
import CoVault.PathQuery.Uploads
import CoVault.PathQuery.Walk
import CoVault.PathStore.Abort
import CoVault.PathStore.Fetch
import CoVault.PathStore.FieldCodec
import CoVault.PathStore.Integrity
import CoVault.PathStore.KeyOrder
import CoVault.PathStore.Lookup
import CoVault.PathStore.RoundTrip
import CoVault.PathStore.Shuffle
import CoVault.PathStore.Store
import CoVault.PathStore.StoreSpec
import CoVault.Primitives.Aggregate
import CoVault.Primitives.Compact
import CoVault.Primitives.GroupBy
import CoVault.Redis.Client
import CoVault.TwoPartySort.LongArrays
import CoVault.TwoPartySort.Shares
import CoVault.TwoPartySort.Sort
import CoVault.Library.SingleUse
import CoVault.MapReduce.SharedMemory
import CoVault.MapReduce.NodeLayers
