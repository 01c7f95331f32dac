import AvailabilityCommittee.Storage.Bytes
import AvailabilityCommittee.Storage.FactStore
import AvailabilityCommittee.Storage.Aerospike
import AvailabilityCommittee.Storage.Retry
import AvailabilityCommittee.Storage.Lock
import AvailabilityCommittee.Objects.StarkexState
import AvailabilityCommittee.MerkleTree.Node
import AvailabilityCommittee.MerkleTree.EmptyTree
import AvailabilityCommittee.MerkleTree.Calculation
import AvailabilityCommittee.MerkleTree.Update
import AvailabilityCommittee.MerkleTree.Available
import AvailabilityCommittee.MerkleTree.DumpTreeDiff
import AvailabilityCommittee.Perpetual.StateObjects
import AvailabilityCommittee.Committee.BatchInfo
import AvailabilityCommittee.Committee.World
import AvailabilityCommittee.Committee.Validate
import AvailabilityCommittee.Committee.Run
import AvailabilityCommittee.Committee.Gateway
import AvailabilityCommittee.Committee.Availability
import AvailabilityCommittee.Committee.DumpTrees
import AvailabilityCommittee.Committee.DumpState
