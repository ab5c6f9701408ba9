import IndexedStore.Main
import IndexedStore.Storage.Calls
import IndexedStore.Store.Operation
import IndexedStore.Proofs.Runs
import IndexedStore.Proofs.Batches
import IndexedStore.Proofs.Failures
import IndexedStore.Proofs.Polling
import IndexedStore.Proofs.Replay
import IndexedStore.Proofs.Restoring
import IndexedStore.Proofs.Refusals
import IndexedStore.Proofs.VersionLabels
import IndexedStore.Proofs.Usability
import IndexedStore.Proofs.Offloading
import IndexedStore.Proofs.Backends
import IndexedStore.Proofs.NormalForm
import IndexedStore.Proofs.StableSort
import IndexedStore.Proofs.LowerCase
import IndexedStore.Proofs.NumericOrder
import IndexedStore.Proofs.Checks
import IndexedStore.Proofs.Undoing
import IndexedStore.Proofs.VersionWindows
import IndexedStore.Proofs.Recency
import IndexedStore.Proofs.Joins
import IndexedStore.Proofs.Addressing
import IndexedStore.Proofs.Loads
import IndexedStore.Proofs.Encodings
import IndexedStore.Proofs.ContainerTexts
import IndexedStore.Proofs.DocumentValues
import IndexedStore.Proofs.WrittenOrders
import IndexedStore.Proofs.Requests
import IndexedStore.Proofs.Inspections
import IndexedStore.Proofs.FiledPairs
import IndexedStore.Proofs.Refinement
