import LightSync.Proofs.Block.Canonical
import LightSync.Proofs.Block.Delimiting
import LightSync.Proofs.Block.Reading
import LightSync.Proofs.Bytes.CompactSize
import LightSync.Proofs.Cache.Acceptance
import LightSync.Proofs.Cache.Contiguity
import LightSync.Proofs.Cache.IndexBatch
import LightSync.Proofs.Cache.Pages
import LightSync.Proofs.Note.Opening
import LightSync.Proofs.Scan.Receipts
import LightSync.Proofs.Scan.Report
import LightSync.Proofs.Scan.Resumption
import LightSync.Proofs.Scan.Values
import LightSync.Proofs.Store.Reopening
import LightSync.Proofs.Sync.Convergence
import LightSync.Proofs.Sync.Depths
import LightSync.Proofs.Sync.Exclusion
import LightSync.Proofs.Wallet.Admission
import LightSync.Proofs.Wallet.History
import LightSync.Proofs.Wallet.Rewound
import LightSync.Sync.Synchronizer
import LightSync.Wallet.Schema
