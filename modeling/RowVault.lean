import RowVault.Bytes.Hex
import RowVault.Bytes.Lossy
import RowVault.Value.Dataset
import RowVault.Error
import RowVault.Cbor.Reader
import RowVault.Visibility.Decision
import RowVault.Key.Window
import RowVault.Row.Key
import RowVault.Entry.Encode
import RowVault.Entry.Decode
import RowVault.Statistic.Ledger
import RowVault.Query.Basic
import RowVault.Store.Ingest
import RowVault.Store.Lookup
import RowVault.Store.Delete
import RowVault.Store.Call
import RowVault.Json.Failure
import RowVault.Scripted.Entry
import RowVault.Scripted.Delivery
import RowVault.Scripted.Strategy
import RowVault.Scripted.Query
import RowVault.Scripted.Statistics
import RowVault.Proofs.Visibility.Conjunction
import RowVault.Proofs.Visibility.Reading
import RowVault.Proofs.Row.Codec
import RowVault.Proofs.Entry.Encoded
import RowVault.Proofs.Entry.Recovery
import RowVault.Proofs.Store.RowSets
import RowVault.Proofs.Store.Filings
import RowVault.Proofs.OrderedMap
import RowVault.Proofs.Query.Listing
import RowVault.Proofs.Store.Deletion
import RowVault.Proofs.Store.History
import RowVault.Proofs.Store.Invariant
import RowVault.Proofs.Store.Lookups
import RowVault.Proofs.Store.Access
import RowVault.Proofs.Store.Exposure
import RowVault.Proofs.Store.Interference
import RowVault.Proofs.Statistic.Weight
import RowVault.Proofs.Statistic.Balance
import RowVault.Proofs.Statistic.Tallies
import RowVault.Proofs.Statistic.Journal
import RowVault.Proofs.Statistic.Conservation
import RowVault.Proofs.Store.Owners
import RowVault.Proofs.Store.Bookkeeping
import RowVault.Proofs.Store.Refusals
import RowVault.Proofs.Store.Statistics
import RowVault.Proofs.Store.Failures
import RowVault.Proofs.Store.Wholeness
import RowVault.Proofs.Store.Deliveries
import RowVault.Proofs.Store.LastWriters
import RowVault.Proofs.Store.WrittenRows
import RowVault.Proofs.Store.QueryDeletion
import RowVault.Proofs.Store.Registration
import RowVault.Proofs.Query.Deduplication
import RowVault.Proofs.Store.RowWindows
import RowVault.Proofs.Store.PrefixScans
import RowVault.Proofs.Store.KeyedLookups
import RowVault.Proofs.Query.Selection
import RowVault.Proofs.Query.Stateless
import RowVault.Proofs.Query.Effort
import RowVault.Proofs.Query.Narrowing
import RowVault.Proofs.Visibility.Bracketing
import RowVault.Proofs.Visibility.NormalForms
import RowVault.Proofs.Visibility.Terms
import RowVault.Proofs.Query.Grants
import RowVault.Proofs.Store.DeletePaths
import RowVault.Proofs.Binary64.TotalOrder
import RowVault.Proofs.Statistic.Extremes
import RowVault.Proofs.Statistic.Merging
import RowVault.Proofs.Store.RowOrder
import RowVault.Proofs.Visibility.ErrorPositions
import RowVault.Proofs.Key.Prefixes
import RowVault.Proofs.Store.Isolation
import RowVault.Proofs.Query.Encounters
import RowVault.Proofs.Query.Visits
import RowVault.Proofs.Query.Accounts
import RowVault.Proofs.Binary64.Narrowing
import RowVault.Proofs.Cbor.Heads
import RowVault.Proofs.Cbor.RoundTrip
import RowVault.Proofs.Binary64.Precedence
import RowVault.Proofs.Statistic.Rekeying
