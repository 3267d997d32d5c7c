import Soroscan.Lib.Run
import Soroscan.Lemmas.Save
import Soroscan.Theorems.Follower
import Soroscan.Theorems.DictionaryIds
import Soroscan.Theorems.SavesCommute
import Soroscan.Theorems.Storable
import Soroscan.Theorems.ArgsRoundTrip
import Soroscan.Api
import Soroscan.Theorems.Walk
import Soroscan.Theorems.ScValDisplay
import Soroscan.Theorems.CallTree
import Soroscan.Theorems.NothingDropped
import Soroscan.Theorems.NewestFirst
import Soroscan.Theorems.NoGap
import Soroscan.Theorems.SingleFlight
import Soroscan.Theorems.FreshOutcome
import Soroscan.Theorems.Transient
import Soroscan.Theorems.SameCallee
import Soroscan.Theorems.Backfill
import Soroscan.Theorems.WireWalk
import Soroscan.Theorems.Batches
import Soroscan.Theorems.Plans
import Soroscan.Theorems.PhantomIds
import Soroscan.Theorems.SavesAlone
import Soroscan.Theorems.ExactArgs
import Soroscan.Theorems.EntriesKept
import Soroscan.Theorems.ReturnValues
import Soroscan.Theorems.Lifetimes
import Soroscan.Theorems.ListedOrder
import Soroscan.Theorems.OnlyScVals
import Soroscan.Theorems.LedgerActivity
import Soroscan.Theorems.Currencies
import Soroscan.Theorems.CacheBudget
import Soroscan.Theorems.SignatureHints
import Soroscan.Theorems.ShortDisplays
import Soroscan.Theorems.KeyOrder
import Soroscan.Theorems.Addresses
import Soroscan.Theorems.PrimaryOps
import Soroscan.Theorems.Connectors
import Soroscan.Theorems.Sampling
import Soroscan.Theorems.RouteEntity
import Soroscan.Theorems.Failover
import Soroscan.Theorems.HostilePayloads
import Soroscan.Theorems.HostNames
import Soroscan.Theorems.IndexNumbers
import Soroscan.Theorems.IndexRefines
import Soroscan.Theorems.ReaderShown
import Soroscan.Theorems.AccountHistory
import Soroscan.Theorems.AssetsServed
import Soroscan.Theorems.LedgerTold
