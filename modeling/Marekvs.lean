import Marekvs.Theorems.NoResurrection
import Marekvs.Theorems.Hincrby
import Marekvs.Theorems.StringConverge
import Marekvs.Theorems.StoredVersions
import Marekvs.Theorems.Scan
import Marekvs.Theorems.DeleteClock
import Marekvs.Theorems.ExpiredCollection
import Marekvs.Theorems.Bootstrap
import Marekvs.Theorems.ColdPurge
import Marekvs.Theorems.DecoderSafety
import Marekvs.Theorems.Pipeline
import Marekvs.Theorems.ImmutableKeys
import Marekvs.Theorems.JsonRecords
import Marekvs.Theorems.StreamIds
import Marekvs.Theorems.ScoreIndex
import Marekvs.Theorems.ProtoRecords
import Marekvs.Theorems.BudgetAdmin
import Marekvs.Theorems.Escrow
import Marekvs.Theorems.ReserveOnce
import Marekvs.Theorems.Rollout
import Marekvs.Theorems.FieldReads
import Marekvs.Theorems.SocketReads
import Marekvs.Theorems.PumpPass
import Marekvs.Theorems.DeleteKey
import Marekvs.Theorems.IncrExact
import Marekvs.Theorems.SetOptions
import Marekvs.Theorems.ClusterSlots
import Marekvs.Theorems.Membership
import Marekvs.Theorems.KeyLayout
import Marekvs.Theorems.Upstream
import Marekvs.Theorems.StoreConverge
import Marekvs.Theorems.Clocks
