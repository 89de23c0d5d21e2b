import RedisCvlr.Contracts.Accounting
import RedisCvlr.Contracts.ActiveCycle
import RedisCvlr.Contracts.RemainingTime
import RedisCvlr.Contracts.StoredTimes
import RedisCvlr.Contracts.Touches
import RedisCvlr.Cutoff.Clients
import RedisCvlr.Cutoff.Keys
import RedisCvlr.Cutoff.Values
import RedisCvlr.Driver.Detection
import RedisCvlr.Driver.Drift
import RedisCvlr.Driver.Malformed
import RedisCvlr.Driver.Reproducible
import RedisCvlr.Driver.Requests
import RedisCvlr.Driver.Seeds
import RedisCvlr.Driver.Verdicts
import RedisCvlr.Replication.Log
import RedisCvlr.Replication.Refinement
import RedisCvlr.Scripts.Shape
import RedisCvlr.Specs.AllRules
import RedisCvlr.Specs.ExpireRules
import RedisCvlr.Specs.Ranges
import RedisCvlr.Transactions.Commute
import RedisCvlr.Transactions.Epochs
import RedisCvlr.Transactions.Invalidation
import RedisCvlr.Transactions.OptimisticLock
import RedisCvlr.Visibility.Laws
import RedisCvlr.Visibility.Lifetimes
import RedisCvlr.Visibility.LogicalRuns
import RedisCvlr.Visibility.Resurrection
import RedisCvlr.Visibility.Unobservable
