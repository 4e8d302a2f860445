import JoinOptimizer.Data
import JoinOptimizer.Lib.Sparse
import JoinOptimizer.Page.Cells
import JoinOptimizer.Page.Decode
import JoinOptimizer.Page.Encode
import JoinOptimizer.Page.Inserter
import JoinOptimizer.Lib.BitFields
import JoinOptimizer.Value
import JoinOptimizer.Lib.Paged
import JoinOptimizer.Lib.Search
import JoinOptimizer.Store.Column
import JoinOptimizer.Store.Scan
import JoinOptimizer.Store.Scanned
import JoinOptimizer.Store.Materialize
import JoinOptimizer.Store.Seen
import JoinOptimizer.HashTable.Build
import JoinOptimizer.HashTable.Partition
import JoinOptimizer.HashTable.Directory
import JoinOptimizer.HashTable.Probe
import JoinOptimizer.Join.Algorithm
import JoinOptimizer.Join.Spread
import JoinOptimizer.Join.Run
import JoinOptimizer.Join.Tuples
import JoinOptimizer.Join.Completed
import JoinOptimizer.Plan.Execute
import JoinOptimizer.Plan.Aligned
import JoinOptimizer.Plan.References
import JoinOptimizer.Plan.Naive
import JoinOptimizer.Plan.Reread
import JoinOptimizer.Plan.Exact
import JoinOptimizer.Plan.Inputs
import JoinOptimizer.Plan.Result
import JoinOptimizer.Plan.Invariants
import JoinOptimizer.Csv.Chunks
import JoinOptimizer.Filter.InnerColumn
import JoinOptimizer.Filter.Selected
import JoinOptimizer.Filter.Agree
import JoinOptimizer.Filter.PrettyPrint
import JoinOptimizer.HashTable.Serial
import JoinOptimizer.Lib.Packing
import JoinOptimizer.Page.Agree
import JoinOptimizer.Store.LookAhead
import JoinOptimizer.Store.Fidelity
import JoinOptimizer.Csv.Print
import JoinOptimizer.Lib.UnionFind
import JoinOptimizer.Sql.DSU
import JoinOptimizer.Sql.Names
import JoinOptimizer.Sql.Where
import JoinOptimizer.Sql.Decompose
import JoinOptimizer.Lib.JoinTree
import JoinOptimizer.Plan.Combinations
import JoinOptimizer.Sql.JoinGraph
import JoinOptimizer.Sql.Pipeline
import JoinOptimizer.Sql.Loaded
import JoinOptimizer.Sql.Enforced
import JoinOptimizer.Filter.ThreadPool
import JoinOptimizer.Filter.PoolInvariant
import JoinOptimizer.Filter.PoolRuns
import JoinOptimizer.Filter.Like
import JoinOptimizer.Lib.Kleene
import JoinOptimizer.Filter.ThreeValued
import JoinOptimizer.Cache.Dump
import JoinOptimizer.Lib.Runs
import JoinOptimizer.Cache.Ownership
import JoinOptimizer.Filter.Compact
import JoinOptimizer.Csv.Load
import JoinOptimizer.Lib.Slots
import JoinOptimizer.HashTable.Cuckoo
import JoinOptimizer.Lib.SlotMaps
import JoinOptimizer.HashTable.Robinhood
import JoinOptimizer.Lib.Hops
import JoinOptimizer.HashTable.Hopscotch
import JoinOptimizer.Store.RowScan
import JoinOptimizer.Store.RowScanned
import JoinOptimizer.Store.RowKept
import JoinOptimizer.Lib.Forest
import JoinOptimizer.Sql.Requests
import JoinOptimizer.Sql.WellFormed
import JoinOptimizer.Lib.Choices
import JoinOptimizer.Sql.From
import JoinOptimizer.Sql.Truth
import JoinOptimizer.Plan.Chosen
import JoinOptimizer.Sql.Answer
import JoinOptimizer.Sql.Executed
import JoinOptimizer.Csv.Calls
import JoinOptimizer.Cache.Build
import JoinOptimizer.Sql.Cached
import JoinOptimizer.Page.Order
import JoinOptimizer.Sql.Compare
import JoinOptimizer.Sql.Verdict
import JoinOptimizer.Sql.FromFiles
import JoinOptimizer.Lib.Progress
import JoinOptimizer.Filter.PoolProgress
import JoinOptimizer.HashTable.Returns
import JoinOptimizer.Csv.RoundTrip
