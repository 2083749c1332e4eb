import RadixBench.Pool.Runs
import RadixBench.Pool.Sizes
import RadixBench.Pool.Growth
import RadixBench.Pool.Misuse
import RadixBench.Foundation.Walk
import RadixBench.RadixNew.Model
import RadixBench.RadixNew.Invariant
import RadixBench.RadixNew.Updates
import RadixBench.RadixNew.Insertion
import RadixBench.RadixNew.Unlinking
import RadixBench.RadixNew.Clearing
import RadixBench.RadixNew.Removal
import RadixBench.RadixNew.Lookup
import RadixBench.RadixNew.Runs
import RadixBench.RadixNew.BitScan
import RadixBench.RadixNew.Query
import RadixBench.RadixNew.LowerBound
import RadixBench.RadixNew.QueryRuns
import RadixBench.WideRadix.Model
import RadixBench.WideRadix.Invariant
import RadixBench.WideRadix.Updates
import RadixBench.WideRadix.Operations
import RadixBench.WideRadix.Runs
import RadixBench.WideRadix.Query
import RadixBench.WideRadix.LowerBound
import RadixBench.WideRadix.QueryRuns
import RadixBench.Foundation.LinkedTree
import RadixBench.Radix.Model
import RadixBench.Foundation.BitTrie
import RadixBench.Foundation.Ring
import RadixBench.Radix.Pointers
import RadixBench.Radix.Relinking
import RadixBench.Radix.Swapping
import RadixBench.Radix.Insertion
import RadixBench.Radix.Rings
import RadixBench.Radix.Invariant
import RadixBench.Radix.Runs
import RadixBench.Radix.Query
import RadixBench.Radix.Safety
import RadixBench.Avl.Model
import RadixBench.Foundation.Relinking
import RadixBench.Foundation.HeightBalance
import RadixBench.Avl.Pointers
import RadixBench.Avl.Rotation
import RadixBench.Avl.Rebalancing
import RadixBench.Avl.Insertion
import RadixBench.Avl.Removal
import RadixBench.Avl.Runs
import RadixBench.Avl.RebalanceSafety
import RadixBench.Foundation.Sided
import RadixBench.Avl.Navigation
import RadixBench.Avl.Query
import RadixBench.Foundation.Descent
import RadixBench.Radix.Canonical
import RadixBench.WideRadix.Safety
import RadixBench.WideRadix.Emptiness
import RadixBench.WideRadix.Failure
import RadixBench.WideRadix.FailureQueries
import RadixBench.WideRadix.FailureRuns
import RadixBench.RadixNew.Ownership
import RadixBench.RadixNew.InsertRuns
import RadixBench.Comparison.RangeQueries
import RadixBench.Comparison.FirstSetBit
import RadixBench.RadixNew.Aliasing
import RadixBench.RadixNew.Failure
import RadixBench.RadixNew.FailureQueries
import RadixBench.RadixNew.FailureRuns
import RadixBench.Avl.Validity
import RadixBench.Foundation.Agreement
import RadixBench.Foundation.Table
import RadixBench.Art.Model
import RadixBench.Art.Children
import RadixBench.Art.Resizing
import RadixBench.Art.Invariant
import RadixBench.Art.Prefixes
import RadixBench.Art.Insertion
import RadixBench.Art.Search
import RadixBench.Art.Removal
import RadixBench.Art.Runs
import RadixBench.Art.Refinement
import RadixBench.Art.Clash
import RadixBench.Art.Iteration
import RadixBench.Comparison.Lookups
import RadixBench.Foundation.Release
import RadixBench.WideRadix.Destruction
import RadixBench.Pool.Heap
import RadixBench.Pool.Layout
import RadixBench.Pool.Simulation
import RadixBench.Pool.Destruction
import RadixBench.RadixNew.Heap
import RadixBench.RadixNew.Destruction
import RadixBench.Art.Shape
import RadixBench.Art.Space
import RadixBench.Foundation.Ownership
import RadixBench.Art.Mapping
import RadixBench.Art.Heap
import RadixBench.Art.Placement
import RadixBench.Art.Reclaiming
import RadixBench.Art.HeapRuns
import RadixBench.Comparison.Substitution
import RadixBench.Comparison.OrderedSets
