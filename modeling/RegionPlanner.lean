import RegionPlanner.Number.Exact
import RegionPlanner.Number.Decimal
import RegionPlanner.Trace.Encode
import RegionPlanner.Trace.Delivery
import RegionPlanner.Forest.Build
import RegionPlanner.Cost.Cache
import RegionPlanner.Plan.Choice
import RegionPlanner.Main
import RegionPlanner.Proofs.Trace.Canonical
import RegionPlanner.Proofs.Number.Ordered
import RegionPlanner.Proofs.Forest.Accepted
import RegionPlanner.Proofs.Forest.Tree
import RegionPlanner.Proofs.Plan.Entries
import RegionPlanner.Proofs.Plan.Optimal
import RegionPlanner.Proofs.Weights.Closed
import RegionPlanner.Proofs.Order.Listing
import RegionPlanner.Proofs.Order.Traced
import RegionPlanner.Proofs.Weights.Stored
import RegionPlanner.Proofs.Forest.Counters
import RegionPlanner.Proofs.Plan.Loop
import RegionPlanner.Proofs.Trace.RoundTrip
import RegionPlanner.Proofs.Cost.Estimates
import RegionPlanner.Proofs.Forest.SingleDepth
import RegionPlanner.Proofs.Plan.Ceiling
import RegionPlanner.Proofs.Trace.Truncation
import RegionPlanner.Proofs.Trace.Delivered
import RegionPlanner.Proofs.Forest.Family
import RegionPlanner.Proofs.Plan.Floors
import RegionPlanner.Proofs.Cost.Overhead
import RegionPlanner.Proofs.Command.Advice
import RegionPlanner.Proofs.Plan.Quiet
import RegionPlanner.Proofs.Forest.Marking
import RegionPlanner.Proofs.Plan.Unchosen
import RegionPlanner.Proofs.Forest.Recurrence
import RegionPlanner.Proofs.Weights.Partition
import RegionPlanner.Proofs.Weights.Recursion
import RegionPlanner.Proofs.Plan.Threshold
import RegionPlanner.Proofs.Plan.Cores
import RegionPlanner.Proofs.Plan.Ideal
import RegionPlanner.Proofs.Trace.Appended
import RegionPlanner.Proofs.Region.Written
import RegionPlanner.Proofs.Text.Loading
import RegionPlanner.Proofs.Cost.Lookup
import RegionPlanner.Proofs.Forest.Work
