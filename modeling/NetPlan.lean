import NetPlan.Compile
import NetPlan.Kernel.Key.Flag
import NetPlan.Proofs.Graph.Alignment
import NetPlan.Proofs.Graph.Build
import NetPlan.Proofs.Graph.Failure
import NetPlan.Proofs.Graph.Levels
import NetPlan.Proofs.Graph.Links
import NetPlan.Proofs.Graph.Placed
import NetPlan.Proofs.Graph.Relocate
import NetPlan.Proofs.Graph.Substitute
import NetPlan.Proofs.Host.Fault
import NetPlan.Proofs.Host.Features
import NetPlan.Proofs.Host.Slices
import NetPlan.Proofs.Host.Words
import NetPlan.Proofs.Kernel.Cheapest
import NetPlan.Proofs.Kernel.Differences
import NetPlan.Proofs.Kernel.Fastest
import NetPlan.Proofs.Kernel.Groups
import NetPlan.Proofs.Kernel.Readable
import NetPlan.Proofs.Kernel.Source
import NetPlan.Proofs.Layout.Coherence
import NetPlan.Proofs.Layout.Faults
import NetPlan.Proofs.Layout.Pitches
import NetPlan.Proofs.Layout.Windows
import NetPlan.Proofs.Pass.Bindable
import NetPlan.Proofs.Pass.Closing
import NetPlan.Proofs.Pass.Fitting
import NetPlan.Proofs.Pass.History
import NetPlan.Proofs.Pass.Honest
import NetPlan.Proofs.Pass.Intact
import NetPlan.Proofs.Pass.Lineage
import NetPlan.Proofs.Pass.Listing
import NetPlan.Proofs.Pass.Lossless
import NetPlan.Proofs.Pass.Optimized
import NetPlan.Proofs.Pass.Outputs
import NetPlan.Proofs.Pass.Propagation
import NetPlan.Proofs.Pass.Settling
import NetPlan.Proofs.Pass.Survivors
import NetPlan.Proofs.Pass.Wanted
import NetPlan.Proofs.Tuning.Records
import NetPlan.Proofs.Tuning.Torn
