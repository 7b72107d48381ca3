import Recoding.Anonymization
import Recoding.Report.Document
import Recoding.Settings.File
import Recoding.Proofs.Check.Predictions
import Recoding.Proofs.Check.Transparency
import Recoding.Proofs.Loss.Sensitivity
import Recoding.Proofs.Release
import Recoding.Proofs.Search.Exhaustion
import Recoding.Proofs.Search.Shared
import Recoding.Proofs.Search.Journal
import Recoding.Proofs.Search.Lockstep
import Recoding.Proofs.Conclusion
import Recoding.Proofs.Tuning
import Recoding.Proofs.Dataset.Rearranged
import Recoding.Proofs.Dataset.Storage
import Recoding.Proofs.Grouping.Rearranged
import Recoding.Proofs.Grouping.Mirrored
import Recoding.Proofs.Check.Rearranged
import Recoding.Proofs.Check.Released
import Recoding.Proofs.Rearranging
import Recoding.Proofs.Certified
import Recoding.Proofs.Check.Capable
import Recoding.Proofs.Search.Unfailing
import Recoding.Proofs.Check.Scored
import Recoding.Proofs.Preparation
import Recoding.Proofs.Validated
import Recoding.Proofs.Grouping.Rescans
import Recoding.Proofs.Search.Reused
import Recoding.Proofs.Search.Limits
import Recoding.Proofs.Grouping.Stores
import Recoding.Proofs.Grouping.Filled
import Recoding.Proofs.Check.Failed
import Recoding.Proofs.Lattice.Packing
import Recoding.Proofs.Lattice.Writes
import Recoding.Proofs.Lattice.Closures
import Recoding.Proofs.Search.Rounds
import Recoding.Proofs.Hierarchy.Validation
import Recoding.Proofs.Hierarchy.Shares
import Recoding.Proofs.Check.Lookups
import Recoding.Proofs.Check.Counted
import Recoding.Proofs.Check.Collapsed
import Recoding.Proofs.Binary64.Adjacent
import Recoding.Proofs.Random.Share
import Recoding.Proofs.Random.Weights
