import FlagSets.Condition
import FlagSets.Kind.Named
import FlagSets.Proofs.Domain
import FlagSets.Proofs.Minimal
import FlagSets.Proofs.Zipper
import FlagSets.Search
import FlagSets.Strategy.Call
import FlagSets.VarSet.Walk
import FlagSets.Version
import FlagSets.Proofs.Tapes
import FlagSets.Proofs.Exhaustion
import FlagSets.Proofs.Coins
import FlagSets.Proofs.Sampling
import FlagSets.Proofs.Totality
import FlagSets.Proofs.Independence
import FlagSets.Proofs.Kept
import FlagSets.Proofs.TwosComplement
import FlagSets.Proofs.Growth
import FlagSets.Proofs.Capacious
import FlagSets.Proofs.Validity
import FlagSets.Proofs.Moments
import FlagSets.Proofs.Undoing
import FlagSets.Proofs.Scoping
import FlagSets.Proofs.Stages
import FlagSets.Proofs.Hosts
import FlagSets.Proofs.InForce
import FlagSets.Proofs.Narration
import FlagSets.Proofs.Scans
import FlagSets.Proofs.Encoding
import FlagSets.Proofs.Equality
import FlagSets.Proofs.LiveWalks
import FlagSets.Proofs.Spellings
import FlagSets.Proofs.Configurations
import FlagSets.Proofs.Budgets
import FlagSets.Proofs.FullShrinks
import FlagSets.Proofs.Contiguous
import FlagSets.Proofs.Inheritance
import FlagSets.Proofs.Gathering
import FlagSets.Proofs.Backings
import FlagSets.Proofs.Readings
import FlagSets.Proofs.Identity
import FlagSets.Proofs.Intervals
