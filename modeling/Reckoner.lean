import Reckoner.Proofs.Forward
import Reckoner.Proofs.Lines
import Reckoner.Proofs.Locality
import Reckoner.Proofs.LongestMatch
import Reckoner.Proofs.Manifest
import Reckoner.Proofs.Power
import Reckoner.Proofs.Quotient
import Reckoner.Proofs.Readback
import Reckoner.Proofs.Refusal
import Reckoner.Proofs.Remainder
import Reckoner.Proofs.SinglePass
import Reckoner.Proofs.Submission
import Reckoner.Proofs.Tree
import Reckoner.Release
import Reckoner.Step
