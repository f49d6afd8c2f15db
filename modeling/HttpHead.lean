import HttpHead.Journal
import HttpHead.Lock.Script
import HttpHead.Parse.Bound
import HttpHead.Tally.Threads
import HttpHead.Proofs.Decimal
import HttpHead.Proofs.Octet
import HttpHead.Proofs.Summary
import HttpHead.Proofs.Run
import HttpHead.Proofs.Scan
import HttpHead.Proofs.Grammar
import HttpHead.Proofs.Accept
import HttpHead.Proofs.Canonical
import HttpHead.Proofs.HeadEnd
import HttpHead.Proofs.Locality
import HttpHead.Proofs.Agreement
import HttpHead.Proofs.Halt
import HttpHead.Proofs.Isolation
import HttpHead.Proofs.Stability
import HttpHead.Proofs.Pipeline
import HttpHead.Proofs.Rejection
import HttpHead.Proofs.Strictness
import HttpHead.Proofs.Standing
import HttpHead.Proofs.Lockstep
import HttpHead.Proofs.Consumption
import HttpHead.Proofs.Waiting
import HttpHead.Proofs.Walk
import HttpHead.Proofs.Placement
import HttpHead.Proofs.Limits
import HttpHead.Proofs.Progress
import HttpHead.Proofs.Shift
import HttpHead.Proofs.Reassembly
import HttpHead.Proofs.BodyLength
import HttpHead.Proofs.Utf8
import HttpHead.Proofs.Case
import HttpHead.Proofs.Lookup
import HttpHead.Proofs.Tally
import HttpHead.Proofs.Accounting
import HttpHead.Proofs.Respelling
import HttpHead.Proofs.Display
import HttpHead.Proofs.Interleaving
import HttpHead.Proofs.Seed
import HttpHead.Proofs.Registry
import HttpHead.Proofs.Exclusion
import HttpHead.Proofs.Target
