import SortKey.Buffer
import SortKey.Order
import SortKey.Sample
import SortKey.Stream.Session
import SortKey.Transfer.Sink
import SortKey.Transfer.Source
import SortKey.Proofs.KeyOrder
import SortKey.Proofs.Agreement
import SortKey.Proofs.Canonic
import SortKey.Proofs.Chains
import SortKey.Proofs.Frames
import SortKey.Proofs.Grammar
import SortKey.Proofs.Interchange
import SortKey.Proofs.Fields
import SortKey.Proofs.Programs
import SortKey.Proofs.Spellings
import SortKey.Proofs.Demands
import SortKey.Proofs.Runs
import SortKey.Proofs.Atomicity
import SortKey.Proofs.Amendments
import SortKey.Proofs.Sessions
import SortKey.Proofs.Cuts
import SortKey.Proofs.Consumption
import SortKey.Proofs.Scheme
import SortKey.Proofs.Scans
import SortKey.Proofs.Capacity
import SortKey.Proofs.WritingBack
import SortKey.Proofs.Residues
import SortKey.Proofs.Placement
import SortKey.Proofs.Patches
import SortKey.Proofs.Copies
import SortKey.Proofs.Contents
import SortKey.Proofs.Parts
import SortKey.Proofs.Checks
