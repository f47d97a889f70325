import KeyTree.FileSystem.Operation
import KeyTree.Proofs.Deletion
import KeyTree.Proofs.Renaming
import KeyTree.Proofs.Interruption
import KeyTree.S3.Connection
import KeyTree.S3.Dictionary
import KeyTree.Store.Faults
import KeyTree.Proofs.Noted
import KeyTree.Proofs.Resumption
import KeyTree.Proofs.Overwriting
import KeyTree.Proofs.Making
import KeyTree.Proofs.Upkeep
import KeyTree.Proofs.Sequence
import KeyTree.Proofs.Apartness
import KeyTree.Proofs.Agreement
import KeyTree.Proofs.Catalogue
import KeyTree.Proofs.Orderly
import KeyTree.Proofs.Paging
import KeyTree.Proofs.Refinement
import KeyTree.Proofs.Leading
import KeyTree.Proofs.Trailing
import KeyTree.Proofs.Lasting
import KeyTree.Proofs.Stopping
import KeyTree.Proofs.Furnishing
import KeyTree.Proofs.Commuting
import KeyTree.Proofs.Transparency
import KeyTree.Proofs.Containment
import KeyTree.Proofs.Anywhere
import KeyTree.Proofs.Filing
import KeyTree.Proofs.Confinement
import KeyTree.Proofs.Grafting
import KeyTree.Proofs.Reference
import KeyTree.Proofs.Accord
import KeyTree.Proofs.Descent
import KeyTree.Proofs.Remarking
import KeyTree.Proofs.Ground
import KeyTree.Proofs.Stepwise
import KeyTree.Proofs.Denial
import KeyTree.Proofs.Depositing
import KeyTree.Proofs.Vacancy
import KeyTree.Proofs.Tearing
import KeyTree.Proofs.Delivery
import KeyTree.Proofs.Uploading
import KeyTree.Proofs.Normal
import KeyTree.Proofs.Inverse
import KeyTree.Proofs.Unordered
import KeyTree.Proofs.Levels
