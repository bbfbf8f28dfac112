import Loom.Text.Octets
import Loom.Text.Printable
import Loom.Text.Quoted
import Loom.Text.Blank
import Loom.Text.Decimal
import Loom.Text.Brackets
import Loom.Document.Build
import Loom.Document.Header
import Loom.Listing
import Loom.Config
import Loom.Path
import Loom.Workbench
import Loom.CommandLine
import Loom.Main
import Loom.Proofs.References
import Loom.Proofs.Store
import Loom.Proofs.Runs
import Loom.Proofs.Sameness
import Loom.Proofs.Growth
import Loom.Proofs.Formation
import Loom.Proofs.Reading
import Loom.Proofs.Skeleton
import Loom.Proofs.Drafting
import Loom.Proofs.Linking
import Loom.Proofs.Redirection
import Loom.Proofs.Substitution
import Loom.Proofs.Shells
import Loom.Proofs.Sites
import Loom.Proofs.Cloning
import Loom.Proofs.CloneBodies
import Loom.Proofs.Specialization
import Loom.Proofs.Instantiation
import Loom.Proofs.Overloads
import Loom.Proofs.Preservation
import Loom.Proofs.Generation
import Loom.Proofs.Injecting
import Loom.Proofs.Targets
import Loom.Proofs.Numerals
import Loom.Proofs.Quotation
import Loom.Proofs.Editing
import Loom.Proofs.Branches
import Loom.Proofs.Rewiring
import Loom.Proofs.Walks
import Loom.Proofs.Resolving
import Loom.Proofs.Requests
import Loom.Proofs.Passes
import Loom.Proofs.Registration
import Loom.Proofs.Naming
import Loom.Proofs.Binding
import Loom.Proofs.Legibility
import Loom.Proofs.Rebuilding
import Loom.Proofs.Activations
import Loom.Proofs.Primitives
import Loom.Proofs.Isolation
import Loom.Proofs.Relocation
import Loom.Proofs.Lockstep
import Loom.Proofs.Reuse
import Loom.Proofs.Crashes
import Loom.Proofs.Safety
import Loom.Proofs.Lineage
import Loom.Proofs.Origins
import Loom.Proofs.Completion
import Loom.Proofs.Refusals
import Loom.Proofs.Reinjection
import Loom.Proofs.Shrinking
import Loom.Proofs.Instances
import Loom.Proofs.Memos
import Loom.Proofs.PassOrder
import Loom.Proofs.Roundtrips
import Loom.Proofs.Kinship
import Loom.Proofs.Likeness
import Loom.Proofs.Listings
import Loom.Proofs.Titles
import Loom.Proofs.Moving
import Loom.Proofs.Arrangement
import Loom.Proofs.Rearrangement
import Loom.Proofs.Enclosure
import Loom.Proofs.Allocation
import Loom.Proofs.Draining
import Loom.Proofs.Readback
import Loom.Proofs.Equivalence
import Loom.Proofs.Values
import Loom.Proofs.Encoding
