import Playbook.Disk.Prepare
import Playbook.Main
import Playbook.Proofs.Call.Candidates
import Playbook.Proofs.Text.Bytes
import Playbook.Proofs.Text.Occurrences
import Playbook.Proofs.Call.Values
import Playbook.Proofs.Call.Printing
import Playbook.Proofs.Double.Rounding
import Playbook.Proofs.Plan.Cutoff
import Playbook.Proofs.Section.Partition
import Playbook.Proofs.Plan.Accounting
import Playbook.Proofs.Workflow.Lossless
import Playbook.Proofs.Bundle.Ids
import Playbook.Proofs.Bundle.Links
import Playbook.Proofs.Section.Headings
import Playbook.Proofs.Bundle.Resplit
import Playbook.Proofs.Bundle.Size
import Playbook.Proofs.Workflow.Prediction
import Playbook.Proofs.OrderedMap.Entries
import Playbook.Proofs.Text.Trimmed
import Playbook.Proofs.Document.Reading
import Playbook.Proofs.Workflow.RoundTrip
import Playbook.Proofs.Invocation.Blocks
import Playbook.Proofs.Snippet.Blocks
import Playbook.Proofs.Snippet.Marker
import Playbook.Proofs.Snippet.ReadOnly
import Playbook.Proofs.Snippet.Insertion
import Playbook.Proofs.Snippet.Settled
import Playbook.Proofs.Workflow.Traces
import Playbook.Proofs.Disk.Places
import Playbook.Proofs.Reference.Words
import Playbook.Proofs.Library.Targets
import Playbook.Proofs.Skill.References
import Playbook.Proofs.Reference.Localized
import Playbook.Proofs.Library.Collisions
import Playbook.Proofs.Text.First
import Playbook.Proofs.Text.Marks
import Playbook.Proofs.Wording.Patterns
import Playbook.Proofs.Wording.Passes
import Playbook.Proofs.Wording.Traces
import Playbook.Proofs.Wording.Normal
import Playbook.Proofs.Wording.WholeLines
import Playbook.Proofs.Section.Grammar
import Playbook.Proofs.Text.Upper
import Playbook.Proofs.Invocation.Splice
import Playbook.Proofs.Invocation.Settled
import Playbook.Proofs.Plan.Longest
import Playbook.Proofs.Invocation.Titles
import Playbook.Proofs.Invocation.Sections
import Playbook.Proofs.Call.Decoding
import Playbook.Proofs.Call.Refinement
import Playbook.Proofs.Call.Fragments
import Playbook.Proofs.Disk.Saving
import Playbook.Proofs.Disk.Writing
import Playbook.Proofs.Disk.Mirror
import Playbook.Proofs.Bundle.FirstFree
import Playbook.Proofs.OrderedMap.Insertions
import Playbook.Proofs.Library.Sources
import Playbook.Proofs.Library.Run
