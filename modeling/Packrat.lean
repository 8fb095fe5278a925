import Packrat.Cli.Directory
import Packrat.Main
import Packrat.Proofs.Direct
import Packrat.Proofs.Failing
import Packrat.Proofs.Safety
import Packrat.Proofs.References
import Packrat.Proofs.Counts
import Packrat.Proofs.Watch
import Packrat.Proofs.Marks
import Packrat.Proofs.Reliance
import Packrat.Proofs.Keeping
import Packrat.Proofs.Machine
import Packrat.Proofs.Lockstep
import Packrat.Proofs.Mirroring
import Packrat.Proofs.Discipline
import Packrat.Proofs.Rendering
import Packrat.Proofs.Blame
import Packrat.Proofs.Loading
import Packrat.Proofs.Overriding
import Packrat.Proofs.SelfHosting
import Packrat.Proofs.Reading
import Packrat.Proofs.Confluence
import Packrat.Proofs.Discarding
import Packrat.Proofs.Overtaking
import Packrat.Proofs.Nesting
import Packrat.Proofs.Rewrapping
import Packrat.Proofs.Spelling
import Packrat.Proofs.Repetition
import Packrat.Proofs.Templates
import Packrat.Proofs.Columns
import Packrat.Proofs.Escapes
import Packrat.Proofs.Journal
