import RegexMachine.Listing
import RegexMachine.Proofs.Ancestry
import RegexMachine.Proofs.Behind
import RegexMachine.Proofs.Bounds
import RegexMachine.Proofs.Conservation
import RegexMachine.Proofs.Cost
import RegexMachine.Proofs.Cursor
import RegexMachine.Proofs.Deduplication
import RegexMachine.Proofs.Draining
import RegexMachine.Proofs.EntryPoints
import RegexMachine.Proofs.Filling
import RegexMachine.Proofs.Finality
import RegexMachine.Proofs.FirstFault
import RegexMachine.Proofs.Groups
import RegexMachine.Proofs.Interruption
import RegexMachine.Proofs.Lockstep
import RegexMachine.Proofs.Nesting
import RegexMachine.Proofs.Noninterference
import RegexMachine.Proofs.Padding
import RegexMachine.Proofs.Polling
import RegexMachine.Proofs.Progress
import RegexMachine.Proofs.Reading
import RegexMachine.Proofs.RegisterCount
import RegexMachine.Proofs.Rereading
import RegexMachine.Proofs.Resume
import RegexMachine.Proofs.Segmentation
import RegexMachine.Proofs.Suffix
import RegexMachine.Proofs.WordRuns
import RegexMachine.Proofs.Words
import RegexMachine.Regex
