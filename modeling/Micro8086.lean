import Micro8086.Main
import Micro8086.Stepper
import Micro8086.Proofs.Instruction.Encode
import Micro8086.Proofs.Assembly.Unambiguous
import Micro8086.Proofs.Trie.Scan
import Micro8086.Proofs.Trie.Faithful
import Micro8086.Proofs.Trie.Shadowed
import Micro8086.Proofs.Run.Pieces
import Micro8086.Proofs.Run.Chain
import Micro8086.Proofs.Run.Loop
import Micro8086.Proofs.Run.Replay
import Micro8086.Proofs.Run.MemorySize
import Micro8086.Proofs.Run.Forward
import Micro8086.Proofs.Run.Logging
import Micro8086.Proofs.Assembly.Numbers
import Micro8086.Proofs.Instruction.Operands
import Micro8086.Proofs.Instruction.Alternative
import Micro8086.Proofs.Trie.FirstFit
import Micro8086.Proofs.Trie.Delimited
import Micro8086.Proofs.Machine.Compare
import Micro8086.Proofs.Run.AnyLog
import Micro8086.Proofs.CommandLine.Logger
import Micro8086.Proofs.CommandLine.Course
import Micro8086.Proofs.CommandLine.Report
import Micro8086.Proofs.CommandLine.Session
import Micro8086.Proofs.Machine.Overwrite
import Micro8086.Proofs.Machine.Faults
import Micro8086.Proofs.Machine.LastWrite
import Micro8086.Proofs.Trie.Written
import Micro8086.Proofs.Trie.Seam
