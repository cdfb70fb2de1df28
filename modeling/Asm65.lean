import Asm65.Main
import Asm65.Proofs.Invariant
import Asm65.Proofs.Meaning
import Asm65.Proofs.Parsing
import Asm65.Proofs.Lexemes
import Asm65.Proofs.Printing
import Asm65.Proofs.Reprinting
import Asm65.Proofs.Fault
import Asm65.Proofs.Failure
import Asm65.Proofs.Overwriting
import Asm65.Proofs.Blocks
import Asm65.Proofs.Continuation
import Asm65.Proofs.Relocation
import Asm65.Proofs.Spacing
import Asm65.Proofs.Lines
import Asm65.Proofs.Flattening
import Asm65.Proofs.Unfolding
import Asm65.Proofs.Decoding
import Asm65.Proofs.Relabelling
import Asm65.Proofs.Renaming
import Asm65.Proofs.Numbering
import Asm65.Proofs.Formatting
import Asm65.Proofs.Positions
import Asm65.Proofs.LongestMatch
import Asm65.Proofs.FirstToken
import Asm65.Proofs.Run
import Asm65.Proofs.HexRuns
import Asm65.Proofs.DepthLimit
import Asm65.Proofs.Listing
import Asm65.Proofs.TokenText
import Asm65.Proofs.Frame
import Asm65.Proofs.IncludeLine
import Asm65.Proofs.Joining
