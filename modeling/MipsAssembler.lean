import MipsAssembler.Main
import MipsAssembler.Proofs.Debug
import MipsAssembler.Proofs.Decoding
import MipsAssembler.Proofs.Events
import MipsAssembler.Proofs.LineEnds
import MipsAssembler.Proofs.MachineCode
import MipsAssembler.Proofs.NormalForm
import MipsAssembler.Proofs.PassOrder
import MipsAssembler.Proofs.Positional
import MipsAssembler.Proofs.Records
import MipsAssembler.Proofs.Renaming
import MipsAssembler.Proofs.Reuse
import MipsAssembler.Proofs.SymbolBlock
import MipsAssembler.Proofs.TableHistory
import MipsAssembler.Proofs.Limit
