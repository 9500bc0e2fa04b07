import RegisterMachine.Assembly.Link
import RegisterMachine.Machine.Run
import RegisterMachine.Proofs.Assembly.Addresses
import RegisterMachine.Proofs.Assembly.Failing
import RegisterMachine.Proofs.Assembly.Joining
import RegisterMachine.Proofs.Assembly.Language
import RegisterMachine.Proofs.Assembly.Mentions
import RegisterMachine.Proofs.Assembly.Rebasing
import RegisterMachine.Proofs.Assembly.Reformatting
import RegisterMachine.Proofs.Assembly.Representation
import RegisterMachine.Proofs.Assembly.RoundTrip
import RegisterMachine.Proofs.Assembly.Timing
import RegisterMachine.Proofs.Literal.Decimal
import RegisterMachine.Proofs.Literal.Hex
import RegisterMachine.Proofs.Machine.Building
import RegisterMachine.Proofs.Machine.Changes
import RegisterMachine.Proofs.Machine.Growth
import RegisterMachine.Proofs.Machine.Halting
import RegisterMachine.Proofs.Machine.Invariant
import RegisterMachine.Proofs.Machine.Operands
import RegisterMachine.Proofs.Machine.Pushes
import RegisterMachine.Proofs.Machine.Refuelling
import RegisterMachine.Proofs.Machine.Relocation
import RegisterMachine.Proofs.Machine.Sequence
import RegisterMachine.Proofs.Machine.Window
import RegisterMachine.Proofs.Memory.Writes
import RegisterMachine.Proofs.Statement.Toolchain
import RegisterMachine.Proofs.Token.Coverage
import RegisterMachine.Proofs.Token.Division
import RegisterMachine.Proofs.Token.Modes
import RegisterMachine.Proofs.Wire.Decoding
import RegisterMachine.Proofs.Wire.RoundTrip
import RegisterMachine.Wire.Format
import RegisterMachine.Proofs.Item.Meaning
