import RpnMachine.Diagram
import RpnMachine.Main
import RpnMachine.Proofs.Run.Agreement
import RpnMachine.Proofs.Number.Literal
import RpnMachine.Proofs.Object.Pieces
import RpnMachine.Proofs.Run.Action
import RpnMachine.Proofs.Run.Capacity
import RpnMachine.Proofs.Run.Stability
import RpnMachine.Proofs.Run.Dictionary
import RpnMachine.Proofs.Number.Spelling
import RpnMachine.Proofs.Run.Reading
import RpnMachine.Proofs.Run.Transaction
import RpnMachine.Proofs.Run.Roundtrip
import RpnMachine.Proofs.Run.Safety
import RpnMachine.Proofs.Object.Decoding
import RpnMachine.Proofs.Run.Joining
import RpnMachine.Proofs.Run.Lending
import RpnMachine.Proofs.Run.Loopless
import RpnMachine.Proofs.Run.Collection
import RpnMachine.Proofs.Run.Room
import RpnMachine.Proofs.Run.Nesting
import RpnMachine.Proofs.Run.View
import RpnMachine.Proofs.Run.Extent
import RpnMachine.Proofs.Run.Arithmetic
import RpnMachine.Proofs.Run.Packing
import RpnMachine.Proofs.Run.Counting
import RpnMachine.Proofs.Source.Spacing
import RpnMachine.Proofs.Run.OneLine
import RpnMachine.Proofs.Object.Varint
import RpnMachine.Proofs.Machine.Registry
import RpnMachine.Proofs.Run.Payload
import RpnMachine.Proofs.Run.Comparison
import RpnMachine.Proofs.Run.Rotation
