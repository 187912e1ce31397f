import ByteLayout.Layout.Value
import ByteLayout.Proofs.Composition
import ByteLayout.Proofs.Quoted
import ByteLayout.Proofs.Spacing
import ByteLayout.Proofs.ViablePrefix
import ByteLayout.Record
import ByteLayout.Proofs.Session
import ByteLayout.Proofs.Utf8
import ByteLayout.Proofs.Sightings
import ByteLayout.Proofs.TextOffsets
import ByteLayout.Proofs.Log
import ByteLayout.Proofs.Escape
import ByteLayout.Proofs.ByteString
import ByteLayout.Proofs.IntegerOutcome
import ByteLayout.Proofs.IntegerValue
import ByteLayout.Proofs.FaultOffsets
import ByteLayout.Proofs.Calls
import ByteLayout.Proofs.Settled
import ByteLayout.Proofs.Renaming
import ByteLayout.Proofs.Representation
