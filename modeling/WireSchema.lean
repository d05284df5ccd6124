import WireSchema.Main
import WireSchema.Storage.Directory
import WireSchema.Proofs.Units
import WireSchema.Proofs.Texts
import WireSchema.Proofs.Streams
import WireSchema.Proofs.Requests
import WireSchema.Proofs.Tables
import WireSchema.Proofs.WellFormed
import WireSchema.Proofs.Compiled
import WireSchema.Proofs.Counterparts
import WireSchema.Proofs.Narrowing
import WireSchema.Proofs.Rationals
import WireSchema.Proofs.Scalars
import WireSchema.Proofs.Writing
import WireSchema.Proofs.Sizing
import WireSchema.Proofs.Refusals
import WireSchema.Proofs.Bounds
import WireSchema.Proofs.Announcements
import WireSchema.Proofs.Format
import WireSchema.Proofs.Interchange
import WireSchema.Proofs.Reading
import WireSchema.Proofs.Canonical
import WireSchema.Proofs.NormalForm
import WireSchema.Proofs.Leaves
import WireSchema.Proofs.Precision
import WireSchema.Proofs.Truncation
import WireSchema.Proofs.Messages
import WireSchema.Proofs.Conformance
import WireSchema.Proofs.Integers
import WireSchema.Proofs.Mismatches
import WireSchema.Proofs.FixedSizes
import WireSchema.Proofs.KeyOrder
import WireSchema.Proofs.Notation
import WireSchema.Proofs.Directories
import WireSchema.Proofs.Commands
import WireSchema.Proofs.Causes
import WireSchema.Proofs.DeclarationOrder
import WireSchema.Proofs.Registries
import WireSchema.Proofs.Discriminants
import WireSchema.Proofs.Conversions
import WireSchema.Proofs.Scripts
import WireSchema.Proofs.Capacities
import WireSchema.Proofs.Shortages
import WireSchema.Proofs.Walks
import WireSchema.Proofs.Violations
import WireSchema.Proofs.DocumentFaults
