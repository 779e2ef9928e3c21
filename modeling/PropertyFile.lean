import PropertyFile.Main
import PropertyFile.Proofs.Bytecode.Compiled
import PropertyFile.Proofs.Document.Edits
import PropertyFile.Proofs.Bytecode.RoundTrip
import PropertyFile.Proofs.Bytecode.Canonical
import PropertyFile.Proofs.Inibin.Rewriting
import PropertyFile.Proofs.Document.Reopening
import PropertyFile.Proofs.Number.Exact
import PropertyFile.Proofs.Machine.Produced
import PropertyFile.Proofs.Machine.Settled
import PropertyFile.Proofs.Machine.Fixed
import PropertyFile.Proofs.Machine.Faults
import PropertyFile.Proofs.Tree.Search
import PropertyFile.Proofs.Bytes.Taking
import PropertyFile.Proofs.Inibin.Grammar
import PropertyFile.Proofs.Number.Indexes
import PropertyFile.Proofs.Document.Lowering
import PropertyFile.Proofs.Dictionary.History
import PropertyFile.Proofs.Tree.Upkeep
import PropertyFile.Proofs.Document.Saving
import PropertyFile.Proofs.Bytecode.WellFormed
import PropertyFile.Proofs.Machine.Insertion
import PropertyFile.Proofs.Machine.Tables
import PropertyFile.Proofs.Machine.Nested
import PropertyFile.Proofs.Json.Interchange
import PropertyFile.Proofs.Machine.Shape
import PropertyFile.Proofs.Machine.Unfolding
import PropertyFile.Proofs.Tree.Regrouping
import PropertyFile.Proofs.Tree.Learning
import PropertyFile.Proofs.Inibin.Refusal
import PropertyFile.Proofs.Bytecode.Truncation
import PropertyFile.Proofs.Bytecode.Limits
import PropertyFile.Proofs.NameHash
import PropertyFile.Proofs.NameHash.Folding
import PropertyFile.Proofs.Bytecode.Pool
import PropertyFile.Proofs.Value.Texts
import PropertyFile.Proofs.Tree.Filtering
