import GraphCodec.Session.Basic
import GraphCodec.Options.Json
import GraphCodec.Error.Inspect
import GraphCodec.Digest
import GraphCodec.Proofs.Canonical
import GraphCodec.Proofs.Cloning
import GraphCodec.Proofs.Cycles
import GraphCodec.Proofs.Soundness
import GraphCodec.Proofs.Stateless
import GraphCodec.Proofs.Truncation
import GraphCodec.Proofs.Unfolding
import GraphCodec.Proofs.Untrusted
import GraphCodec.Proofs.Likeness
import GraphCodec.Proofs.Openings
import GraphCodec.Proofs.Weight
import GraphCodec.Proofs.Termination
import GraphCodec.Proofs.Matching
import GraphCodec.Proofs.Twins
import GraphCodec.Proofs.Counterparts
import GraphCodec.Proofs.Generics
import GraphCodec.Proofs.Extension
import GraphCodec.Proofs.Acceptance
import GraphCodec.Proofs.Once
import GraphCodec.Proofs.Scoping
import GraphCodec.Proofs.Configured
import GraphCodec.Proofs.Equality
import GraphCodec.Proofs.Substitution
import GraphCodec.Proofs.Refusals
import GraphCodec.Proofs.Words
import GraphCodec.Proofs.Streams
import GraphCodec.Proofs.Lookups
import GraphCodec.Proofs.Ledger
import GraphCodec.Proofs.Cursors
import GraphCodec.Proofs.Unfinished
import GraphCodec.Proofs.Identity
import GraphCodec.Proofs.Locality
