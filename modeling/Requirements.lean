import Requirements.Composition
import Requirements.Proofs.Check.Completing
import Requirements.Proofs.Check.Files
import Requirements.Proofs.Check.Handlers
import Requirements.Proofs.Check.Owners
import Requirements.Proofs.Check.Verdict
import Requirements.Proofs.Document.Errors
import Requirements.Proofs.Document.Literals
import Requirements.Proofs.Histories
import Requirements.Proofs.Layout.Laying
import Requirements.Proofs.Layout.Visits
import Requirements.Proofs.Order.Permutation
import Requirements.Proofs.Property.Again
import Requirements.Proofs.Repository.Freshness
import Requirements.Proofs.Repository.Search
import Requirements.Proofs.Resolution.Cycles
import Requirements.Proofs.Resolution.Precedence
import Requirements.Proofs.Resolution.Stability
import Requirements.Proofs.Resolution.StandIns
import Requirements.Proofs.Token.Comments
import Requirements.Proofs.Document.Naming
import Requirements.Proofs.Repository.Registry
import Requirements.Proofs.Check.Normalizing
import Requirements.Proofs.Disk.Aggregation
import Requirements.Proofs.Text.Offsets
