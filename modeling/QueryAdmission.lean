import QueryAdmission.Main
import QueryAdmission.Proofs.Keyed
import QueryAdmission.Proofs.Query.Forest
import QueryAdmission.Proofs.Query.Descent
import QueryAdmission.Proofs.Json.Grammar
import QueryAdmission.Proofs.Json.Spelling
import QueryAdmission.Proofs.Query.Rendering
import QueryAdmission.Proofs.Json.Locality
import QueryAdmission.Proofs.Json.Boundary
import QueryAdmission.Proofs.Json.NumeralLocality
import QueryAdmission.Proofs.Json.ReaderLocality
import QueryAdmission.Proofs.Json.SkipLocality
import QueryAdmission.Proofs.Query.Rounds
import QueryAdmission.Proofs.Quota.Cap
import QueryAdmission.Proofs.Service.Run
import QueryAdmission.Proofs.Service.RetryAfter
import QueryAdmission.Proofs.Quota.Eviction
import QueryAdmission.Proofs.Quota.Window
import QueryAdmission.Proofs.Json.Record
import QueryAdmission.Proofs.Service.Envelope
import QueryAdmission.Proofs.Service.Verdict
import QueryAdmission.Proofs.Service.Tally
import QueryAdmission.Proofs.Query.Building
import QueryAdmission.Proofs.Query.Traversal
import QueryAdmission.Proofs.Pricing
import QueryAdmission.Proofs.Shape
import QueryAdmission.Proofs.Query.Representation
import QueryAdmission.Proofs.Measurement
import QueryAdmission.Proofs.Gate
import QueryAdmission.Proofs.Cost
import QueryAdmission.Proofs.Budget
import QueryAdmission.Proofs.Quota.Clients
import QueryAdmission.Proofs.Service.Queries
import QueryAdmission.Proofs.Settings.Issue
import QueryAdmission.Proofs.Settings.Load
import QueryAdmission.Proofs.Settings.Override
import QueryAdmission.Proofs.Service.Start
import QueryAdmission.Proofs.Query.Cursor
import QueryAdmission.Proofs.Query.CorrectPrefix
import QueryAdmission.Proofs.Quota.Activity
import QueryAdmission.Proofs.Quota.TimeLeft
import QueryAdmission.Proofs.Service.Attempts
import QueryAdmission.Proofs.Query.Likeness
import QueryAdmission.Proofs.Json.Derivation
import QueryAdmission.Proofs.Json.Acceptance
import QueryAdmission.Proofs.Query.Wellformed
import QueryAdmission.Proofs.Service.Capture
import QueryAdmission.Proofs.Query.Reachable
import QueryAdmission.Proofs.Aspect
import QueryAdmission.Proofs.Query.Growth
import QueryAdmission.Proofs.Query.Reordering
import QueryAdmission.Proofs.Query.Substitution
import QueryAdmission.Proofs.Query.Blindness
import QueryAdmission.Proofs.Query.Insertion
import QueryAdmission.Proofs.Opinions
import QueryAdmission.Proofs.Text.Numeral
import QueryAdmission.Proofs.Settings.Effect
import QueryAdmission.Proofs.Json.Decimal
import QueryAdmission.Proofs.Json.Partial
import QueryAdmission.Proofs.Json.Printing
import QueryAdmission.Proofs.Settings.Partial
