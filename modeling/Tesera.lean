import Tesera.Verification.TamperEvidence
import Tesera.Verification.Totality
import Tesera.Verification.Reachable
import Tesera.Verification.ChainWalk
import Tesera.Verification.Successors
import Tesera.Verification.Binding
import Tesera.Audit.Agreement
import Tesera.Audit.Streaming
import Tesera.Shipping
import Tesera.TypeScript.Reentry
import Tesera.TypeScript.LineRoundTrip
import Tesera.TypeScript.Covered
import Tesera.Approval.Decisions
import Tesera.Journal.TailLoop
import Tesera.Engine.Ordering
import Tesera.Engine.Histories
import Tesera.Policy.Files
import Tesera.TypeScript.Budgets
import Tesera.Policy.RateLimit
import Tesera.Policy.Cached
import Tesera.Verification.WitnessBounds
import Tesera.TypeScript.Redaction
import Tesera.Redaction.Evidence
import Tesera.TypeScript.Witness
import Tesera.Observer
import Tesera.Redaction.Summary
import Tesera.Schemas.Width
import Tesera.TypeScript.PythonLines
import Tesera.TypeScript.Guard
import Tesera.TypeScript.GuardEvents
import Tesera.TypeScript.Reservations
