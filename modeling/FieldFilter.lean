import FieldFilter.Metrics
import FieldFilter.Request
import FieldFilter.Ambient.Thread
import FieldFilter.Proofs.Memoryless
import FieldFilter.Proofs.Transparency
import FieldFilter.Proofs.Location
import FieldFilter.Proofs.Prefix
import FieldFilter.Proofs.Offers
import FieldFilter.Proofs.Projection
import FieldFilter.Proofs.Grammar
import FieldFilter.Proofs.Reading
import FieldFilter.Proofs.Acceptance
import FieldFilter.Proofs.Customized
import FieldFilter.Proofs.LeastRecent
import FieldFilter.Proofs.Walk
import FieldFilter.Proofs.Concealed
import FieldFilter.Proofs.Lineage
import FieldFilter.Proofs.OneRoot
import FieldFilter.Proofs.Spelling
import FieldFilter.Proofs.NormalForm
import FieldFilter.Proofs.SharedParser
import FieldFilter.Proofs.Spliced
import FieldFilter.Proofs.Negated
import FieldFilter.Proofs.Meaning
import FieldFilter.Proofs.Rendering
import FieldFilter.Proofs.Sugar
import FieldFilter.Proofs.Merging
import FieldFilter.Proofs.Blank
import FieldFilter.Proofs.Undetailed
import FieldFilter.Proofs.Narrowing
import FieldFilter.Proofs.Placeholder
import FieldFilter.Proofs.Complement
import FieldFilter.Proofs.PassedOver
import FieldFilter.Proofs.Provenance
import FieldFilter.Proofs.Consultations
import FieldFilter.Proofs.Redescribed
import FieldFilter.Proofs.LookedUp
import FieldFilter.Proofs.Idempotence
import FieldFilter.Proofs.Padded
import FieldFilter.Proofs.Offending
import FieldFilter.Proofs.WrittenLimits
import FieldFilter.Proofs.Released
import FieldFilter.Proofs.Scopes
import FieldFilter.Proofs.OncePerType
import FieldFilter.Cache.Tally
import FieldFilter.Proofs.Balance
import FieldFilter.Proofs.Encoded
import FieldFilter.Proofs.Growth
import FieldFilter.Proofs.ViewTable
import FieldFilter.Proofs.Wildcards
