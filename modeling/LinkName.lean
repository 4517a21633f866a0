import LinkName.Naming
import LinkName.Proofs.Bounds
import LinkName.Proofs.Dependence
import LinkName.Proofs.FirstFit
import LinkName.Proofs.Invariance
import LinkName.Proofs.Itanium.Classes
import LinkName.Proofs.Itanium.Instances
import LinkName.Proofs.Itanium.Mappable
import LinkName.Proofs.Itanium.Numbering
import LinkName.Proofs.Itanium.Siblings
import LinkName.Proofs.Itanium.SlotName
import LinkName.Proofs.Itanium.Slots
import LinkName.Proofs.Itanium.Underscore
import LinkName.Proofs.Itanium.Unqualified
import LinkName.Proofs.Itanium.Visibility
import LinkName.Proofs.Levels
import LinkName.Proofs.Microsoft.Acceptance
import LinkName.Proofs.Microsoft.Constness
import LinkName.Proofs.Microsoft.Dialects
import LinkName.Proofs.Microsoft.Digits
import LinkName.Proofs.Microsoft.Dimensions
import LinkName.Proofs.Microsoft.Membership
import LinkName.Proofs.Microsoft.Reading
import LinkName.Proofs.Microsoft.Repeats
import LinkName.Proofs.Microsoft.Siblings
import LinkName.Proofs.Microsoft.Unpacking
import LinkName.Proofs.Overloads
import LinkName.Proofs.Passing
import LinkName.Proofs.Refusals
import LinkName.Proofs.Sharing
import LinkName.Proofs.Siblings
import LinkName.Proofs.Transparency
import LinkName.Proofs.Type.Identity
import LinkName.Proofs.Value
