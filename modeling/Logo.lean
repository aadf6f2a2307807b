import Logo.Main
import Logo.Proofs.Accesses
import Logo.Proofs.Brackets
import Logo.Proofs.Carets
import Logo.Proofs.CodeApart
import Logo.Proofs.Collecting
import Logo.Proofs.Declarations
import Logo.Proofs.DepthBound
import Logo.Proofs.FaultPlaces
import Logo.Proofs.FrameStack
import Logo.Proofs.Grouping
import Logo.Proofs.OrderLaws
import Logo.Proofs.Queueing
import Logo.Proofs.Refinement
import Logo.Proofs.Replacing
import Logo.Proofs.Reprinting
import Logo.Proofs.Rounds
import Logo.Proofs.StaleTexts
import Logo.Proofs.StoredDefinitions
import Logo.Proofs.Templates
import Logo.Proofs.Visiting
