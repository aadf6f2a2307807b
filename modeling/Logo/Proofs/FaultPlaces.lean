import Logo.Error
import Logo.Proofs.Reading
import Logo.Proofs.TokenPlaces

/-!
# Where errors of reading are

An error that keeps a text from being read has a place. If the text cannot be cut into tokens, it is
the place of the character from which no token can be cut. If the tokens cannot be read, it is the
place of one of them, or that of the end: the token that is not expected, the one that opens what is
never closed, or the word that gives a second name to an unknown procedure.
-/

namespace Logo

variable {ε α β : Type}

variable {scan : Scan} {source : String} {cause : ParseError} {procedures : Procedures}

end Logo
