import Octa.Output.Redaction

/-!
# Number and boolean secrets in texts

A secret that is no string is replaced where it stands as a token of its own.
The matches are enumerated from the left without overlaps and judged by the text
around them, so a token can survive a rejected match or come about beside a marker.
-/

namespace Octa.Output

open List

variable {alnum : Char → Bool} {secret : List Char}

end Octa.Output
