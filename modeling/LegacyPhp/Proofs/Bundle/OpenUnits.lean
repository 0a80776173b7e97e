import LegacyPhp.Proofs.Bundle.Braces

/-!
# Units that leave braces open

A unit can be one part of a text that was cut, so that braces are open at its end. `lastState` is
the state in which its tokens come to an end, and its stack tells what the bundle is owed there
(`follow_due_tokens`): a closing brace for every open brace but those that opened a namespace, since
they were not copied. A unit that starts behind such a part knows nothing of the stack and copies
the closing braces of all of them.
-/

namespace LegacyPhp.Bundle

open Text List

end LegacyPhp.Bundle
