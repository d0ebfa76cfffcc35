import Reir.DeclaredTuples
import Reir.ValueTypes

/-! References. What an assignment stores to, and what a member or an array reference yields, is an
address inside of the slot of its variable exactly if the types of the program allow it. -/
namespace Reir
open Gen BlockGraph

/-- The reference that an expression needs: an assignment that of its target, a member or an array
reference its own. -/
def Expression.reference : Expression → Option Expression
  | .assign _ t _ => some t
  | .arrayReference n p i => some (.arrayReference n p i)
  | .memberReference n p x o => some (.memberReference n p x o)
  | _ => none

section
variable {Γ : TypeEnv} {slots : List LLType} {d d' : Ctx}

end

end Reir
