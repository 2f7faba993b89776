namespace Synapse.Text

/-- First and last code points of runs, in ascending order and apart from each other. -/
abbrev Ranges := List (Nat × Nat)

namespace Ranges

def has (rs : Ranges) (c : Char) : Bool := rs.any fun r => r.1 ≤ c.toNat && c.toNat ≤ r.2

end Ranges

end Synapse.Text
