import Synapse.Expr.Node

namespace Synapse

/-- How the members of an ensemble find their inputs. The offsets between the sources of one member
are the same for all, so it is enough to know the position of each member's first source. -/
inductive Wiring where
  /-- From each member to the next, the first source moves by `stride` positions. -/
  | affine (stride : Int)
  /-- A table holds the position of each member's first source. -/
  | table (t : TableId)
deriving DecidableEq

namespace Wiring

/-- The stride that explains the positions of all first sources, if there is one. Positions are
those of the members in order; a member without sources has none. -/
def stride? (bases : List (Option Int)) : Option Int :=
  let first : Int := (bases[0]?.join).getD 0
  let stride : Int := match bases[1]?.join with
    | some second => second - first
    | none => 0
  if bases.zipIdx.all fun (base, k) => base == some (first + stride * k) then some stride else none

def text : Wiring → String
  | affine stride => s!"affine with stride {stride}"
  | table t => s!"table {tableLabel t}"

end Wiring

end Synapse
