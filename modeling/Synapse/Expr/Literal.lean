import Synapse.Ty
import Synapse.Decimal.Text

namespace Synapse

inductive Literal where
  | int (n : Int)
  | bool (b : Bool)
  | real (x : Binary64)
  | vec (xs : List Binary64)
deriving DecidableEq

namespace Literal

def ty : Literal → Ty
  | int _ => .int
  | bool _ => .bool
  | real _ => .real
  | vec xs => .vectorOf .real xs.length

/-- Whether two literals differ in their values only. -/
def sameKind : Literal → Literal → Bool
  | int _, int _ => true
  | bool _, bool _ => true
  | real _, real _ => true
  | vec xs, vec ys => xs.length == ys.length
  | _, _ => false

def text : Literal → String
  | int n => toString n
  | bool b => if b then "true" else "false"
  | real x => x.text
  | vec xs => Binary64.listText xs

end Literal

end Synapse
