namespace Synapse

/-- The decimal `digits * 10 ^ exponent`. -/
structure Decimal where
  digits : Nat
  exponent : Int
deriving DecidableEq

namespace Decimal

/-- The point of the grid of multiples of `10 ^ k` that stands for `m * 2 ^ q`, if that grid has
one. Everything is scaled by a common factor, so that the number is `value`, the step of the grid
is `unit`, and the numbers that read back lie between `low` and `high`. -/
def onGrid (m : Nat) (q : Int) (tight : Bool) (k : Int) : Option Decimal :=
  let scale := Nat.pow 10 (-k).toNat <<< (q - 2).toNat
  let unit := Nat.pow 10 k.toNat <<< (2 - q).toNat
  let value := 4 * m * scale
  let low := (4 * m - if tight then 1 else 2) * scale
  let high := (4 * m + 2) * scale
  let readsBack (d : Nat) : Bool :=
    if m % 2 = 0 then low ≤ d * unit && d * unit ≤ high else low < d * unit && d * unit < high
  let below := value / unit
  let above := below + 1
  let nearer := if 2 * (value - below * unit) < unit then below else above
  if readsBack below && readsBack above then some ⟨nearer, k⟩
  else if readsBack below then some ⟨below, k⟩
  else if readsBack above then some ⟨above, k⟩
  else none

/-- No grid coarser than this one has a point for `m * 2 ^ q`. -/
def coarsest (m : Nat) (q : Int) : Int :=
  ((m.log2 : Int) + q + 2) * 30103 / 100000 + 1

/-- The shortest decimal that reads back as `m * 2 ^ q`: the point of the first of the grids, from
the coarsest on, that has one. Seventeen digits always suffice, so the search never runs dry. -/
def shortest (m : Nat) (q : Int) (tight : Bool) : Decimal :=
  ((List.range 20).findSome? fun i : Nat => onGrid m q tight (coarsest m q - i)).getD ⟨m, q⟩

end Decimal

end Synapse
