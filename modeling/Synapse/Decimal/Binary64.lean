namespace Synapse

/-- A floating-point number of 64 bits. Such numbers are stored and printed but never computed with,
so a number is its bits. -/
structure Binary64 where
  bits : UInt64
deriving DecidableEq

namespace Binary64

/-- What the bits stand for. A finite number is `m * 2 ^ q` up to its sign; `tight` says that
the next smaller number is only half as far away as the next larger one. -/
inductive Magnitude where
  | nan
  | infinite
  | zero
  | finite (m : Nat) (q : Int) (tight : Bool)

def negative (x : Binary64) : Bool := x.bits >>> 63 == 1

def magnitude (x : Binary64) : Magnitude :=
  let field := (x.bits >>> 52 &&& 0x7ff).toNat
  let fraction := (x.bits &&& 0xfffffffffffff).toNat
  if field = 0x7ff then
    if fraction = 0 then .infinite else .nan
  else if field = 0 then
    if fraction = 0 then .zero else .finite fraction (-1074) false
  else
    .finite (1 <<< 52 + fraction) (Int.ofNat field - 1075) (fraction = 0 && 1 < field)

/-- The number `n / 2 ^ k`, which is exact for `n` of up to 53 bits and small `k`. -/
def ofDyadic (n : Int) (k : Nat) : Binary64 :=
  let m := n.natAbs
  if m = 0 then ⟨0⟩
  else
    let e := m.log2
    let sign := if n < 0 then 1 <<< 63 else 0
    ⟨UInt64.ofNat (sign + (1023 + e - k) <<< 52 + (m <<< (52 - e) - 1 <<< 52))⟩

end Binary64

end Synapse
