namespace Synapse

inductive Scalar where
  | bool
  | int
  | real
deriving DecidableEq, Inhabited

namespace Scalar

/-- The scalar an operator computes in. Integers widen to reals, nothing narrows, and booleans
meet only booleans. -/
def join : Scalar → Scalar → Option Scalar
  | bool, bool => some bool
  | int, int => some int
  | int, real | real, int | real, real => some real
  | _, _ => none

def text : Scalar → String
  | bool => "[bool]"
  | int => "[int]"
  | real => "[real]"

end Scalar

/-- A vector holds scalars only, so vectors do not nest. -/
inductive Ty where
  | scalar (s : Scalar)
  | vector (elem : Scalar) (len : Option Nat)
deriving DecidableEq

namespace Ty

abbrev bool : Ty := .scalar .bool
abbrev int : Ty := .scalar .int
abbrev real : Ty := .scalar .real

/-- The type of a vector of `n` elements. Lengths are words of 32 bits. -/
def vectorOf (elem : Scalar) (n : Nat) : Ty := .vector elem (some (n % UInt32.size))

def isScalar : Ty → Bool
  | scalar _ => true
  | vector _ _ => false

def isVector (t : Ty) : Bool := !t.isScalar

def asScalar : Ty → Option Scalar
  | scalar s => some s
  | vector _ _ => none

/-- The element type of a vector; a scalar is its own element. -/
def elem : Ty → Scalar
  | scalar s => s
  | vector s _ => s

/-- The length of a vector, where it is known. -/
def len : Ty → Option Nat
  | scalar _ => none
  | vector _ n => n

/-- Equality up to the lengths of vectors. -/
def agrees : Ty → Ty → Bool
  | scalar s, scalar t => s == t
  | vector s _, vector t _ => s == t
  | _, _ => false

/-- The shorter of two lengths, where an unknown length does not bound anything. -/
def shorter : Option Nat → Option Nat → Option Nat
  | some m, some n => some (min m n)
  | some m, none => some m
  | none, n => n

/-- The type of an operator's result. Scalars broadcast over vectors, and vectors are cut to the
shortest known length. -/
def join (t u : Ty) : Option Ty := do
  let s ← t.elem.join u.elem
  if t.isScalar && u.isScalar then some (.scalar s)
  else some (.vector s (shorter t.len u.len))

def text : Ty → String
  | scalar s => s.text
  | vector s (some n) => s!"[ Vector {s.text}, {n} ]"
  | vector s none => s!"[ Vector {s.text} ]"

end Ty

end Synapse
