import Synapse.Decimal.Binary64
import Synapse.Decimal.Shortest

namespace Synapse

namespace Decimal

/-- Leading exponents from `floor` up to, but not including, `ceiling` are written with a point. -/
structure PointRange where
  floor : Int
  ceiling : Int

def plain : PointRange := ⟨-4, 16⟩

def zeros (n : Nat) : String := String.ofList (List.replicate n '0')

def positional (d : Decimal) (ds : List Char) (lead : Int) : String :=
  if lead < 0 then "0." ++ zeros (-lead - 1).toNat ++ String.ofList ds
  else if 0 ≤ d.exponent then String.ofList ds ++ zeros d.exponent.toNat ++ ".0"
  else
    String.ofList (ds.take (lead.toNat + 1)) ++ "." ++ String.ofList (ds.drop (lead.toNat + 1))

def scientific (ds : List Char) (lead : Int) : String :=
  let fraction := if ds.length ≤ 1 then "" else "." ++ String.ofList (ds.drop 1)
  String.ofList (ds.take 1) ++ fraction ++ "e" ++ toString lead

def text (range : PointRange) (d : Decimal) : String :=
  let ds := Nat.toDigits 10 d.digits
  let lead := d.exponent + ds.length - 1
  if range.floor ≤ lead && lead < range.ceiling then d.positional ds lead else scientific ds lead

end Decimal

namespace Binary64

def text (x : Binary64) : String :=
  let sign := if x.negative then "-" else ""
  match x.magnitude with
  | .nan => "NaN"
  | .infinite => sign ++ "inf"
  | .zero => sign ++ "0.0"
  | .finite m q tight => sign ++ (Decimal.shortest m q tight).text Decimal.plain

/-- A list of numbers in brackets. -/
def listText (xs : List Binary64) : String :=
  "[" ++ ", ".intercalate (xs.map text) ++ "]"

end Binary64

end Synapse
