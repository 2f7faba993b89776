import Synapse.Text.Extending
import Synapse.Text.Unseen

namespace Synapse.Text

/-- Whether a character is written by number: it would not be seen, or would change the look of
the character before it. -/
def isHidden (c : Char) : Bool := isUnseen c || isExtending c

def escape (c : Char) : String :=
  match c with
  | '\t' => "\\t"
  | '\n' => "\\n"
  | '\r' => "\\r"
  | '"' => "\\\""
  | '\\' => "\\\\"
  | _ =>
    if c.toNat = 0 then "\\0"
    else if isHidden c then
      "\\u\x7b" ++ String.ofList (Nat.toDigits 16 c.toNat) ++ "\x7d"
    else c.toString

/-- Text between double quotes, with what cannot be seen written as an escape. -/
def quoted (cs : List Char) : String := "\"" ++ String.join (cs.map escape) ++ "\""

end Synapse.Text
