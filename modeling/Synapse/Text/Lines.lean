import Synapse.Failure
import Synapse.Text.Blank
import Synapse.Text.Quoted

namespace Synapse.Text

abbrev TextLine := List Char

/-- What stands between the line feeds of a text. -/
def segments : List Char → List TextLine
  | [] => [[]]
  | c :: cs =>
    if c = '\n' then [] :: segments cs
    else match segments cs with
      | [] => [[c]]
      | l :: ls => (c :: l) :: ls

/-- Drops one carriage return at the end. -/
def dropReturn (l : TextLine) : TextLine := if l.getLast? = some '\r' then l.dropLast else l

/-- The lines of a text. A line feed ends a line, together with a carriage return before it; what
stands after the last one is a line unless it is empty. -/
def lines (cs : List Char) : List TextLine :=
  let parts := segments cs
  let last := parts.getLastD []
  parts.dropLast.map dropReturn ++ if last.isEmpty then [] else [last]

/-- Whether `w` stands somewhere in a line. -/
def contains (w : List Char) : TextLine → Bool
  | [] => w.isEmpty
  | c :: cs => w.isPrefixOf (c :: cs) || contains w cs

inductive Mismatch where
  | notFound (line : Nat)
  | unexpected (line : Nat)
  | different (actual expected : TextLine)
  /-- The expected lines, and the number of the one that is missing. -/
  | lacking (expected : List TextLine) (line : Nat)

namespace Mismatch

/-- The expected lines with a mark at one that is missing. -/
def marked (expected : List TextLine) (line : Nat) : String :=
  "\n".intercalate (expected.zipIdx.map fun (l, i) =>
    String.ofList l ++ if i = line then "   <== missing" else "")

def message (caller : String) : Mismatch → String
  | notFound i => s!"Expected line {i} not found in output: called from {caller}"
  | unexpected i => s!"Unexpected line {i} in output: called from {caller}"
  | different a e => unequal s!"called from {caller}" (quoted a) (quoted e)
  | lacking expected i =>
    s!"Output lacks a line:\n```\n{marked expected i}\n```\nwhen called from {caller}"

end Mismatch

/-- Compares lines one by one; the first of them has number `i`. -/
def compareLines (i : Nat) : List TextLine → List TextLine → Option Mismatch
  | [], [] => none
  | [], _ :: _ => some (.notFound i)
  | _ :: _, [] => some (.unexpected i)
  | a :: as, e :: es =>
    if trim a = trim e then compareLines (i + 1) as es else some (.different (trim a) (trim e))

/-- Whether the texts agree, and if not, where they first differ. -/
def checkExact (actual expected : String) : Option Mismatch :=
  compareLines 0 (lines (trim actual.toList)) (lines (trim expected.toList))

/-- The lines after the first that contains `w`. -/
def linesAfter (w : List Char) : List TextLine → Option (List TextLine)
  | [] => none
  | l :: ls => if contains w l then some ls else linesAfter w ls

/-- The number of the first wanted line that is not contained in any line left. Each wanted line
uses up the lines up to the one that contains it; blank lines are not wanted. -/
def firstMissing (i : Nat) (left : List TextLine) : List TextLine → Option Nat
  | [] => none
  | w :: ws =>
    if trim w = [] then firstMissing (i + 1) left ws
    else match linesAfter (trim w) left with
      | none => some i
      | some rest => firstMissing (i + 1) rest ws

/-- Whether the expected lines are contained in lines of the actual text, in order. -/
def checkContained (actual expected : String) : Option Mismatch :=
  let wanted := lines (trim expected.toList)
  (firstMissing 0 (lines (trim actual.toList)) wanted).map (.lacking wanted)

end Synapse.Text
