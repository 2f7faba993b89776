import Synapse.Compile
import Synapse.Sample

namespace Synapse.CommandLine

inductive UsageError where
  | unknownArgument
  | invalidValue
  | valueValidation
  | argumentConflict
  | tooManyValues
  | displayHelp
  | displayVersion
deriving DecidableEq

inductive Flag where
  | debug
  | printNetwork
  | printEnsembles
  | printKernel
  | help
  | version
deriving DecidableEq

/-- The options that take a number. -/
inductive Setting where
  | neurons
  | layers
deriving DecidableEq

inductive Name where
  | flag (f : Flag)
  | setting (s : Setting)

def longName? : String → Option Name
  | "neurons" => some (.setting .neurons)
  | "layers" => some (.setting .layers)
  | "debug" => some (.flag .debug)
  | "print-network" => some (.flag .printNetwork)
  | "print-ensembles" => some (.flag .printEnsembles)
  | "print-ir" => some (.flag .printKernel)
  | "help" => some (.flag .help)
  | "version" => some (.flag .version)
  | _ => none

/-- The number that decimal digits stand for, after an optional plus sign, if it fits into 64
bits. -/
def number? (cs : List Char) : Option Nat :=
  let digits := if cs.head? = some '+' then cs.drop 1 else cs
  if digits.isEmpty || !digits.all Char.isDigit then none
  else
    let n := digits.foldl (fun n c => 10 * n + (c.toNat - '0'.toNat)) 0
    if n < UInt64.size then some n else none

/-- What the arguments read so far ask for. A setting that has been named stays pending, with its
value once that has been read, until the next option or the end settles it. -/
structure Parsed where
  neurons : Option Nat := none
  layers : Option Nat := none
  flags : List Flag := []
  pending : Option (Setting × Option (List Char)) := none

namespace Parsed

def given (p : Parsed) : Setting → Bool
  | .neurons => p.neurons.isSome
  | .layers => p.layers.isSome

def set (p : Parsed) (n : Nat) : Setting → Parsed
  | .neurons => { p with neurons := some n }
  | .layers => { p with layers := some n }

/-- Gives a setting its value. -/
def assign (p : Parsed) (s : Setting) (value : List Char) : Except UsageError Parsed :=
  if p.given s then .error .argumentConflict
  else match number? value with
    | some n => .ok (p.set n s)
    | none => .error .valueValidation

/-- Settles the setting that is pending. -/
def settle (p : Parsed) : Except UsageError Parsed :=
  match p.pending with
  | none => .ok p
  | some (_, none) => .error .invalidValue
  | some (s, some value) => { p with pending := none }.assign s value

/-- Raises a flag. -/
def raise (p : Parsed) (f : Flag) : Except UsageError Parsed := do
  let p ← p.settle
  match f with
  | .help => throw .displayHelp
  | .version => throw .displayVersion
  | f => if f ∈ p.flags then throw .argumentConflict else return { p with flags := f :: p.flags }

/-- An argument that starts with two dashes, which have been removed. -/
def long (p : Parsed) (cs : List Char) : Except UsageError Parsed := do
  let name := cs.takeWhile (· != '=')
  let value := (cs.dropWhile (· != '=')).tail?
  match longName? (String.ofList name), value with
  | none, _ => throw .unknownArgument
  | some (.flag _), some _ => throw .tooManyValues
  | some (.flag f), none => p.raise f
  | some (.setting s), some v => (← p.settle).assign s v
  | some (.setting s), none => return { ← p.settle with pending := some (s, none) }

/-- An argument that starts with one dash, which has been removed. -/
def short (p : Parsed) : List Char → Except UsageError Parsed
  | 'h' :: _ => p.raise .help
  | 'V' :: _ => p.raise .version
  | _ => .error .unknownArgument

/-- An argument that is no option: the value of a setting, if one waits for it. -/
def plain (p : Parsed) (cs : List Char) : Except UsageError Parsed :=
  match p.pending with
  | some (s, none) => .ok { p with pending := some (s, some cs) }
  | _ => .error .unknownArgument

/-- Reads the arguments from left to right. Nothing may follow two dashes on their own. -/
def read (p : Parsed) : List (List Char) → Except UsageError Parsed
  | [] => p.settle
  | arg :: rest => match arg with
    | ['-', '-'] => if rest.isEmpty then p.settle else .error .unknownArgument
    | '-' :: '-' :: cs => do (← p.long cs).read rest
    | '-' :: c :: cs => do (← p.short (c :: cs)).read rest
    | cs => do (← p.plain cs).read rest

end Parsed

/-- What is to be done. -/
structure Request where
  neurons : Nat := 3
  layers : Nat := 1
  debug : Bool := false
  options : Options
deriving DecidableEq

def Parsed.request (p : Parsed) : Request where
  neurons := p.neurons.getD 3
  layers := p.layers.getD 1
  debug := p.flags.contains .debug
  options := Options.orDefault
    { network := p.flags.contains .printNetwork
      ensembles := p.flags.contains .printEnsembles
      kernel := p.flags.contains .printKernel }

/-- Reads the arguments that follow the program's name. -/
def parse (args : List String) : Except UsageError Request := do
  let p ← Parsed.read {} (args.map String.toList)
  return p.request

inductive RunError where
  | noNeurons
  | failed (f : Failure)

def RunError.message : RunError → String
  | noNeurons => "--neurons must be at least 1"
  | failed f => f.message

/-- Compiles the sample network; gives the listing and what was reported on the way. -/
def run (r : Request) : Except RunError (String × Array Event) :=
  if r.neurons = 0 then .error .noNeurons
  else
    let work : Pass Compiled := do
      Sample.perceptron r.neurons r.layers
      Pass.compile r.options
    match work {} with
    | .ok c s => .ok (c.listing, s.log)
    | .error f _ => .error (.failed f)

end Synapse.CommandLine
