import Synapse.CommandLine

namespace Synapse.CommandLine

def usage : String :=
  "Compile a sample multi-layer perceptron and print the result\n\n" ++
  "Options:\n" ++
  "      --print-network      Print the network listing\n" ++
  "      --print-ensembles    Print the ensembles of every layer\n" ++
  "      --print-ir           Print the lowered function\n" ++
  "      --neurons <NEURONS>  Number of neurons per layer [default: 3]\n" ++
  "      --layers <LAYERS>    Number of hidden layers [default: 1]\n" ++
  "      --debug              Print debug logs\n" ++
  "  -h, --help               Print help\n" ++
  "  -V, --version            Print version\n"

def UsageError.text : UsageError → String
  | .unknownArgument => "error: unexpected argument found"
  | .invalidValue => "error: a value is required but none was supplied"
  | .valueValidation => "error: invalid value for an argument"
  | .argumentConflict => "error: an argument cannot be used multiple times"
  | .tooManyValues => "error: unexpected value for an argument"
  | .displayHelp => usage
  | .displayVersion => "0.1.0\n"

/-- Whether the arguments ask for a text instead of a run. -/
def UsageError.isRequest : UsageError → Bool
  | .displayHelp | .displayVersion => true
  | _ => false

/-- What is shown of the reports, with the levels flush right. -/
def logLines (log : Array Event) : List String :=
  (log.toList.filter (·.level != .trace)).map fun e =>
    let level := e.level.name
    String.ofList (List.replicate (5 - level.length) ' ') ++ e.text

end Synapse.CommandLine

def main (args : List String) : IO UInt32 := do
  match Synapse.CommandLine.parse args with
  | .error e =>
    if e.isRequest then
      IO.print e.text
      return 0
    else
      IO.eprintln e.text
      return 2
  | .ok request =>
    match Synapse.CommandLine.run request with
    | .error e =>
      IO.eprintln s!"Error: {e.message}"
      return 1
    | .ok (listing, log) =>
      if request.debug then
        for line in Synapse.CommandLine.logLines log do
          IO.println line
      IO.print listing
      return 0
