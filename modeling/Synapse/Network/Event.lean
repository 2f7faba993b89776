import Synapse.Lowering.Wiring

namespace Synapse

inductive Level where
  | trace
  | debug
  | info
deriving DecidableEq

def Level.name : Level → String
  | trace => "TRACE"
  | debug => "DEBUG"
  | info => "INFO"

inductive Event where
  | connecting (src sink : LayerId) (edges : Nat)
  | typed (layer : LayerId) (position : Nat) (ty : Ty)
  | ensemble (layer : LayerId) (start stop : Nat)
  | grouped (layer : LayerId) (ensembles : Nat)
  | wired (start : Nat) (wiring : Wiring)
  | loweredEnsemble (layer : LayerId) (start stop : Nat)
  | lowered (layers statements tables : Nat)
  | compiled (layers tables : Nat)
deriving DecidableEq

namespace Event

def level : Event → Level
  | typed .. => .trace
  | lowered .. | compiled .. => .info
  | _ => .debug

def message : Event → String
  | connecting src sink n => s!"Connecting layer {src} to layer {sink} with {n} edges"
  | typed l p t => s!"Layer {l} neuron {p} has type {t.text}"
  | ensemble l s e => s!"Layer {l}: ensemble [{s}, {e})"
  | grouped l n => s!"Layer {l} has {n} ensembles"
  | wired s w => s!"Input wiring of ensemble at {s}: {w.text}"
  | loweredEnsemble l s e => s!"Lowered ensemble [{s}, {e}) of layer {l}"
  | lowered l s t => s!"Lowered {l} layers into {s} top-level statements and {t} value sets"
  | compiled l t => s!"Compiled {l} layers into {t} value sets"

def text (e : Event) : String := e.level.name ++ " " ++ e.message

end Event

end Synapse
