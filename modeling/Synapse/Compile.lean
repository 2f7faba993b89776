import Synapse.Kernel.Listing
import Synapse.Lowering.Layers
import Synapse.Network.Listing

namespace Synapse

structure Options where
  network : Bool := false
  ensembles : Bool := false
  kernel : Bool := false
deriving DecidableEq

/-- Only the kernel is listed where nothing is asked for. -/
def Options.orDefault (o : Options) : Options :=
  if o = {} then { kernel := true } else o

structure Compiled where
  kernel : Kernel
  listing : String

namespace Pass

/-- A listing that is asked for, with a line left empty after it. -/
def sectionOf (wanted : Bool) (text : Pass String) : Pass String :=
  if wanted then return (← text) ++ "\n" else return ""

def compile (o : Options) : Pass Compiled := do
  check
  group
  let net ← sectionOf o.network (return (← network).listing)
  let ensembles ← sectionOf o.ensembles ensembleListing
  let kernel ← lower
  let code ← sectionOf o.kernel (orFail (kernel.run Kernel.listing))
  report (.compiled (← network).layers.size kernel.tables.size)
  return { kernel, listing := net ++ ensembles ++ code }

end Pass

end Synapse
