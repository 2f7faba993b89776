import Synapse.Network.Session

namespace Synapse.Pass

/-- The positions of a neuron's sources in their layers. -/
def sourcePositions (n : Neuron) : Pass (List Nat) :=
  n.sources.mapM fun s => return (← neuron s).position

/-- Positions relative to the first. -/
def offsets (positions : List Nat) : List Int :=
  positions.map fun p : Nat => (p : Int) - (positions.headD 0 : Nat)

/-- Whether one loop body can compute both neurons: their expressions have one shape, and their
sources lie at the same offsets. -/
def mergeable (a b : NeuronId) : Pass Bool := do
  let m ← neuron a
  let n ← neuron b
  match m.forward, n.forward with
  | some v, some w =>
    if ← sameShape v w then
      if m.sources.length = n.sources.length then
        let p ← sourcePositions m
        let q ← sourcePositions n
        return offsets p == offsets q
      else throw (.defect (.arity a b m.sources.length n.sources.length))
    else return false
  | _, _ => return false

/-- Splits the neurons that are left into runs, given the run that is open. Each neuron is
compared with the representative of the open run only. -/
def runs (current : Ensemble) : List NeuronId → Pass (List Ensemble)
  | [] => return [current]
  | n :: rest => do
    if ← mergeable n current.representative then
      runs { current with others := current.others ++ [n] } rest
    else
      let next : Ensemble :=
        { layer := current.layer, start := current.stop, representative := n, others := [] }
      return current :: (← runs next rest)

/-- Splits all neurons of a layer into runs. -/
def split (l : LayerId) : List NeuronId → Pass (List Ensemble)
  | [] => return []
  | n :: rest => runs { layer := l, start := 0, representative := n, others := [] } rest

/-- The ensembles of a layer, found afresh. -/
def collect (l : LayerId) : Pass (List Ensemble) := do
  let ensembles ← split l (← layer l).neurons
  ensembles.forM fun e => report (.ensemble l e.start e.stop)
  return ensembles

/-- The ensembles of a layer: the stored ones, if there are any. -/
def ensembles (l : LayerId) : Pass (List Ensemble) := do
  match (← layer l).ensembles with
  | some es => return es
  | none => collect l

def groupLayer (l : LayerId) : Pass Unit := do
  let es ← collect l
  report (.grouped l es.length)
  let net ← network
  setNetwork { net with layers := net.layers.modify l fun x => { x with ensembles := some es } }

/-- Finds and stores the ensembles of every layer. -/
def group : Pass Unit := do
  let net ← network
  (List.range net.layers.size).forM groupLayer

end Synapse.Pass
