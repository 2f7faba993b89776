import Synapse.Expr.Node

namespace Synapse

inductive TypeError where
  | incompatibleOperands (lhs rhs : Ty)
  | outputNotScalar (layer neuron : Nat) (ty : Ty)
  | reductionOfScalar (ty : Ty)
  | emptyReduction
  | foreignInput (layer neuron : Nat)
  | activationOfVector (name : String) (ty : Ty)
  | indexedScalar (ty : Ty)
  | vectorIndex (ty : Ty)
  | assignmentMismatch (lhs rhs : Ty)
  | vectorAssignment (ty : Ty)
  | notATarget
  | vectorBound (ty : Ty)
deriving DecidableEq

def TypeError.message : TypeError → String
  | incompatibleOperands t u => s!"incompatible operand types {t.text} and {u.text}"
  | outputNotScalar l n t =>
    s!"output of neuron {n} in layer {l} must be a scalar, found {t.text}"
  | reductionOfScalar t => s!"reduction argument must be a vector, found {t.text}"
  | emptyReduction => "reduction over an empty vector"
  | foreignInput l n => s!"neuron {n} of layer {l} reads the inputs of another neuron"
  | activationOfVector f t =>
    s!"activation function `{f}` requires a scalar argument, found {t.text}"
  | indexedScalar t => s!"only vectors can be indexed, found {t.text}"
  | vectorIndex t => s!"index must be a scalar, found {t.text}"
  | assignmentMismatch t u => s!"assignment of {u.text} to {t.text}"
  | vectorAssignment t => s!"assignment target must be a scalar, found {t.text}"
  | notATarget => "assignment target must be a variable or an indexed variable"
  | vectorBound t => s!"loop bounds must be scalars, found {t.text}"

inductive GraphError where
  | outputAsSource
  | inputAsSink
  | missingConnections (layer neuron : Nat)
  | missingForward (layer neuron : Nat)
  | unknownNeuron (layer neuron : Nat)
deriving DecidableEq

def GraphError.message : GraphError → String
  | outputAsSource => "an output neuron cannot be the source of a connection"
  | inputAsSink => "an input neuron cannot be the sink of a connection"
  | missingConnections l n => s!"no connections given for neuron {n} of layer {l}"
  | missingForward l n => s!"neuron {n} of layer {l} has no forward propagation value"
  | unknownNeuron l n => s!"layer {l} has no neuron {n}"

inductive DefinitionError where
  | unassignable (target : String)
  | undefinedRead (name : String)
deriving DecidableEq

def DefinitionError.message : DefinitionError → String
  | unassignable t => s!"cannot assign to {t}"
  | undefinedRead x => s!"{x} is read before it is defined"

/-- What is wrong with the caller's network, expression or kernel. -/
inductive Error where
  | type (e : TypeError)
  | graph (e : GraphError)
  | definition (e : DefinitionError)
deriving DecidableEq

def Error.message : Error → String
  | type e => e.message
  | graph e => e.message
  | definition e => e.message

/-- Something that should hold by construction does not, or a number was used that names nothing. -/
inductive Defect where
  | outOfRange (size index : Nat)
  | inputOutsideNetwork (n : NeuronId)
  | variableOutsideKernel (v : VarId)
  | tableOutsideKernel (t : TableId)
  | arity (a b : NeuronId) (sourcesA sourcesB : Nat)
  | entryType (c : Literal) (t : TableId) (elem : Ty)
  | literalCount (n : NeuronId) (own wanted : Nat)
  | illTyped (e : Error)
  | unknownLength (id : NodeId)
  | loweredNode (id : NodeId)
deriving DecidableEq

/-- The wording of a failed test for equality. -/
def unequal (note left right : String) : String :=
  s!"assertion `left == right` failed: {note}\n  left: {left}\n right: {right}"

def Defect.message : Defect → String
  | outOfRange n i => s!"index out of bounds: the len is {n} but the index is {i}"
  | inputOutsideNetwork n =>
    s!"internal invariant violation: input of {neuronLabel n} read outside of a network"
  | variableOutsideKernel v =>
    s!"internal invariant violation: {varLabel v} used outside of a function"
  | tableOutsideKernel t =>
    s!"internal invariant violation: {tableLabel t} used outside of a function"
  | arity a b m n =>
    unequal (s!"internal invariant violation: neurons {neuronLabel a} and {neuronLabel b} " ++
      "have identical expressions but a different number of inputs") (toString m) (toString n)
  | entryType c t elem =>
    s!"internal invariant violation: {c.text} of type {c.ty.text} " ++
      s!"added to {tableLabel t} of type {elem.text}"
  | literalCount n own wanted =>
    unequal (s!"internal invariant violation: {neuronLabel n} has {own} constants " ++
      s!"but its ensemble has {wanted}") (toString own) (toString wanted)
  | illTyped e => s!"internal invariant violation: lowering ill-typed value: {e.message}"
  | unknownLength id =>
    s!"internal invariant violation: {nodeLabel id} has a vector type without length"
  | loweredNode id =>
    s!"internal invariant violation: lowered value {nodeLabel id} inside a network"

inductive Failure where
  | error (e : Error)
  | defect (d : Defect)
deriving DecidableEq

def Failure.message : Failure → String
  | error e => e.message
  | defect d => d.message

section

variable {m : Type → Type} [Monad m] [MonadExceptOf Failure m] {α : Type}

/-- Goes on with a result, or stops with the defect. -/
def orDefect : Except Defect α → m α
  | .ok a => pure a
  | .error d => throw (.defect d)

/-- Goes on with a result, or stops with the type error. -/
def orTypeError : Except TypeError α → m α
  | .ok a => pure a
  | .error e => throw (.error (.type e))

/-- Goes on with a result, or stops with the failure. -/
def orFail : Except Failure α → m α
  | .ok a => pure a
  | .error e => throw e

end

/-- Turns an error, but not a defect, into a result. -/
def attempt {σ α : Type} (x : EStateM Failure σ α) : EStateM Failure σ (Except Error α) := fun s =>
  match x s with
  | .ok a s => .ok (.ok a) s
  | .error (.error e) s => .ok (.error e) s
  | .error (.defect d) s => .error (.defect d) s

end Synapse
