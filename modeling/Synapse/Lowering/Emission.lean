import Synapse.Kernel.Basic
import Synapse.Lowering.Recipe

namespace Synapse

/-- A kernel under construction, without its statements, and the counters for fresh names. -/
structure Build where
  vars : Array Variable
  nodes : Array Node := #[]
  tables : Array Table := #[]
  temporaries : Nat := 0
  indices : Nat := 0

abbrev Emit := StateM Build

namespace Emit

def push (n : Node) : Emit NodeId := fun b =>
  (b.nodes.size, { b with nodes := b.nodes.push n })

def var (v : VarId) : Emit NodeId := push (.var v)

def int (n : Int) : Emit NodeId := push (.literal (.int n))

def declare (name : String) (ty : Ty) : Emit VarId := fun b =>
  (b.vars.size, { b with vars := b.vars.push ⟨name, ty⟩ })

def temporary (ty : Ty) : Emit VarId := do
  let n := (← get).temporaries
  modify fun b => { b with temporaries := n + 1 }
  declare s!"t{n}" ty

def loopIndex : Emit VarId := do
  let n := (← get).indices
  modify fun b => { b with indices := n + 1 }
  declare s!"idx{n}" .int

def assign (lhs : Node) (rhs : NodeId) : Emit Stmt := do
  let l ← push lhs
  return .assign l rhs

def loop (index : VarId) (start stop : Int) (body : List Stmt) : Emit Stmt := do
  let s ← int start
  let e ← int stop
  return .loop index s e body

end Emit

/-- Where the result of a step is found. -/
structure Operand where
  var : VarId
  extent : Extent
deriving Inhabited

/-- Where the code for an ensemble runs. -/
structure Site where
  /-- The vector that holds the results of the layer before. -/
  input : VarId
  /-- The index of the ensemble's loop: the position of the member that is computed. -/
  index : VarId
  /-- The position of the first member. -/
  start : Nat
  /-- The table for the literal of rank zero; the others follow it. -/
  firstTable : TableId
  /-- The positions of the first member's sources. -/
  sources : List Nat
  wiring : Wiring

namespace Emit

/-- Reads an operand: a vector at the element that is being computed, a scalar as it is. -/
def operand (element : Option VarId) (x : Operand) : Emit NodeId := do
  match element, x.extent with
  | some e, .vector _ _ =>
    let i ← var e
    push (.element x.var i)
  | _, _ => var x.var

/-- Computes a scalar at once and a vector in a loop over its elements. -/
def elementwise (extent : Extent) (value : Option VarId → Emit NodeId) :
    Emit (VarId × List Stmt) := do
  let t ← temporary extent.ty
  match extent with
  | .scalar _ =>
    let rhs ← value none
    let s ← assign (.var t) rhs
    return (t, [s])
  | .vector _ len =>
    let e ← loopIndex
    let rhs ← value (some e)
    let i ← var e
    let s ← assign (.element t i) rhs
    let l ← loop e 0 len [s]
    return (t, [.define t, l])

def literal (site : Site) (rank : Nat) (ty : Ty) : Emit (VarId × List Stmt) := do
  let i ← var site.index
  let rhs ← push (.entry (site.firstTable + rank) i)
  let t ← temporary ty
  let s ← assign (.var t) rhs
  return (t, [s])

/-- The loop index times a stride other than zero. -/
def scaledIndex (site : Site) (stride : Int) : Emit NodeId := do
  if stride = 1 then var site.index
  else
    let s ← int stride
    let j ← var site.index
    push (.binary .mul s j)

/-- The position of the `i`-th source of the member that is computed. -/
def sourceIndex (site : Site) (i : Nat) : Emit NodeId := do
  let source : Int := site.sources.getD i 0
  match site.wiring with
  | .affine stride =>
    let base := source - stride * site.start
    if stride = 0 then int base
    else
      let scaled ← scaledIndex site stride
      if base = 0 then return scaled
      else
        let b ← int base
        push (.binary .add b scaled)
  | .table t =>
    let j ← var site.index
    let first ← push (.entry t j)
    let offset := source - site.sources.getD 0 0
    if offset = 0 then return first
    else
      let o ← int offset
      push (.binary .add first o)

/-- Reads an element of the layer before into a variable or an element of one. -/
def readInput (site : Site) (position : NodeId) (target : Emit Node) : Emit (List Stmt) := do
  let i ← temporary .int
  let s ← assign (.var i) position
  let j ← var i
  let rhs ← push (.element site.input j)
  let lhs ← target
  let s' ← assign lhs rhs
  return [s, s']

/-- Reads the inputs of the member that is computed. An input neuron reads the element at its own
position. -/
def input (site : Site) (extent : Extent) : Emit (VarId × List Stmt) := do
  let t ← temporary extent.ty
  match extent with
  | .scalar _ =>
    let position ← var site.index
    let reads ← readInput site position (return .var t)
    return (t, reads)
  | .vector _ len =>
    let reads ← (List.range len).mapM fun k => do
      let source ← sourceIndex site k
      readInput site source (return .element t (← int k))
    return (t, .define t :: reads.flatten)

/-- Folds the elements of a vector, starting from the first. -/
def reduce (kind : Reduction) (x : Operand) (ty : Ty) : Emit (VarId × List Stmt) := do
  let acc ← temporary ty
  let origin ← int 0
  let first ← push (.element x.var origin)
  let s ← assign (.var acc) first
  let e ← loopIndex
  let l ← var acc
  let r ← operand (some e) x
  let rhs ← push (.binary kind.operator l r)
  let s' ← assign (.var acc) rhs
  let body ← loop e 1 x.extent.len [s']
  return (acc, [s, body])

def activate (name : String) (x : Operand) (ty : Ty) : Emit (VarId × List Stmt) := do
  let operand ← var x.var
  let rhs ← push (.activate name operand)
  let t ← temporary ty
  let s ← assign (.var t) rhs
  return (t, [s])

/-- The code of one step, given where the results of the earlier steps are found. It leaves its own
result in a fresh variable. -/
def line (site : Site) (done : List Operand) (l : Line) : Emit (VarId × List Stmt) :=
  match l.step with
  | .literal rank => literal site rank l.extent.ty
  | .unary op x => elementwise l.extent fun e => do
    let x ← operand e (done.getD x default)
    push (.unary op x)
  | .binary op x y => elementwise l.extent fun e => do
    let x ← operand e (done.getD x default)
    let y ← operand e (done.getD y default)
    push (.binary op x y)
  | .input => input site l.extent
  | .reduce kind x => reduce kind (done.getD x default) l.extent.ty
  | .activate name x => activate name (done.getD x default) l.extent.ty

/-- The code of the steps that are left, and where the results of all steps are found. -/
def lines (site : Site) (done : List Operand) : Recipe → Emit (List Operand × List Stmt)
  | [] => return (done, [])
  | l :: rest => do
    let (var, here) ← line site done l
    let (all, below) ← lines site (done ++ [{ var, extent := l.extent }]) rest
    return (all, here ++ below)

end Emit

end Synapse
