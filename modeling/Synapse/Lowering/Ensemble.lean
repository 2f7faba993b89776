import Synapse.Lowering.Emission
import Synapse.Network.Grouping

namespace Synapse.Pass

/-- The expression that computes a neuron. -/
def forwardOf (n : NeuronId) : Pass NodeId := do
  let x ← neuron n
  match x.forward with
  | some root => return root
  | none => throw (.error (.graph (.missingForward x.layer x.position)))

/-- The literals of a member's expression, which must be as many as there are tables. -/
def literalsOf (n : NeuronId) (tables : Nat) : Pass (List Literal) := do
  let root ← forwardOf n
  let literals := (Arena.literals (← network).arena.nodes root).map (·.2)
  if literals.length = tables then return literals
  else throw (.defect (.literalCount n literals.length tables))

/-- Adds the literals of one more member to the tables, the first of which has number `first`. -/
def addRow (first : TableId) (tables : List Table) (row : List Literal) :
    Except Defect (List Table) :=
  ((tables.zip row).zipIdx first).mapM fun ((t, c), id) => t.add id c

/-- A table for each literal of the representative, with the literals of all members. -/
def literalTables (e : Ensemble) (first : TableId) : Pass (List Table) := do
  let root ← forwardOf e.representative
  let literals := Arena.literals (← network).arena.nodes root
  let empty ← literals.mapM fun (id, _) => do
    return ({ elem := ← infer id, first := e.start } : Table)
  e.neurons.foldlM (fun tables n => do
    let row ← literalsOf n tables.length
    orDefect (addRow first tables row)) empty

/-- The position of each member's first source. -/
def firstSources (e : Ensemble) : Pass (List (Option Int)) :=
  e.neurons.mapM fun n => do
    return (← sourcePositions (← neuron n)).head?.map Int.ofNat

/-- How the members find their inputs. Where no stride explains the positions of the first
sources, they go into a table, which gets the number `next`. -/
def addressing (e : Ensemble) (next : TableId) : Pass (Wiring × List Table) := do
  let bases ← firstSources e
  let (wiring, tables) := match Wiring.stride? bases with
    | some stride => (.affine stride, [])
    | none =>
      let entries := bases.map fun base => Literal.int (base.getD 0)
      (.table next, [{ elem := .int, first := e.start, entries }])
  report (.wired e.start wiring)
  return (wiring, tables)

/-- The wiring of an ensemble. It does not matter where no member reads a vector of inputs. -/
def wire (e : Ensemble) (recipe : Recipe) (next : TableId) : Pass (Wiring × List Table) :=
  if recipe.readsVector then addressing e next else return (.affine 0, [])

end Synapse.Pass

namespace Synapse

/-- The loop of an ensemble over the positions of its members. Its body computes the
representative's recipe, with the literals of the member at hand, and stores the result in
`output`. -/
def Emit.ensemble (e : Ensemble) (site : VarId → Site) (recipe : Recipe) (output : VarId) :
    Emit Stmt := do
  let index ← loopIndex
  let (done, body) ← lines (site index) [] recipe
  let i ← var index
  let rhs ← var (done.getLastD default).var
  let last ← assign (.element output i) rhs
  loop index e.start e.stop (body ++ [last])

/-- Lowers an ensemble whose members read `input` and write `output`. -/
def Pass.lowerEnsemble (e : Ensemble) (input output : VarId) (b : Build) : Pass (Build × Stmt) := do
  let firstTable := b.tables.size
  let tables ← literalTables e firstTable
  let recipe ← recipeOf (← forwardOf e.representative)
  let (wiring, bases) ← wire e recipe (firstTable + tables.length)
  let sources ← sourcePositions (← neuron e.representative)
  let site (index : VarId) : Site := { input, index, start := e.start, firstTable, sources, wiring }
  let b := { b with tables := b.tables ++ (tables ++ bases).toArray }
  let (stmt, b) := (Emit.ensemble e site recipe output).run b
  report (.loweredEnsemble e.layer e.start e.stop)
  return (b, stmt)

end Synapse
