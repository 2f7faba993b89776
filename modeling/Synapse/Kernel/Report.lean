import Synapse.Kernel.Check
import Synapse.Kernel.Definitions

namespace Synapse.Kernel

structure Report where
  listing : String
  types : Except Error Unit
  definitions : Except Error Unit

def definitions (k : Kernel) : Typing Unit := orFail k.checkDefinitions

def report (k : Kernel) : Typing Report := do
  let listing ← k.listing
  let types ← attempt k.check
  let definitions ← attempt k.definitions
  return { listing, types, definitions }

/-- What is wrong with a kernel, if anything, followed by its listing. -/
def complaint (k : Kernel) : Typing (Option String) := do
  match ← attempt k.check with
  | .error e =>
    let listing ← k.listing
    return s!"ill typed function: {e.message}\n{listing}"
  | .ok _ =>
    match ← attempt k.definitions with
    | .error e =>
      let listing ← k.listing
      return s!"{e.message}\n{listing}"
    | .ok _ => return none

end Synapse.Kernel
