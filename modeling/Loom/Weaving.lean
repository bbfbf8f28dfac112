import Loom.Specialization.Clone

/-!
Passes over a program. A pass changes the program and a state of its own and logs entries; what it has done stays when
it fails.
-/
namespace Loom

/-- The text of a log: every entry ends its last line. -/
def logText (entries : List String) : String :=
  String.join (entries.map fun e => if e.endsWith "\n" then e else e ++ "\n")

/-- What a pass works on. -/
structure Workspace (σ : Type) where
  program : Program
  own : σ
  log : List String := []

/-- A pass with a state of its own. -/
abbrev Weaving (σ : Type) := ExceptT Failure (StateM (Workspace σ))

namespace Weaving

variable {σ α : Type}

def program : Weaving σ Program := do return (← get).program

/-- Puts another program in place. -/
def setProgram (p : Program) : Weaving σ Unit := modify fun w => { w with program := p }

/-- The pass's own state. -/
def own : Weaving σ σ := do return (← get).own

/-- Puts another state of its own in place. -/
def setOwn (s : σ) : Weaving σ Unit := modify fun w => { w with own := s }

def report (entry : String) : Weaving σ Unit := modify fun w => { w with log := w.log ++ [entry] }

/-- Goes on with a result, or fails. -/
def ofExcept (r : Except Failure α) : Weaving σ α := ExceptT.mk (pure r)

def cloning (c : Cloning α) : Weaving σ α := do
  let (r,p) := c.run (← program)
  setProgram p
  ofExcept r

end Weaving
end Loom
