/-!
# Options of a session

The level of optimisation never changes what a program means; it is kept so
that it can be asked for.
-/

namespace Reckon

/-- How much effort code generation makes. -/
inductive OptimizationLevel where
  | none
  | speed
  | speedAndSize
deriving Repr, DecidableEq

namespace OptimizationLevel

/-- The name of a level. -/
def text : OptimizationLevel → String
  | none => "none"
  | speed => "speed"
  | speedAndSize => "speed_and_size"

/-- Every level. -/
def all : List OptimizationLevel := [none, speed, speedAndSize]

/-- The level with a given name. -/
def ofText? (text : String) : Option OptimizationLevel :=
  all.find? fun level => level.text == text

/-- What is said about a name that no level has. -/
def unknownText (text : String) : String :=
  s!"unknown optimization level '{text}' (expected none, speed or speed_and_size)"

/-- A level is found by its name. -/
theorem ofText?_text (level : OptimizationLevel) : ofText? level.text = some level := by
  cases level <;> decide

end OptimizationLevel

/-- Options of a session. -/
structure Options where
  /-- How much effort code generation makes. -/
  level : OptimizationLevel
  /-- Whether the code of every definition is shown. -/
  showCode : Bool
deriving Repr, DecidableEq

/-- The options that hold unless others are asked for. -/
def Options.standard : Options := ⟨.speed, true⟩

end Reckon
