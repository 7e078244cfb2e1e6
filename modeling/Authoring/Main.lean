import Authoring.Demo
import Authoring.Script.Evaluate

/-!
# The demonstration as a program

Runs the demonstration in a fresh world, with the settings that the environment gives, and prints what it
prints. If it fails, the wording of the fault is printed to the error stream instead.
-/

open Authoring

/-- The settings of the environment; what is not set has its usual value. -/
def settingsFromEnvironment : IO Settings := do
  let language := (← IO.getEnv "ONTOLOGY_ANNOTATION_LANGUAGE").getD "en"
  let separator := (← IO.getEnv "ONTOLOGY_IRI_SEPARATOR").getD "#"
  return { language := language, separator := separator }

def main : IO UInt32 := do
  let world := World.initial (← settingsFromEnvironment)
  match Demo.tour (Script.environment .outermost) world with
  | (.ok _, w) =>
    IO.print w.printed
    return 0
  | (.error f, _) =>
    IO.eprintln (f.message?.getD "The demonstration failed.")
    return 1
