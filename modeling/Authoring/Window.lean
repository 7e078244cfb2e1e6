import Authoring.Act

/-!
# Windows and default frames

A window is a list that collects new entities while it is the active one; an inner window shields the outer
one. Default frames are added to every entity that is built in their scope.
-/

namespace Authoring.Window

open Act

/-- A new, empty window and its number. -/
def openNew : Act Nat := do
  let w ← get
  set { w with windows := w.windows ++ [[]] }
  return w.windows.length

/-- Adds an entity to a window. -/
def push (id : Nat) (t : Term) : Act Unit :=
  modify fun w => { w with windows := w.windows.set id (w.window id ++ [t]) }

/-- Adds an entity to the active window, if there is one. -/
def record (t : Term) : Act Unit := do
  match (← context).window with
  | some id => push id t
  | none => pure ()

/-- What the active window has collected, in order. -/
def current : Act (List Term) := do
  match (← context).window with
  | some id => return (← get).window id
  | none => return []

def isCollecting : Act Bool := do return (← context).window.isSome

/-- The default frames that are in force; none are an empty map. -/
def defaults : Act FrameMap := do return (← context).defaults.getD []

end Authoring.Window
