import CtlTableau.Fault

/-!
# Calling runs off

A run is called off by raising a flag. Whoever may raise it or looks at it holds a handle; handles
may share a flag, and a flag is never lowered.
-/

namespace CtlTableau

/-- Handles on flags. -/
structure CancelFlags where
  /-- Which flags are raised. -/
  raised : Array Bool
  /-- The flag of each handle. -/
  handles : Array Nat
  deriving DecidableEq, Repr

namespace CancelFlags

/-- No handles. -/
def none : CancelFlags := ⟨#[], #[]⟩

/-- A new handle on a flag of its own. -/
def fresh (fs : CancelFlags) : CancelFlags :=
  ⟨fs.raised.push false, fs.handles.push fs.raised.size⟩

/-- A new handle on the flag of another. -/
def share (fs : CancelFlags) (handle : Nat) : CancelFlags :=
  match fs.handles[handle]? with
  | some flag => { fs with handles := fs.handles.push flag }
  | Option.none => fs

/-- Raises the flag of a handle. -/
def raise (fs : CancelFlags) (handle : Nat) : CancelFlags :=
  match fs.handles[handle]? with
  | some flag => { fs with raised := fs.raised.setIfInBounds flag true }
  | Option.none => fs

/-- Whether the flag of a handle is raised. -/
def isRaised (fs : CancelFlags) (handle : Nat) : Bool :=
  match fs.handles[handle]? with
  | some flag => fs.raised.getD flag false
  | Option.none => false

/-- Refuses to go on if the flag is raised. -/
def check (fs : CancelFlags) (handle : Nat) : Except Fault Unit :=
  if fs.isRaised handle then .error .cancelled else .ok ()

end CancelFlags

end CtlTableau
