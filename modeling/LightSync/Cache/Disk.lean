import LightSync.Bytes.Basic

/-!
# Disks

A directory of files, and what a disk refuses. A write that is refused may have been stopped on
its way, so that a file is there with a part of what was to be in it.
-/

set_option autoImplicit false

namespace LightSync

/-! ## Directories -/

/-- A directory: files by name. -/
abbrev Directory := List (String × Bytes)

namespace Directory

def read? (d : Directory) (name : String) : Option Bytes := d.lookup name

/-- Writes a file, over the one of that name if there is one. -/
def write (name : String) (data : Bytes) : Directory → Directory
  | [] => [(name, data)]
  | file :: rest =>
      if file.1 = name then (name, data) :: rest else file :: write name data rest

/-- Writes no more than the first bytes of a file, or does not even open it. -/
def writePart (name : String) (data : Bytes) (written : Option Nat) (d : Directory) : Directory :=
  match written with
  | none => d
  | some n => d.write name (data.take n)

def remove (d : Directory) (name : String) : Directory := d.filter fun file => file.1 ≠ name

/-- The names in ascending order. -/
def names (d : Directory) : List String := (d.map (·.1)).mergeSort fun a b => decide (a ≤ b)

end Directory

/-! ## Refusals -/

/-- A fault injected into a disk: what it refuses, and what it says then. Of a file that cannot be
written `written` bytes are there in the end, or it was not even opened. The image of an index can
be refused when a transaction is committed. -/
inductive DiskFault where
  | write (name : String) (written : Option Nat) (reason : String)
  | remove (name : String) (reason : String)
  | image (reason : String)
  deriving DecidableEq, Repr

namespace DiskFault

/-- How a file is written that the disk refuses to write, and why it refuses. -/
def write? (faults : List DiskFault) (name : String) : Option (Option Nat × String) :=
  faults.findSome? fun
    | .write other written reason => if other = name then some (written, reason) else none
    | _ => none

/-- Why the disk refuses to remove a file, if it does. -/
def remove? (faults : List DiskFault) (name : String) : Option String :=
  faults.findSome? fun
    | .remove other reason => if other = name then some reason else none
    | _ => none

/-- Why the disk refuses an image, if it does. -/
def image? (faults : List DiskFault) : Option String :=
  faults.findSome? fun
    | .image reason => some reason
    | _ => none

end DiskFault

end LightSync
