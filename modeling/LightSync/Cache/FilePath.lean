/-!
# File paths

Paths are sequences of names between slashes; a path that begins with a slash starts at the
root. Joining removes empty names and single dots and takes a double dot back over the name
before it.
-/

set_option autoImplicit false

namespace LightSync
namespace FilePath

/-- The names of a path, in reverse, after one more. -/
def step (absolute : Bool) (acc : List String) (name : String) : List String :=
  if name = "" || name = "." then acc
  else if name = ".." then
    match acc with
    | [] => if absolute then [] else [".."]
    | last :: before => if last = ".." then ".." :: acc else before
  else name :: acc

/-- The path without detours. -/
def normalize (path : String) : String :=
  let absolute := path.startsWith "/"
  let names := ((path.splitOn "/").foldl (step absolute) []).reverse
  let body := String.intercalate "/" names
  if absolute then "/" ++ body
  else if body = "" then "."
  else body

/-- The path of `name` under a directory; an empty directory is the current one. -/
def join (dir name : String) : String :=
  normalize (if dir = "" then name else dir ++ "/" ++ name)

end FilePath
end LightSync
