/-!
# Paths

A path is text whose parts are divided by slashes. A clean path has no empty part, no part that
stands for the directory itself, and no step up that could be taken back. Paths are joined clean.
-/

namespace RegisterVM.Files.Path

/-- The parts of a path between its slashes, empty ones included. -/
def parts (path : String) : List String := (path.toList.splitOn '/').map String.ofList

/-- Whether a path starts at the root. -/
def isRooted (path : String) : Bool := path.startsWith "/"

/-- Takes a part onto the parts above it, nearest first. A step up takes the nearest part back; at
the root there is nothing to take back. -/
def descend (rooted : Bool) (above : List String) (part : String) : List String :=
  match part, above with
  | "", above => above
  | ".", above => above
  | "..", [] => if rooted then [] else [".."]
  | "..", ".." :: above => ".." :: ".." :: above
  | "..", _ :: above => above
  | part, above => part :: above

/-- The shortest path to the same place. -/
def clean (path : String) : String :=
  let rooted := isRooted path
  let shown := "/".intercalate ((parts path).foldl (descend rooted) []).reverse
  if rooted then "/" ++ shown else if shown.isEmpty then "." else shown

/-- A path inside a directory, clean. Empty paths add nothing. -/
def join (directory path : String) : String :=
  if directory.isEmpty && path.isEmpty then ""
  else if directory.isEmpty then clean path
  else if path.isEmpty then clean directory
  else clean (directory ++ "/" ++ path)

/-- The last part of a path, trailing slashes aside. -/
def base (path : String) : String :=
  if path.isEmpty then "."
  else
    match (parts path).reverse.dropWhile String.isEmpty with
    | [] => "/"
    | last :: _ => last

end RegisterVM.Files.Path
