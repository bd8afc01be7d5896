import RegisterVM.Files.Path
/-!
# File trees

A file tree maps locations to files and directories. A location is the list of names from the root
down. Paths are followed part by part, so a part beyond a file or beyond nothing fails where it
stands. The root and the working directory are always there.
-/

namespace RegisterVM.Files

/-- What stands at a location. -/
inductive Node where
  | file (bytes : List UInt8)
  | directory
  deriving DecidableEq, Repr

/-- Why a path leads nowhere. -/
inductive Problem where
  | notFound
  | notDirectory
  | isDirectory
  | occupied
  /-- A part of the path is longer than a name may be. -/
  | nameTooLong
  /-- The path holds a character that no path may hold. -/
  | malformed
  deriving DecidableEq, Repr

/-- The wording of a problem. -/
def Problem.message : Problem → String
  | .notFound => "no such file or directory"
  | .notDirectory => "not a directory"
  | .isDirectory => "is a directory"
  | .occupied => "file exists"
  | .nameTooLong => "file name too long"
  | .malformed => "invalid argument"

/-- A failed operation on a path. -/
structure FileError where
  /-- The operation that failed. -/
  action : String
  path : String
  problem : Problem
  deriving DecidableEq, Repr

/-- The wording of a failed operation. -/
def FileError.message (e : FileError) : String :=
  e.action ++ " " ++ e.path ++ ": " ++ e.problem.message

/-- Files and directories by location. -/
structure Tree where
  nodes : List (List String × Node) := []
  /-- The location that paths which do not start at the root start from. -/
  here : List String := []

namespace Tree

/-- What stands at a location. -/
def node? (t : Tree) (location : List String) : Option Node :=
  if location.isEmpty || location == t.here then some .directory else t.nodes.lookup location

/-- Puts a node at a location in place of what stands there. -/
def put (t : Tree) (location : List String) (node : Node) : Tree :=
  { t with nodes := (location, node) :: t.nodes.filter fun n => n.1 != location }

/-- The locations above a location, outermost first, without the root. -/
def above (location : List String) : List (List String) :=
  ((List.range location.length).drop 1).map location.take

/-- Puts a node at a location and makes the directories above it. -/
def insert (t : Tree) (location : List String) (node : Node) : Tree :=
  let grown := (above location).foldl
    (fun t place => if (t.node? place).isSome then t else t.put place .directory) t
  grown.put location node

/-- The most bytes that a name may have. -/
def maxName : Nat := 255

/-- Follows the parts of a path from a location. -/
def follow (t : Tree) (location : List String) : List String → Except Problem (List String)
  | [] => .ok location
  | part :: rest =>
      match t.node? location with
      | none => .error .notFound
      | some (.file _) => .error .notDirectory
      | some .directory =>
          match part with
          | "" | "." => t.follow location rest
          | ".." => t.follow location.dropLast rest
          | name =>
              if maxName < name.utf8ByteSize then .error .nameTooLong
              else
                match t.node? (location ++ [name]) with
                | none => .error .notFound
                | some _ => t.follow (location ++ [name]) rest

/-- The location that a path leads to. -/
def locate (t : Tree) (path : String) : Except Problem (List String) :=
  if path.isEmpty then .error .notFound
  else if path.contains '\x00' then .error .malformed
  else t.follow (if Path.isRooted path then [] else t.here) (Path.parts path)

/-- What a path leads to. -/
def find (t : Tree) (path : String) : Except Problem Node := do
  match t.node? (← t.locate path) with
  | some node => return node
  | none => throw .notFound

/-- The bytes of a file. -/
def read (t : Tree) (path : String) : Except FileError (List UInt8) :=
  match t.find path with
  | .error problem => .error ⟨"open", path, problem⟩
  | .ok .directory => .error ⟨"read", path, .isDirectory⟩
  | .ok (.file bytes) => .ok bytes

/-- The names in a directory and what stands there, in the order of the names. -/
def list (t : Tree) (path : String) : Except FileError (List (String × Node)) :=
  match t.locate path with
  | .error problem => .error ⟨"open", path, problem⟩
  | .ok location =>
      match t.node? location with
      | some .directory =>
          let inside := t.nodes.filterMap fun (place, node) =>
            match place.getLast? with
            | some name => if place.dropLast == location then some (name, node) else none
            | none => none
          .ok (inside.mergeSort fun a b => a.1 ≤ b.1)
      | some (.file _) => .error ⟨"open", path, .notDirectory⟩
      | none => .error ⟨"open", path, .notFound⟩

/-- How many bytes the files at and below a path have; zero where a path leads nowhere. -/
def totalSize (t : Tree) (path : String) : Nat :=
  match t.locate path with
  | .error _ => 0
  | .ok location =>
      t.nodes.foldl (fun total (place, node) =>
        match node with
        | .file bytes => if location.isPrefixOf place then total + bytes.length else total
        | .directory => total) 0

/-- The paths on the way to a path, itself included, outermost first. Slashes after a part belong to
the path that ends with it. -/
def stages (path : String) : List String :=
  let parts := Path.parts path
  ((List.range parts.length).filter fun i => parts[i + 1]? ≠ some "").map fun i =>
    "/".intercalate (parts.take (i + 1))

/-- Makes one directory; the directories above it are there. -/
def makeStage (t : Tree) (path : String) : Except FileError Tree :=
  let names := (Path.parts path).filter fun part => !part.isEmpty
  match t.find path with
  | .ok .directory => .ok t
  | .ok (.file _) => .error ⟨"mkdir", path, .notDirectory⟩
  | .error .malformed => .error ⟨"mkdir", path, .malformed⟩
  | .error .nameTooLong => .error ⟨"mkdir", path, .nameTooLong⟩
  | .error _ =>
      match t.follow (if Path.isRooted path then [] else t.here) names.dropLast, names.getLast? with
      | .ok above, some name =>
          if (t.node? (above ++ [name])).isSome then .error ⟨"mkdir", path, .occupied⟩
          else .ok (t.put (above ++ [name]) .directory)
      | .ok _, none => .ok t
      | .error problem, _ => .error ⟨"mkdir", path, problem⟩

/-- Makes a directory and those above it. -/
def makeDirectory (t : Tree) (path : String) : Except FileError Tree :=
  ((stages path).filter fun stage => !stage.isEmpty).foldlM makeStage t

end Tree

end RegisterVM.Files
