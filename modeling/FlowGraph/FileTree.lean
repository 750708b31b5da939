import FlowGraph.Text.Pieces
/-!
Trees of files, and where a path leads in them. A path is cut at its slashes and followed name by
name, so that doubled slashes and single points change nothing as long as they stand behind a
folder, and a file with anything behind it is refused.
-/

set_option autoImplicit false

namespace FlowGraph

inductive ReadError where
  | missing
  | notDirectory
  | isDirectory
  | nameTooLong
  | notText
  /-- The system refuses, and says why. -/
  | refused (reason : String)
  deriving DecidableEq, Repr

def ReadError.message : ReadError → String
  | missing => "No such file or directory (os error 2)"
  | notDirectory => "Not a directory (os error 20)"
  | isDirectory => "Is a directory (os error 21)"
  | nameTooLong => "File name too long (os error 36)"
  | notText => "stream did not contain valid UTF-8"
  | refused reason => reason

def textOfBytes (bytes : ByteArray) : Except ReadError String :=
  match String.fromUTF8? bytes with
  | some text => .ok text
  | none => .error .notText

/-- A file with its bytes, or a folder with what stands in it by name. -/
inductive FileTree where
  | file (bytes : ByteArray)
  | folder (entries : List (String × FileTree))

namespace FileTree

/-- How many bytes a name may have. -/
def maxNameSize : Nat := 255

/-- How many bytes a path may have. -/
def maxPathSize : Nat := 4095

/-- A place in a tree: what stands there, and the folders above it, the closest first. -/
structure Place where
  tree : FileTree
  above : List FileTree := []

namespace Place

def root (p : Place) : Place := { tree := p.above.getLast?.getD p.tree }

/-- The folder above; the whole tree has none and stays. -/
def up (p : Place) : Place :=
  match p.above with
  | [] => p
  | tree :: above => { tree, above }

/-- The place that a name leads to. Only a folder has one. Nothing and a single point lead to the
folder itself, two points to the one above. -/
def enter (p : Place) (name : List Char) : Except ReadError Place :=
  match p.tree with
  | .file _ => .error .notDirectory
  | .folder entries =>
    match name with
    | [] | ['.'] => .ok p
    | ['.', '.'] => .ok p.up
    | _ =>
      let name := String.ofList name
      if maxNameSize < name.utf8ByteSize then .error .nameTooLong
      else match entries.lookup name with
        | some tree => .ok { tree, above := p.tree :: p.above }
        | none => .error .missing

/-- The place that a path leads to. A path with a slash in front starts at the whole tree. -/
def follow (p : Place) (path : String) : Except ReadError Place :=
  if maxPathSize < path.utf8ByteSize then .error .nameTooLong
  else
    let start := if path.toList.head? = some '/' then p.root else p
    (Text.pieces (· == '/') path.toList).foldlM enter start

def readText (p : Place) (path : String) : Except ReadError String := do
  match (← p.follow path).tree with
  | .file bytes => textOfBytes bytes
  | .folder _ => throw .isDirectory

end Place

end FileTree

end FlowGraph
