import TensorCompiler.CommandLine.Run

/-! # The outcome of a run on a file tree

What the actions of a plan leave behind, computed on a value that stands for the files below one root
directory: the texts written, the files, and the exit code.
-/

namespace TensorCompiler.CommandLine

/-- A device that takes texts. -/
inductive Device where
  /-- Drops what is written. -/
  | drop
  /-- Has no room for anything. -/
  | full
  | stdout
  | stderr
  deriving Repr, DecidableEq

/-- A directory with its named entries, a file or a device. -/
inductive FileTree where
  | directory (entries : List (String × FileTree))
  | file (content : String)
  | device (device : Device)

namespace FileTree

/-- A directory without entries. -/
def empty : FileTree := .directory []

/-- A directory of the devices. -/
def devices : FileTree :=
  .directory [("null", .device .drop), ("zero", .device .drop), ("full", .device .full),
    ("stdout", .device .stdout), ("stderr", .device .stderr)]

/-- A root that holds the devices and empty directories of the given names. -/
def ofDirectories (names : List String) : FileTree :=
  .directory (("dev", devices) :: names.map fun name => (name, empty))

/-- The entry of a directory with the given name. -/
def entry? (tree : FileTree) (name : String) : Option FileTree :=
  match tree with
  | directory entries => entries.lookup name
  | _ => none

/-- What stands at the end of a row of names. -/
def find? (tree : FileTree) : Path → Option FileTree
  | [] => some tree
  | name :: rest => (tree.entry? name).bind fun entry => entry.find? rest

/-- The tree with an entry put in the place of what stands at the end of a row of names. -/
def put (tree entry : FileTree) : Path → FileTree
  | [] => entry
  | name :: rest =>
    match tree with
    | directory entries =>
      let below := ((entries.lookup name).getD empty).put entry rest
      directory (entries.filter (fun old => old.1 != name) ++ [(name, below)])
    | other => other

/-- The row of names that leads to the directory of a path. Every step goes into a directory; `trail` holds
those gone through, the last one first. -/
def resolveFrom? (root : FileTree) (trail : List (String × FileTree)) : Path → Option Path
  | [] => some (trail.map Prod.fst).reverse
  | component :: rest =>
    if Path.stays component then root.resolveFrom? trail rest
    else if component = ".." then root.resolveFrom? trail.tail rest
    else
      let here := (trail.head?.map Prod.snd).getD root
      match here.entry? component with
      | some (directory entries) => root.resolveFrom? ((component, directory entries) :: trail) rest
      | _ => none

/-- The row of names that leads to an entry of a directory that is there. The last component of the path names
the entry. -/
def place? (root : FileTree) (path : Path) : Option Path := do
  let name ← path.getLast?
  let above ← root.resolveFrom? [] path.dropLast
  if Path.isName name then some (above ++ [name]) else none

/-- Makes a directory where nothing stands. Slashes may follow its name. -/
def makeDirectory? (root : FileTree) (path : Path) : Option FileTree := do
  let place ← root.place? path.withoutFinalSlash
  if (root.find? place).isSome then none else some (root.put empty place)

mutual

/-- The files of a tree with the paths to them, for a tree at the given path. -/
def filesFrom (path : Path) : FileTree → List (Path × String)
  | directory entries => filesOfEntries path entries
  | file content => [(path, content)]
  | device _ => []

/-- The files of the entries of a directory at the given path. -/
def filesOfEntries (path : Path) : List (String × FileTree) → List (Path × String)
  | [] => []
  | (name, tree) :: rest => filesFrom (path ++ [name]) tree ++ filesOfEntries path rest

end

/-- The files below a directory, with the texts of the paths that lead from there to them. -/
def filesBelow (root : FileTree) (place : Path) : List (String × String) :=
  (root.find? place).toList.flatMap fun tree =>
    (tree.filesFrom []).map fun (path, content) => (Path.text path, content)

end FileTree

/-- What a run has done so far. -/
structure Outcome where
  tree : FileTree := .empty
  stdout : String := ""
  stderr : String := ""
  exitCode : UInt32 := 0

namespace Outcome

/-- Writes a text to a device. -/
def feed? (outcome : Outcome) (text : String) : Device → Option Outcome
  | .drop => some outcome
  | .full => if text.isEmpty then some outcome else none
  | .stdout => some { outcome with stdout := outcome.stdout ++ text }
  | .stderr => some { outcome with stderr := outcome.stderr ++ text }

/-- Writes a text to a file or a device in a directory that is there. -/
def write? (outcome : Outcome) (path : Path) (text : String) : Option Outcome := do
  let place ← outcome.tree.place? path
  match outcome.tree.find? place with
  | some (.directory _) => none
  | some (.device device) => outcome.feed? text device
  | _ => some { outcome with tree := outcome.tree.put (.file text) place }

/-- Carries out one action, if it can be done. `locate?` gives the components of a path from the root on. -/
def step? (locate? : String → Option Path) (outcome : Outcome) : Action → Option Outcome
  | .say text => some { outcome with stdout := outcome.stdout ++ text }
  | .note text => some { outcome with stderr := outcome.stderr ++ text }
  | .makeDirectory path => do
    let tree ← outcome.tree.makeDirectory? (← locate? path)
    some { outcome with tree }
  | .keep path content | .write path content => do outcome.write? (← locate? path) content

/-- Carries out actions up to the first whose failure fails the run. -/
def carryOut (locate? : String → Option Path) (outcome : Outcome) : List Action → Outcome
  | [] => outcome
  | action :: rest =>
    match outcome.step? locate? action, action with
    | some after, _ => carryOut locate? after rest
    | none, .write _ _ => { outcome with exitCode := 1 }
    | none, _ => carryOut locate? outcome rest

/-- The outcome of a plan that starts with the given files in the given directory. -/
def ofPlan (workingDirectory : Path) (tree : FileTree) (plan : Plan) : Outcome :=
  carryOut (Path.locate? workingDirectory) { tree, exitCode := plan.exitCode } plan.actions

end Outcome

end TensorCompiler.CommandLine
