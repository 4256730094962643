import ClassPatch.Pipeline.Run
import ClassPatch.Storage.FileTree

/-!
# Artifacts in folders

An artifact as a folder with a file for each entry, and the sink that puts resources into a folder.
-/

namespace ClassPatch.Storage

open FileTree

/-- The path of an entry within its folder. A name that could lead out of the folder is refused. -/
def entryPath (name : String) : Except Error Path :=
  let path := Path.ofText name
  if path.any fun name => Path.stays name || name = Path.back then
    .error (.malformed (.entryName name))
  else .ok path

/-- Write a file below a folder with the directories on its way. -/
def writeBelow (folder path : Path) (data : List UInt8) : TreeEdit Unit := do
  let target := folder.join path
  makeDirectories target.parent
  writeFile target data

/-- Write the entries of an artifact into a folder. All names are checked first. -/
def writeFolder (folder : Path) (entries : List Entry) : TreeEdit Unit := do
  match entries.mapM fun entry => entryPath entry.name with
  | .error e => throw e
  | .ok paths => (paths.zip entries).forM fun (path, entry) => writeBelow folder path entry.data

/-- The artifact of all files below a folder, sorted by name. -/
def readFolder (t : FileTree) (folder : Path) : Except Error Artifact := do
  let files ← t.filesBelow folder
  let entries := files.map fun (path, data) => ({ name := path.text, data } : Entry)
  return ⟨folder.text, entries.mergeSort fun a b => a.name ≤ b.name⟩

/-- The sink that puts each resource into a folder under its file name. -/
def folderSink (folder : Path) : Sink FileTree where
  accept name data :=
    match Path.fileName? name with
    | none => throw (.malformed (.resourceName name))
    | some fileName => writeBelow folder [fileName] data

/-- Run a pipeline over the artifact in one folder and write the result into another one. -/
def runFolder (p : Pipeline) (sink : Sink FileTree) (source target : Path) : TreeEdit Report := do
  match readFolder (← get) source with
  | .error e => throw e
  | .ok artifact =>
    let (artifact, report) ← modifyGet (p.run sink artifact)
    writeFolder target artifact.entries
    return report

end ClassPatch.Storage
