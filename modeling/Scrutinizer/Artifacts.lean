import Scrutinizer.Library.LastWrite
import Scrutinizer.Spans
import Scrutinizer.TyCtxt

/-! The artifacts of a crate: one file for each function, in a directory that is named after what
rustc puts out. The session that compiles the crate writes them, and any later one may read them. -/
namespace Scrutinizer.BodyCache
open Wire (Bytes)

def fileName (path : PathBuf) : Option String :=
  match path.getLast? with
  | some (.normal name) => some name
  | _ => none

def parent (path : PathBuf) : Option PathBuf :=
  match path.getLast? with
  | none | some .rootDir => none
  | some _ => some path.dropLast

def join (dir : PathBuf) (name : String) : PathBuf := dir ++ [.normal name]

def fileStem (name : String) : String :=
  match name.toList.reverse.dropWhile (fun c => decide (c ≠ '.')) with
  | [] | [_] => name
  | _ :: before => String.ofList before.reverse

def withExtension (path : PathBuf) (ext : String) : PathBuf :=
  match fileName path with
  | none => path
  | some name => path.dropLast ++ [.normal (fileStem name ++ if ext = "" then "" else "." ++ ext)]

inductive ClearCrossCrate (α : Type) where
  | clear
  | set (data : α)
  deriving DecidableEq, Repr

structure SourceScopeData where
  localData : ClearCrossCrate Nat
  deriving DecidableEq, Repr

inductive StatementKind where
  | assign (place : Place) (rvalue : Rvalue)
  | fakeRead (place : Place)
  | nop
  | other
  deriving DecidableEq, Repr

def StatementKind.isFakeRead : StatementKind → Bool
  | .fakeRead _ => true
  | _ => false

structure MirBlock where
  statements : List StatementKind
  terminator : Terminator
  deriving DecidableEq, Repr

structure Mir where
  argCount : Nat
  localDecls : List Ty
  basicBlocks : List MirBlock
  sourceScopes : List SourceScopeData
  varDebugInfo : List VarDebugInfo
  span : Nat
  deriving DecidableEq, Repr

structure FlowistryFacts where
  subsetBase : List (Nat × Nat × Nat)
  deriving DecidableEq, Repr

structure BodyWithBorrowckFacts where
  body : Mir
  inputFacts : Option FlowistryFacts
  deriving DecidableEq, Repr

structure CachedBody where
  body : Mir
  inputFacts : FlowistryFacts
  deriving DecidableEq, Repr

def MirBlock.clean (block : MirBlock) : MirBlock :=
  {block with statements := block.statements.map (fun stmt => if stmt.isFakeRead then .nop else stmt)}

def cleanUndecodableDataFromBody (body : Mir) : Mir :=
  {body with
    sourceScopes := body.sourceScopes.map (fun scope => {scope with localData := .clear})
    basicBlocks := body.basicBlocks.map MirBlock.clean}

/- `none` is a panic: the facts of the borrow checker were not kept. -/
def CachedBody.retrieve (bodyWithFacts : BodyWithBorrowckFacts) : Option CachedBody := do
  let inputFacts ← bodyWithFacts.inputFacts
  some ⟨cleanUndecodableDataFromBody bodyWithFacts.body, ⟨inputFacts.subsetBase⟩⟩

def StatementKind.toStatement : StatementKind → Statement
  | .assign place rvalue => .assign place rvalue
  | _ => .other

def MirBlock.toData (block : MirBlock) : BasicBlockData :=
  ⟨block.statements.map StatementKind.toStatement, block.terminator⟩

def Mir.toBody (body : Mir) : Body :=
  ⟨body.argCount, body.localDecls, body.basicBlocks.map MirBlock.toData, body.varDebugInfo, body.span⟩

theorem cleanToData (block : MirBlock) : block.clean.toData = block.toData := by
  have each : ∀ stmt : StatementKind,
      StatementKind.toStatement (if stmt.isFakeRead then .nop else stmt) = stmt.toStatement := by
    intro stmt
    cases stmt <;> rfl
  simp only [MirBlock.toData, MirBlock.clean, List.map_map, Function.comp_def, each]

theorem cleanToBody (body : Mir) : (cleanUndecodableDataFromBody body).toBody = body.toBody := by
  simp only [Mir.toBody, cleanUndecodableDataFromBody, List.map_map, Function.comp_def, cleanToData]

theorem retrieveToBody {bodyWithFacts : BodyWithBorrowckFacts} {cached : CachedBody}
    (retrieved : CachedBody.retrieve bodyWithFacts = some cached) :
    cached.body.toBody = bodyWithFacts.body.toBody := by
  obtain ⟨facts, _, last⟩ := Option.bind_eq_some_iff.mp retrieved
  cases Option.some.inj last
  exact cleanToBody _

structure Mir.Portable (body : Mir) : Prop where
  scopes : ∀ scope ∈ body.sourceScopes, scope.localData = .clear
  statements : ∀ block ∈ body.basicBlocks, ∀ stmt ∈ block.statements, stmt.isFakeRead = false

theorem cleanPortable (body : Mir) : (cleanUndecodableDataFromBody body).Portable := by
  constructor
  · intro scope mem
    obtain ⟨_, _, rfl⟩ := List.mem_map.mp mem
    rfl
  · intro block mem stmt inside
    obtain ⟨old, _, rfl⟩ := List.mem_map.mp mem
    obtain ⟨before, _, rfl⟩ := List.mem_map.mp inside
    cases before <;> rfl

/- The facts name points of the body by their position, which no statement changes. -/
theorem cleanPositions (body : Mir) :
    (cleanUndecodableDataFromBody body).basicBlocks.map (fun block => block.statements.length) =
      body.basicBlocks.map (fun block => block.statements.length) := by
  simp only [cleanUndecodableDataFromBody, List.map_map, Function.comp_def, MirBlock.clean, List.length_map]

structure Disk where
  isDir : PathBuf → Bool
  file : LastWrite.Store PathBuf Bytes

namespace Disk

/- `Path::exists`. -/
def existsAt (disk : Disk) (path : PathBuf) : Bool := disk.isDir path || (disk.file path).isSome

def createDir (disk : Disk) (dir : PathBuf) : Option Disk :=
  match parent dir with
  | none => none
  | some above =>
      if disk.isDir above && !disk.existsAt dir then
        some {disk with isDir := Function.update disk.isDir dir true}
      else none

/- `if !dir.exists() { create_dir(dir) }`. -/
def ensureDir (disk : Disk) (dir : PathBuf) : Option Disk :=
  if disk.existsAt dir then some disk else disk.createDir dir

def writeFile (disk : Disk) (path : PathBuf) (data : Bytes) : Option Disk :=
  match parent path with
  | none => none
  | some dir =>
      if disk.isDir dir && !disk.isDir path then some {disk with file := LastWrite.write disk.file path data}
      else none

end Disk

/- What the store asks of the session: the output of rustc with a given extension, where the crates
that are linked were found, how a definition is called in the name of a file, and how bodies are
written as bytes, of which `Tcx` has the spans. -/
structure CompilerSession where
  outputFilenames : String → PathBuf
  crateExternPaths : CrateNum → List PathBuf
  krate : DefId → CrateNum
  filename : DefId → String
  encode : CachedBody → Bytes
  decode : Bytes → Option CachedBody

def localCrate : CrateNum := 0

def intermediateArtifactExt : String := "bwbf"

def startsWithLib (file : String) : Bool := decide ("lib".toList <+: file.toList)

/- The text is not formatted: it names neither the function nor the paths. -/
def noFacts : String := "No facts for \x7bdef_id:?\x7d found at any path tried: \x7bpaths:?\x7d"

namespace CompilerSession
variable (session : CompilerSession)

def intermediateOutDir (ext : String) : Option PathBuf := do
  let rustcOutFile := session.outputFilenames ext
  let dir ← parent rustcOutFile
  let file ← fileName rustcOutFile
  some (join dir (if startsWithLib file then file else "lib" ++ file))

def localOrRemotePaths (krate : CrateNum) (ext : String) : Option (List PathBuf) :=
  if krate = localCrate then (session.intermediateOutDir ext).map (fun dir => [dir])
  else some ((session.crateExternPaths krate).map (fun path => withExtension path ext))

/- A file that cannot be opened is passed over; one that cannot be decoded is a panic. -/
def decodeFirst (disk : Disk) (name : String) : List PathBuf → Option (Except String CachedBody)
  | [] => some (.error noFacts)
  | path :: rest =>
      match disk.file (join path name) with
      | some data => (session.decode data).map .ok
      | none => decodeFirst disk name rest

def loadBodyAndFacts (disk : Disk) (defId : DefId) : Option (Except String CachedBody) := do
  let paths ← session.localOrRemotePaths (session.krate defId) intermediateArtifactExt
  session.decodeFirst disk (session.filename defId) paths

def visitFn (dir : PathBuf) (disk : Disk) (fn : DefId × BodyWithBorrowckFacts) : Option Disk := do
  let toWrite ← CachedBody.retrieve fn.2
  let disk ← disk.ensureDir dir
  disk.writeFile (join dir (session.filename fn.1)) (session.encode toWrite)

/- The functions and closures of the crate come in the order in which the visitor meets them. -/
def dumpMirAndBorrowckFacts (functions : List (DefId × BodyWithBorrowckFacts)) (disk : Disk) :
    Option Disk := do
  let dir ← session.intermediateOutDir intermediateArtifactExt
  functions.foldlM (session.visitFn dir) disk

def serve (disk : Disk) (tcx : TyCtxt) : TyCtxt :=
  {tcx with loadBodyAndFacts := fun defId =>
    match session.loadBodyAndFacts disk defId with
    | some (.ok cached) => some cached.body.toBody
    | _ => none}

end CompilerSession
end Scrutinizer.BodyCache
