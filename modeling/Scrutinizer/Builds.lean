import Scrutinizer.Artifacts

/-! A build calls the compiler for one crate after the other. What a session then loads for a
function is what was last written under the name of its file, if the reader looks for the crate
where the writer put it: a crate whose own file name starts with `lib` is looked for elsewhere. -/
namespace Scrutinizer.BodyCache
open Wire (Bytes)
open LastWrite (lastOf writeAll)

inductive CrateHandling where
  | justCompile
  | compileAndDump
  | analyze
  deriving DecidableEq, Repr

/- One call of the compiler: its arguments, if `CARGO_PRIMARY_PACKAGE` is set, whether it comes to
`after_expansion`, and the functions of the crate in the order in which they are visited. -/
structure Invocation where
  compilerArgs : List String
  cargoPrimaryPackage : Bool
  expands : Bool
  session : CompilerSession
  functions : List (DefId × BodyWithBorrowckFacts)

namespace Invocation
variable (inv : Invocation)

def crateName : Option String := do
  let i ← inv.compilerArgs.findIdx? (fun s => decide (s = "--crate-name"))
  inv.compilerArgs[i + 1]?

def howToHandleThisCrate : CrateHandling :=
  match inv.crateName with
  | some "build_script_build" => .justCompile
  | some _ => if inv.cargoPrimaryPackage then .analyze else .compileAndDump
  | none => if inv.cargoPrimaryPackage then .analyze else .justCompile

def dumps : Bool := inv.expands && decide (inv.howToHandleThisCrate ≠ .justCompile)

def run (disk : Disk) : Option Disk :=
  if inv.dumps then inv.session.dumpMirAndBorrowckFacts inv.functions disk else some disk

def outDir : Option PathBuf := inv.session.intermediateOutDir intermediateArtifactExt

end Invocation

def build (disk : Disk) (invs : List Invocation) : Option Disk :=
  invs.foldlM (fun disk inv => inv.run disk) disk

theorem joinInj {dir dir' : PathBuf} {name name' : String} :
    join dir name = join dir' name' ↔ dir = dir' ∧ name = name' := by
  constructor
  · intro same
    obtain ⟨dirs, last⟩ := List.append_inj' same rfl
    cases last
    exact ⟨dirs, rfl⟩
  · rintro ⟨rfl, rfl⟩
    rfl

@[simp] theorem parentJoin (dir : PathBuf) (name : String) : parent (join dir name) = some dir := by
  simp [parent, join]

@[simp] theorem fileNameJoin (dir : PathBuf) (name : String) : fileName (join dir name) = some name := by
  simp [fileName, join]

/- An extension has no dot, so the last dot of the name is the one before it. -/
theorem fileStemDotted {stem ext : String} (named : stem ≠ "") (plain : '.' ∉ ext.toList) :
    fileStem (stem ++ "." ++ ext) = stem := by
  have shape : (stem ++ "." ++ ext).toList.reverse.dropWhile (fun c => decide (c ≠ '.')) =
      '.' :: stem.toList.reverse := by
    have free : ∀ c ∈ ext.toList.reverse, decide (c ≠ '.') = true := by
      intro c mem
      have : c ≠ '.' := fun same => plain (same ▸ List.mem_reverse.mp mem)
      exact decide_eq_true this
    rw [String.toList_append, String.toList_append, List.reverse_append, List.reverse_append,
      List.dropWhile_append_of_pos free]
    rfl
  unfold fileStem
  rw [shape]
  split
  · contradiction
  · rename_i last
    have empty : stem.toList = [] := List.reverse_eq_nil_iff.mp (List.cons.inj last).2
    exact absurd (String.toList_eq_nil_iff.mp empty) named
  · rename_i last
    rw [← (List.cons.inj last).2, List.reverse_reverse, String.ofList_toList]

theorem withExtensionDotted {dir : PathBuf} {stem ext ext' : String} (named : stem ≠ "")
    (plain : '.' ∉ ext.toList) (written : ext' ≠ "") :
    withExtension (join dir (stem ++ "." ++ ext)) ext' = join dir (stem ++ "." ++ ext') := by
  rw [withExtension, fileNameJoin]
  simp only [fileStemDotted named plain, if_neg written]
  simp [join, String.append_assoc]

section
variable {session : CompilerSession}

def CompilerSession.artifact (session : CompilerSession) (dir : PathBuf)
    (fn : DefId × BodyWithBorrowckFacts) : List (PathBuf × Bytes) :=
  match CachedBody.retrieve fn.2 with
  | some cached => [(join dir (session.filename fn.1), session.encode cached)]
  | none => []

theorem writeFileFile {disk disk' : Disk} {path : PathBuf} {data : Bytes}
    (wrote : disk.writeFile path data = some disk') :
    disk'.file = LastWrite.write disk.file path data := by
  unfold Disk.writeFile at wrote
  split at wrote
  · contradiction
  · split at wrote
    · cases Option.some.inj wrote
      rfl
    · contradiction

theorem ensureDirFile {disk disk' : Disk} {dir : PathBuf} (made : disk.ensureDir dir = some disk') :
    disk'.file = disk.file := by
  unfold Disk.ensureDir Disk.createDir at made
  split at made
  · cases Option.some.inj made
    rfl
  · split at made
    · contradiction
    · split at made
      · cases Option.some.inj made
        rfl
      · contradiction

theorem visitFnFile {dir : PathBuf} {disk disk' : Disk} {fn : DefId × BodyWithBorrowckFacts}
    (visited : session.visitFn dir disk fn = some disk') :
    disk'.file = writeAll disk.file (session.artifact dir fn) := by
  obtain ⟨cached, retrieved, rest⟩ := Option.bind_eq_some_iff.mp visited
  obtain ⟨mid, made, wrote⟩ := Option.bind_eq_some_iff.mp rest
  rw [writeFileFile wrote, ensureDirFile made, CompilerSession.artifact, retrieved]
  rfl

end

def Invocation.writes (inv : Invocation) : List (PathBuf × Bytes) :=
  match inv.outDir with
  | some dir => if inv.dumps then inv.functions.flatMap (inv.session.artifact dir) else []
  | none => []

theorem runFile {inv : Invocation} {disk disk' : Disk} (ran : inv.run disk = some disk') :
    disk'.file = writeAll disk.file inv.writes := by
  unfold Invocation.run at ran
  unfold Invocation.writes
  by_cases dumps : inv.dumps = true
  · rw [if_pos dumps] at ran
    obtain ⟨dir, out, walked⟩ := Option.bind_eq_some_iff.mp ran
    rw [show inv.outDir = some dir from out]
    simp only [dumps, if_true]
    exact LastWrite.foldlMWrites (fun _ _ _ visited => visitFnFile visited) walked
  · rw [if_neg dumps] at ran
    cases Option.some.inj ran
    split
    · rw [if_neg dumps]
      rfl
    · rfl

theorem buildFile {disk disk' : Disk} {invs : List Invocation} (built : build disk invs = some disk')
    (path : PathBuf) : disk'.file path = (lastOf (invs.flatMap Invocation.writes) path).or (disk.file path) := by
  rw [LastWrite.foldlMWrites (fun _ _ _ ran => runFile ran) built, LastWrite.writeAllGet]

theorem startsWithLibIff {file : String} : startsWithLib file = true ↔ "lib".toList <+: file.toList :=
  decide_eq_true_iff

theorem startsWithLibDotted (stem ext : String) : startsWithLib (stem ++ "." ++ ext) = startsWithLib stem := by
  have whole : ∀ name : List Char, "lib".toList <+: name ++ '.' :: ext.toList ↔ "lib".toList <+: name := by
    intro name
    match name with
    | [] | [_] | [_, _] => simp
    | _ :: _ :: _ :: _ => simp
  have chars : (stem ++ "." ++ ext).toList = stem.toList ++ '.' :: ext.toList := by
    rw [String.toList_append, String.toList_append, List.append_assoc]
    rfl
  rw [Bool.eq_iff_iff, startsWithLibIff, startsWithLibIff, chars, whole]

def linkDir (dir : PathBuf) (stem : String) : PathBuf :=
  join dir ("lib" ++ stem ++ "." ++ intermediateArtifactExt)

/- What rustc calls its output in the session that compiles a crate, and in one that links it. -/
structure Linked (writer reader : CompilerSession) (krate : CrateNum) (dir : PathBuf) (stem : String) :
    Prop where
  named : stem ≠ ""
  output : writer.outputFilenames intermediateArtifactExt = join dir (stem ++ "." ++ intermediateArtifactExt)
  remote : krate ≠ localCrate
  libs : ∃ kinds : List String, kinds ≠ [] ∧ (∀ kind ∈ kinds, '.' ∉ kind.toList) ∧
    reader.crateExternPaths krate = kinds.map (fun kind => join dir ("lib" ++ stem ++ "." ++ kind))
  filenames : reader.filename = writer.filename

namespace Linked
variable {writer reader : CompilerSession} {krate : CrateNum} {dir : PathBuf} {stem : String}

theorem outDir (linked : Linked writer reader krate dir stem) :
    writer.intermediateOutDir intermediateArtifactExt =
      some (if startsWithLib stem then join dir (stem ++ "." ++ intermediateArtifactExt)
        else linkDir dir stem) := by
  unfold CompilerSession.intermediateOutDir
  rw [linked.output]
  simp only [parentJoin, fileNameJoin, Option.bind_eq_bind, Option.bind_some, startsWithLibDotted]
  split
  · rfl
  · simp [linkDir, String.append_assoc]

theorem outDirIff (linked : Linked writer reader krate dir stem) :
    writer.intermediateOutDir intermediateArtifactExt = some (linkDir dir stem) ↔ startsWithLib stem = false := by
  rw [linked.outDir]
  by_cases lib : startsWithLib stem = true
  · have differ : stem ++ "." ++ intermediateArtifactExt ≠ "lib" ++ stem ++ "." ++ intermediateArtifactExt := by
      intro same
      have sizes := congrArg (fun s => s.toList.length) same
      simp only [String.toList_append, List.length_append] at sizes
      have three : "lib".toList.length = 3 := rfl
      omega
    simp [lib, linkDir, joinInj, differ]
  · simp [lib]

theorem paths (linked : Linked writer reader krate dir stem) :
    ∃ found, reader.localOrRemotePaths krate intermediateArtifactExt = some found ∧ found ≠ [] ∧
      ∀ path ∈ found, path = linkDir dir stem := by
  obtain ⟨kinds, some, plain, paths⟩ := linked.libs
  refine ⟨kinds.map (fun _ => linkDir dir stem), ?_, by simpa using some, by simp⟩
  rw [CompilerSession.localOrRemotePaths, if_neg linked.remote, paths, List.map_map]
  have named : "lib" ++ stem ≠ "" := by simp [linked.named]
  have each : ∀ kind ∈ kinds, withExtension (join dir ("lib" ++ stem ++ "." ++ kind)) intermediateArtifactExt =
      linkDir dir stem := fun kind mem => withExtensionDotted named (plain kind mem) (by decide)
  exact congrArg Option.some (List.map_congr_left each)

end Linked

section
variable {session : CompilerSession}

def CompilerSession.readFile (session : CompilerSession) (found : Option Bytes) :
    Option (Except String CachedBody) :=
  match found with
  | some data => (session.decode data).map .ok
  | none => some (.error noFacts)

theorem decodeFirstSame {disk : Disk} {name : String} {dir : PathBuf} : ∀ {paths : List PathBuf},
    paths ≠ [] → (∀ path ∈ paths, path = dir) →
      session.decodeFirst disk name paths = session.readFile (disk.file (join dir name)) := by
  intro paths
  induction paths with
  | nil => exact fun some _ => absurd rfl some
  | cons path rest ih =>
    intro _ same
    cases same path List.mem_cons_self
    unfold CompilerSession.decodeFirst
    cases found : disk.file (join dir name) with
    | some data => rfl
    | none =>
      cases rest with
      | nil => rfl
      | cons next more =>
        have later := ih (List.cons_ne_nil _ _) (fun other mem => same other (List.mem_cons_of_mem _ mem))
        rw [found] at later
        exact later

theorem loadLinked {writer reader : CompilerSession} {krate : CrateNum} {dir : PathBuf} {stem : String}
    (linked : Linked writer reader krate dir stem) {defId : DefId} (inCrate : reader.krate defId = krate)
    (disk : Disk) : reader.loadBodyAndFacts disk defId =
      reader.readFile (disk.file (join (linkDir dir stem) (reader.filename defId))) := by
  obtain ⟨found, paths, some, same⟩ := linked.paths
  rw [CompilerSession.loadBodyAndFacts, inCrate, paths]
  exact decodeFirstSame some same

theorem loadOwn {dir : PathBuf} (out : session.intermediateOutDir intermediateArtifactExt = some dir)
    {defId : DefId} (own : session.krate defId = localCrate) (disk : Disk) :
    session.loadBodyAndFacts disk defId =
      session.readFile (disk.file (join dir (session.filename defId))) := by
  rw [CompilerSession.loadBodyAndFacts, CompilerSession.localOrRemotePaths, if_pos own, out]
  exact decodeFirstSame (List.cons_ne_nil _ _) (fun _ mem => List.mem_singleton.mp mem)

end

section
variable {inv : Invocation} {dir : PathBuf} {name : String}

theorem writtenElsewhere (apart : inv.dumps = true → inv.outDir ≠ some dir) :
    lastOf inv.writes (join dir name) = none := by
  refine LastWrite.lastOfNone.mpr (fun one mem same => ?_)
  unfold Invocation.writes at mem
  split at mem
  · rename_i other out
    split at mem
    · rename_i dumps
      obtain ⟨fn, _, made⟩ := List.mem_flatMap.mp mem
      unfold CompilerSession.artifact at made
      split at made
      · cases List.mem_singleton.mp made
        exact apart dumps (out.trans (congrArg some (joinInj.mp same).1))
      · cases made
    · cases mem
  · cases mem

theorem artifactNames {session : CompilerSession} {functions : List (DefId × BodyWithBorrowckFacts)}
    (apart : ∀ fn ∈ functions, session.filename fn.1 ≠ name) :
    lastOf (functions.flatMap (session.artifact dir)) (join dir name) = none := by
  refine LastWrite.lastOfNone.mpr (fun one mem same => ?_)
  obtain ⟨fn, inside, made⟩ := List.mem_flatMap.mp mem
  unfold CompilerSession.artifact at made
  split at made
  · cases List.mem_singleton.mp made
    exact apart fn inside (joinInj.mp same).2
  · cases made

theorem writesOf (dumps : inv.dumps = true) (out : inv.outDir = some dir) :
    inv.writes = inv.functions.flatMap (inv.session.artifact dir) := by
  rw [Invocation.writes, out]
  simp only [dumps, if_true]

theorem writtenLast (dumps : inv.dumps = true) (out : inv.outDir = some dir)
    {earlier later : List (DefId × BodyWithBorrowckFacts)} {fn : DefId × BodyWithBorrowckFacts}
    {cached : CachedBody} (functions : inv.functions = earlier ++ fn :: later)
    (latest : ∀ other ∈ later, inv.session.filename other.1 ≠ inv.session.filename fn.1)
    (retrieved : CachedBody.retrieve fn.2 = some cached) :
    lastOf inv.writes (join dir (inv.session.filename fn.1)) = some (inv.session.encode cached) := by
  rw [writesOf dumps out, functions, List.flatMap_append, List.flatMap_cons, LastWrite.lastOfAppend,
    LastWrite.lastOfAppend, artifactNames latest, CompilerSession.artifact, retrieved, LastWrite.lastOfSingle,
    if_pos rfl]
  rfl

end

structure Foreign (writer : Invocation) (dir : PathBuf) (disk : Disk) (invs : List Invocation) : Prop where
  empty : writer.outDir ≠ some dir → ∀ name, disk.file (join dir name) = none
  others : ∀ inv ∈ invs, inv.dumps = true → inv.outDir ≠ some dir

theorem Foreign.unwritten {writer : Invocation} {dir : PathBuf} {disk : Disk} {invs : List Invocation}
    (apart : Foreign writer dir disk invs) (name : String) :
    lastOf (invs.flatMap Invocation.writes) (join dir name) = none := by
  refine LastWrite.lastOfNone.mpr (fun one mem => ?_)
  obtain ⟨inv, inside, wrote⟩ := List.mem_flatMap.mp mem
  exact LastWrite.lastOfNone.mp (writtenElsewhere (apart.others inv inside)) one wrote

theorem retrieved {disk disk' : Disk} {inv : Invocation} (ran : inv.run disk = some disk')
    (dumps : inv.dumps = true) {fn : DefId × BodyWithBorrowckFacts} (mem : fn ∈ inv.functions) :
    ∃ cached, CachedBody.retrieve fn.2 = some cached := by
  rw [Invocation.run, if_pos dumps] at ran
  obtain ⟨_, _, walked⟩ := Option.bind_eq_some_iff.mp ran
  obtain ⟨_, _, visited⟩ := LastWrite.foldlMEach walked fn mem
  obtain ⟨cached, found, _⟩ := Option.bind_eq_some_iff.mp visited
  exact ⟨cached, found⟩

theorem dumpedOut {disk disk' : Disk} {inv : Invocation} (ran : inv.run disk = some disk')
    (dumps : inv.dumps = true) : ∃ dir, inv.outDir = some dir := by
  rw [Invocation.run, if_pos dumps] at ran
  obtain ⟨dir, out, _⟩ := Option.bind_eq_some_iff.mp ran
  exact ⟨dir, out⟩

theorem buildRan {disk disk' : Disk} {before after : List Invocation} {inv : Invocation}
    (built : build disk (before ++ inv :: after) = some disk') :
    ∃ mid next, build disk before = some mid ∧ inv.run mid = some next := by
  rw [build, List.foldlM_append] at built
  obtain ⟨mid, first, later⟩ := Option.bind_eq_some_iff.mp built
  obtain ⟨next, ran, _⟩ := Option.bind_eq_some_iff.mp (List.foldlM_cons.symm.trans later)
  exact ⟨mid, next, first, ran⟩

end Scrutinizer.BodyCache
