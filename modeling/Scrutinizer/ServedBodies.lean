import Scrutinizer.Builds
import Scrutinizer.PlainCrate

/-! Which body a session gets from the artifacts: for its own functions the last one that was
written under the name of the file, and the body that the compiler had, if the crates of the build
are kept apart and none is named so that it is not found. -/
namespace Scrutinizer.BodyCache
open Wire (Bytes)
open LastWrite (lastOf)

def sampleFacts (args : Nat) : BodyWithBorrowckFacts :=
  ⟨⟨args, [], [⟨[.fakeRead ⟨0, []⟩], .other []⟩], [⟨.set 0⟩], [], 0⟩, some ⟨[(0, 1, 2)]⟩⟩

def sampleCached (args : Nat) : CachedBody :=
  ⟨⟨args, [], [⟨[.nop], .other []⟩], [⟨.clear⟩], [], 0⟩, ⟨[(0, 1, 2)]⟩⟩

def sampleSession (stem linked : String) : CompilerSession where
  outputFilenames ext := [.normal "deps", .normal (stem ++ "." ++ ext)]
  crateExternPaths _ := [[.normal "deps", .normal ("lib" ++ linked ++ ".rlib")]]
  krate defId := if defId = 0 then 0 else 1
  filename defId := String.ofList (List.replicate (defId + 1) 'f')
  encode cached := [UInt8.ofNat cached.body.argCount]
  decode data := data.head?.map (fun args => sampleCached args.toNat)

def sampleLibrary (stem : String) : Invocation :=
  ⟨["--crate-name", "library"], false, true, sampleSession stem stem, [(7, sampleFacts 2)]⟩

def sampleMain (linked : String) : Invocation :=
  ⟨["--crate-name", "main"], true, true, sampleSession "main-1" linked, [(0, sampleFacts 1)]⟩

def sampleDisk : Disk := ⟨fun path => decide (path = [.normal "deps"]), fun _ => none⟩

theorem sampleLinked {stem : String} (named : stem ≠ "") (main : String) (krate : CrateNum)
    (remote : krate ≠ localCrate) :
    Linked (sampleSession stem stem) (sampleSession main stem) krate [.normal "deps"] stem where
  named := named
  output := rfl
  remote := remote
  libs := ⟨["rlib"], by decide, by decide, by simp [sampleSession, join, String.append_assoc]⟩
  filenames := rfl

theorem dependencyServedIff {disk disk' : Disk} {before after : List Invocation} {dep : Invocation}
    {reader : CompilerSession} {krate : CrateNum} {dir : PathBuf} {stem : String} {defId : DefId}
    {facts : BodyWithBorrowckFacts} {cached : CachedBody}
    {earlier later : List (DefId × BodyWithBorrowckFacts)}
    (built : build disk (before ++ dep :: after) = some disk') (dumps : dep.dumps = true)
    (linked : Linked dep.session reader krate dir stem) (inCrate : reader.krate defId = krate)
    (functions : dep.functions = earlier ++ (defId, facts) :: later)
    (latest : ∀ fn ∈ later, dep.session.filename fn.1 ≠ dep.session.filename defId)
    (retrieved : CachedBody.retrieve facts = some cached)
    (crosses : reader.decode (dep.session.encode cached) = some cached)
    (apart : Foreign dep (linkDir dir stem) disk (before ++ after)) :
    reader.loadBodyAndFacts disk' defId = some (.ok cached) ↔ startsWithLib stem = false := by
  have others := apart.unwritten (reader.filename defId)
  rw [List.flatMap_append, LastWrite.lastOfAppend, Option.or_eq_none_iff] at others
  have file : disk'.file (join (linkDir dir stem) (reader.filename defId)) =
      (lastOf dep.writes (join (linkDir dir stem) (reader.filename defId))).or
        (disk.file (join (linkDir dir stem) (reader.filename defId))) := by
    rw [buildFile built, List.flatMap_append, List.flatMap_cons, LastWrite.lastOfAppend,
      LastWrite.lastOfAppend, others.1, others.2]
    simp
  rw [loadLinked linked inCrate, file]
  constructor
  · intro found
    refine linked.outDirIff.mp (Classical.byContradiction fun elsewhere => ?_)
    rw [writtenElsewhere (fun _ => elsewhere), apart.empty elsewhere] at found
    cases found
  · intro plain
    rw [linked.filenames, writtenLast dumps (linked.outDirIff.mpr plain) functions latest retrieved]
    simp only [Option.some_or, CompilerSession.readFile, crosses, Option.map_some]

theorem libcLost : ∃ disk, build sampleDisk [sampleLibrary "libc-1"] = some disk ∧
    (sampleSession "main-1" "libc-1").loadBodyAndFacts disk 7 ≠ some (.ok (sampleCached 2)) := by
  have ends : (build sampleDisk [sampleLibrary "libc-1"]).isSome := by decide +kernel
  have built : build sampleDisk ([] ++ sampleLibrary "libc-1" :: []) = some _ := (Option.some_get ends).symm
  have functions : (sampleLibrary "libc-1").functions = [] ++ (7, sampleFacts 2) :: [] := rfl
  have apart : Foreign (sampleLibrary "libc-1") (linkDir [.normal "deps"] "libc-1") sampleDisk ([] ++ []) :=
    ⟨fun _ _ => rfl, fun _ mem => absurd mem List.not_mem_nil⟩
  have found := dependencyServedIff built (by decide) (sampleLinked (by decide) "main-1" 1 (by decide)) rfl
    functions (fun _ mem => absurd mem List.not_mem_nil) rfl rfl apart
  exact ⟨_, built, fun loaded => absurd (found.mp loaded) (by decide)⟩

theorem ownHistory {disk disk' : Disk} {before : List Invocation} {inv : Invocation} {dir : PathBuf}
    {defId : DefId} (built : build disk (before ++ [inv]) = some disk') (out : inv.outDir = some dir)
    (own : inv.session.krate defId = localCrate) :
    inv.session.loadBodyAndFacts disk' defId =
      let path := join dir (inv.session.filename defId)
      inv.session.readFile
        (((lastOf inv.writes path).or (lastOf (before.flatMap Invocation.writes) path)).or (disk.file path)) := by
  rw [loadOwn out own, buildFile built, List.flatMap_append, LastWrite.lastOfAppend]
  simp only [List.flatMap_singleton]

theorem ownServed {disk disk' : Disk} {before : List Invocation} {inv : Invocation} {defId : DefId}
    (built : build disk (before ++ [inv]) = some disk') (dumps : inv.dumps = true)
    (own : inv.session.krate defId = localCrate) :
    (∀ earlier fn later, inv.functions = earlier ++ fn :: later →
      inv.session.filename fn.1 = inv.session.filename defId →
      (∀ other ∈ later, inv.session.filename other.1 ≠ inv.session.filename defId) →
      ∃ cached, CachedBody.retrieve fn.2 = some cached ∧ inv.session.loadBodyAndFacts disk' defId =
        (inv.session.decode (inv.session.encode cached)).map .ok) ∧
    ((∀ fn ∈ inv.functions, inv.session.filename fn.1 ≠ inv.session.filename defId) →
      ∃ mid, build disk before = some mid ∧
        inv.session.loadBodyAndFacts disk' defId = inv.session.loadBodyAndFacts mid defId) := by
  obtain ⟨mid, next, first, ran⟩ := buildRan built
  obtain ⟨dir, out⟩ := dumpedOut ran dumps
  have history := ownHistory built out own
  constructor
  · intro earlier fn later functions same latest
    obtain ⟨cached, found⟩ := retrieved ran dumps (functions ▸ List.mem_append_right _ List.mem_cons_self)
    refine ⟨cached, found, ?_⟩
    have written := writtenLast dumps out functions (fun other mem => same ▸ latest other mem) found
    rw [same] at written
    simp only [history, written, Option.some_or, CompilerSession.readFile]
  · intro absent
    refine ⟨mid, first, ?_⟩
    have unwritten : lastOf inv.writes (join dir (inv.session.filename defId)) = none := by
      rw [writesOf dumps out]
      exact artifactNames absent
    rw [history, loadOwn out own, buildFile first]
    simp only [unwritten, Option.none_or]

theorem staleServed : ∃ disk, build sampleDisk
    [sampleMain "dep-1", {sampleMain "dep-1" with functions := []}] = some disk ∧
      (sampleMain "dep-1").session.loadBodyAndFacts disk 0 = some (.ok (sampleCached 1)) := by
  have ends : (build sampleDisk [sampleMain "dep-1", {sampleMain "dep-1" with functions := []}]).isSome := by
    decide +kernel
  have built : build sampleDisk ([sampleMain "dep-1"] ++ [{sampleMain "dep-1" with functions := []}]) = some _ :=
    (Option.some_get ends).symm
  have lost : ({sampleMain "dep-1" with functions := []} : Invocation).session.krate 0 = localCrate := rfl
  obtain ⟨mid, first, stale⟩ := (ownServed built (by decide) lost).2 (fun _ mem => absurd mem List.not_mem_nil)
  have firstBuilt : build sampleDisk ([] ++ [sampleMain "dep-1"]) = some mid := first
  have own : (sampleMain "dep-1").session.krate 0 = localCrate := rfl
  obtain ⟨cached, kept, found⟩ := (ownServed firstBuilt (by decide) own).1 [] _ [] rfl rfl
    (fun _ mem => absurd mem List.not_mem_nil)
  cases Option.some.inj kept
  exact ⟨_, built, stale.trans found⟩

structure Dependency where
  inv : Invocation
  krate : CrateNum
  dir : PathBuf
  stem : String

/- The dumps of a build, each in a directory of its own, in which each function has a file of its own and
from before there are at most files of functions that are dumped again; the session of the main crate
finds them all and decodes what they wrote. -/
structure WellBuilt (disk : Disk) (others : List Invocation) (deps : List Dependency) (main : Invocation) :
    Prop where
  compiled : others.filter Invocation.dumps = deps.map Dependency.inv
  dumps : main.dumps = true
  linked : ∀ dep ∈ deps, Linked dep.inv.session main.session dep.krate dep.dir dep.stem
  found : ∀ dep ∈ deps, startsWithLib dep.stem = false
  apart : (deps.map Dependency.inv ++ [main]).Pairwise (fun one other => one.outDir ≠ other.outDir)
  fresh : ∀ inv ∈ deps.map Dependency.inv ++ [main], ∀ dir, inv.outDir = some dir → ∀ name,
    (∀ fn ∈ inv.functions, inv.session.filename fn.1 ≠ name) → disk.file (join dir name) = none
  files : ∀ defId defId', main.session.krate defId = main.session.krate defId' →
    main.session.filename defId = main.session.filename defId' → defId = defId'
  own : ∀ fn ∈ main.functions, main.session.krate fn.1 = localCrate
  placed : ∀ dep ∈ deps, ∀ fn ∈ dep.inv.functions, main.session.krate fn.1 = dep.krate
  once : ∀ inv ∈ deps.map Dependency.inv ++ [main], (inv.functions.map Prod.fst).Nodup
  crosses : ∀ inv ∈ deps.map Dependency.inv ++ [main], ∀ fn ∈ inv.functions, ∀ cached,
    CachedBody.retrieve fn.2 = some cached → main.session.decode (inv.session.encode cached) = some cached

def bodies (functions : List (DefId × BodyWithBorrowckFacts)) (defId : DefId) : Option Body :=
  (functions.lookup defId).map (fun facts => facts.body.toBody)

structure Compiled (tcx : TyCtxt) (deps : List Dependency) (main : Invocation) : Prop where
  known : ∀ defId, main.session.krate defId = localCrate ∨ ∃ dep ∈ deps, main.session.krate defId = dep.krate
  own : ∀ defId, main.session.krate defId = localCrate → tcx.loadBodyAndFacts defId = bodies main.functions defId
  linked : ∀ dep ∈ deps, ∀ defId, main.session.krate defId = dep.krate →
    tcx.loadBodyAndFacts defId = bodies dep.inv.functions defId

theorem dumpedWrites (invs : List Invocation) :
    invs.flatMap Invocation.writes = (invs.filter Invocation.dumps).flatMap Invocation.writes := by
  induction invs with
  | nil => rfl
  | cons inv rest ih =>
    by_cases dumps : inv.dumps = true
    · rw [List.filter_cons_of_pos dumps, List.flatMap_cons, List.flatMap_cons, ih]
    · have silent : inv.writes = [] := by
        unfold Invocation.writes
        split
        · rw [if_neg dumps]
        · rfl
      rw [List.filter_cons_of_neg dumps, List.flatMap_cons, silent, ih]
      rfl

namespace WellBuilt
variable {disk disk' : Disk} {others : List Invocation} {deps : List Dependency} {main inv : Invocation}
  {dir : PathBuf} {defId : DefId}

theorem allDump (well : WellBuilt disk others deps main) :
    (others ++ [main]).filter Invocation.dumps = deps.map Dependency.inv ++ [main] := by
  rw [List.filter_append, well.compiled, List.filter_cons_of_pos well.dumps]
  rfl

theorem memBuild (well : WellBuilt disk others deps main) (mem : inv ∈ deps.map Dependency.inv ++ [main]) :
    inv ∈ others ++ [main] ∧ inv.dumps = true := by
  rw [← well.allDump] at mem
  exact List.mem_filter.mp mem

theorem fileOf (well : WellBuilt disk others deps main) (built : build disk (others ++ [main]) = some disk')
    (mem : inv ∈ deps.map Dependency.inv ++ [main]) (out : inv.outDir = some dir) (name : String) :
    disk'.file (join dir name) = (lastOf inv.writes (join dir name)).or (disk.file (join dir name)) := by
  obtain ⟨before, after, split⟩ := List.append_of_mem mem
  have apart := well.apart
  rw [split, List.pairwise_append, List.pairwise_cons] at apart
  obtain ⟨-, ⟨later, -⟩, earlier⟩ := apart
  have first : lastOf (before.flatMap Invocation.writes) (join dir name) = none := by
    refine LastWrite.lastOfNone.mpr (fun one mem => ?_)
    obtain ⟨other, inside, wrote⟩ := List.mem_flatMap.mp mem
    have differ := earlier other inside inv List.mem_cons_self
    exact LastWrite.lastOfNone.mp (writtenElsewhere (fun _ => out ▸ differ)) one wrote
  have last : lastOf (after.flatMap Invocation.writes) (join dir name) = none := by
    refine LastWrite.lastOfNone.mpr (fun one mem => ?_)
    obtain ⟨other, inside, wrote⟩ := List.mem_flatMap.mp mem
    have differ := (later other inside).symm
    exact LastWrite.lastOfNone.mp (writtenElsewhere (fun _ => out ▸ differ)) one wrote
  rw [buildFile built, dumpedWrites, well.allDump, split, List.flatMap_append, List.flatMap_cons,
    LastWrite.lastOfAppend, LastWrite.lastOfAppend, first, last]
  simp

theorem readBack (well : WellBuilt disk others deps main) (built : build disk (others ++ [main]) = some disk')
    (mem : inv ∈ deps.map Dependency.inv ++ [main]) (out : inv.outDir = some dir)
    (filenames : main.session.filename = inv.session.filename)
    (together : ∀ fn ∈ inv.functions, main.session.krate fn.1 = main.session.krate defId) :
    (match main.session.readFile (disk'.file (join dir (main.session.filename defId))) with
      | some (.ok cached) => some cached.body.toBody
      | _ => none) = bodies inv.functions defId := by
  obtain ⟨inBuild, dumps⟩ := well.memBuild mem
  obtain ⟨before, after, split⟩ := List.append_of_mem inBuild
  obtain ⟨mid, next, -, ran⟩ := buildRan (split ▸ built)
  have apart : ∀ fn ∈ inv.functions, fn.1 ≠ defId →
      main.session.filename fn.1 ≠ main.session.filename defId := by
    intro fn inside differ same
    exact differ (well.files _ _ (together fn inside) same)
  rw [well.fileOf built mem out]
  cases found : inv.functions.lookup defId with
  | none =>
    have absent : ∀ fn ∈ inv.functions, inv.session.filename fn.1 ≠ main.session.filename defId := by
      intro fn inside
      have differ : fn.1 ≠ defId := by
        have := List.lookup_eq_none_iff.mp found fn inside
        simpa [ne_comm] using this
      exact filenames ▸ apart fn inside differ
    rw [writesOf dumps out, artifactNames absent, well.fresh inv mem dir out _ absent, bodies, found]
    rfl
  | some facts =>
    obtain ⟨earlier, later, functions, -⟩ := List.lookup_eq_some_iff.mp found
    have inside : (defId, facts) ∈ inv.functions := functions ▸ List.mem_append_right _ List.mem_cons_self
    have once := well.once inv mem
    rw [functions, List.map_append, List.map_cons, List.nodup_append, List.nodup_cons] at once
    have latest : ∀ other ∈ later, inv.session.filename other.1 ≠ inv.session.filename defId := by
      intro other within
      have differ : other.1 ≠ defId := fun same => once.2.1.1 (List.mem_map.mpr ⟨other, within, same⟩)
      have within : other ∈ inv.functions :=
        functions ▸ List.mem_append_right _ (List.mem_cons_of_mem _ within)
      exact filenames ▸ apart other within differ
    obtain ⟨cached, kept⟩ := retrieved ran dumps inside
    have written := writtenLast dumps out functions latest kept
    rw [filenames, written, bodies, found]
    simp only [Option.some_or, CompilerSession.readFile, well.crosses inv mem _ inside cached kept, Option.map_some,
      retrieveToBody kept]

theorem serveCompiled {tcx : TyCtxt} (well : WellBuilt disk others deps main)
    (built : build disk (others ++ [main]) = some disk') (compiled : Compiled tcx deps main) :
    main.session.serve disk' tcx = tcx := by
  have each : ∀ defId, (main.session.serve disk' tcx).loadBodyAndFacts defId = tcx.loadBodyAndFacts defId := by
    intro defId
    unfold CompilerSession.serve
    cases compiled.known defId with
    | inl own =>
      have mem : main ∈ deps.map Dependency.inv ++ [main] := List.mem_append_right _ List.mem_cons_self
      obtain ⟨mid, next, -, ran⟩ := buildRan built
      obtain ⟨dir, out⟩ := dumpedOut ran well.dumps
      rw [compiled.own defId own]
      simp only [loadOwn out own]
      exact well.readBack built mem out rfl (fun fn inside => (well.own fn inside).trans own.symm)
    | inr some =>
      obtain ⟨dep, isDep, inCrate⟩ := some
      have linked := well.linked dep isDep
      have mem : dep.inv ∈ deps.map Dependency.inv ++ [main] :=
        List.mem_append_left _ (List.mem_map_of_mem isDep)
      rw [compiled.linked dep isDep defId inCrate]
      simp only [loadLinked linked inCrate]
      exact well.readBack built mem (linked.outDirIff.mpr (well.found dep isDep)) linked.filenames
        (fun fn inside => (well.placed dep isDep fn inside).trans inCrate.symm)
  have same : (main.session.serve disk' tcx).loadBodyAndFacts = tcx.loadBodyAndFacts := funext each
  calc main.session.serve disk' tcx
      = {tcx with loadBodyAndFacts := (main.session.serve disk' tcx).loadBodyAndFacts} := rfl
    _ = tcx := by rw [same]

end WellBuilt

def sampleDependency : Dependency := ⟨sampleLibrary "dep-1", 1, [.normal "deps"], "dep-1"⟩

noncomputable def sampleTcx : TyCtxt :=
  {TyCtxt.plain (.listed [] List.nodup_nil) with
    loadBodyAndFacts := fun defId =>
      if defId = 0 then bodies (sampleMain "dep-1").functions defId
      else bodies (sampleLibrary "dep-1").functions defId}

def rebuiltDisk : Disk :=
  {sampleDisk with file := fun path => if path = join (linkDir [.normal "deps"] "main-1") "f" then some [5] else none}

theorem sampleWellBuilt :
    WellBuilt rebuiltDisk [sampleLibrary "dep-1"] [sampleDependency] (sampleMain "dep-1") where
  compiled := rfl
  dumps := by decide
  linked := List.forall_mem_singleton.mpr (sampleLinked (by decide) "main-1" 1 (by decide))
  found := List.forall_mem_singleton.mpr (by decide)
  apart := by decide
  fresh := by
    intro inv mem dir out name other
    refine if_neg (fun same => ?_)
    obtain ⟨rfl, rfl⟩ := joinInj.mp same
    rcases List.mem_cons.mp mem with rfl | mem
    · exact absurd out (by decide)
    · cases List.mem_singleton.mp mem
      exact other _ List.mem_cons_self rfl
  files := by
    intro defId defId' _ same
    have sizes := congrArg (fun name => name.toList.length) same
    simpa [sampleMain, sampleSession] using sizes
  own := List.forall_mem_singleton.mpr rfl
  placed := List.forall_mem_singleton.mpr (List.forall_mem_singleton.mpr rfl)
  once := by decide
  crosses := by
    have each : ∀ inv ∈ [sampleLibrary "dep-1", sampleMain "dep-1"], ∀ fn ∈ inv.functions,
        (CachedBody.retrieve fn.2).all (fun cached => decide
          ((sampleMain "dep-1").session.decode (inv.session.encode cached) = some cached)) = true := by
      decide +kernel
    intro inv mem fn inside cached kept
    have one := each inv mem fn inside
    rw [kept] at one
    exact of_decide_eq_true one

theorem sampleServed : ∃ disk, build rebuiltDisk [sampleLibrary "dep-1", sampleMain "dep-1"] = some disk ∧
    (sampleMain "dep-1").session.serve disk sampleTcx = sampleTcx := by
  have ends : (build rebuiltDisk [sampleLibrary "dep-1", sampleMain "dep-1"]).isSome := by decide +kernel
  have built : build rebuiltDisk ([sampleLibrary "dep-1"] ++ [sampleMain "dep-1"]) = some _ :=
    (Option.some_get ends).symm
  refine ⟨_, built, WellBuilt.serveCompiled sampleWellBuilt built ⟨?_, ?_, ?_⟩⟩
  · intro defId
    by_cases own : defId = 0
    · exact Or.inl (if_pos own)
    · exact Or.inr ⟨sampleDependency, List.mem_cons_self, if_neg own⟩
  · intro defId own
    by_cases zero : defId = 0
    · exact if_pos zero
    · have other : (sampleMain "dep-1").session.krate defId = 1 := if_neg zero
      cases other.symm.trans own
  · intro dep mem defId linked
    cases List.mem_singleton.mp mem
    by_cases zero : defId = 0
    · have own : (sampleMain "dep-1").session.krate defId = 0 := if_pos zero
      cases own.symm.trans linked
    · exact if_neg zero

end Scrutinizer.BodyCache
