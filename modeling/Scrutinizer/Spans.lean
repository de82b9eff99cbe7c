import Mathlib.Data.List.Infix
import Mathlib.Data.List.Nodup
import Scrutinizer.Library.Codec

/-! The spans of an artifact. The position of a span is written relative to its file, which is
written by its name; the reader finds the file again by a scan of the source map. -/
namespace Scrutinizer.BodyCache
open Wire (Bytes Codec)

abbrev BytePos := UInt32
abbrev CrateNum := Nat
abbrev StableCrateId := UInt64

inductive Component where
  | rootDir
  | curDir
  | parentDir
  | normal (name : String)
  deriving DecidableEq, Repr

abbrev PathBuf := List Component

/- `Path::ends_with` compares whole components. -/
def endsWith (path child : PathBuf) : Bool := decide (child <:+ path)

inductive RealFileName where
  | localPath (path : PathBuf)
  | remapped (localPath : Option PathBuf) (virtualName : PathBuf)
  deriving DecidableEq, Repr

inductive FileName where
  | real (name : RealFileName)
  | quoteExpansion (hash : UInt64)
  | anon (hash : UInt64)
  | macroExpansion (hash : UInt64)
  | procMacroSourceCode (hash : UInt64)
  | cfgSpec (hash : UInt64)
  | cliCrateAttr (hash : UInt64)
  | custom (name : String)
  | docTest (path : PathBuf) (line : Int)
  | inlineAsm (hash : UInt64)
  deriving DecidableEq, Repr

structure SourceFile where
  name : FileName
  cnum : CrateNum
  startPos : BytePos
  endPos : BytePos
  ordered : startPos ≤ endPos
  deriving DecidableEq

def SourceFile.contains (file : SourceFile) (pos : BytePos) : Bool :=
  decide (file.startPos ≤ pos) && decide (pos ≤ file.endPos)

/- rustc appends each file behind the end of the last one. -/
structure SourceMap where
  files : List SourceFile
  ascending : files.Pairwise (fun f g => f.endPos < g.startPos)
  named : files.Pairwise (fun f g => f.name ≠ g.name)

def SourceMap.lookupSourceFile (sourceMap : SourceMap) (pos : BytePos) : Option SourceFile :=
  (sourceMap.files.takeWhile fun f => decide (f.startPos ≤ pos)).getLast?

structure SyntaxContext where
  index : UInt32
  deriving DecidableEq, Repr

def SyntaxContext.root : SyntaxContext := ⟨0⟩

structure SpanData where
  lo : BytePos
  hi : BytePos
  ctxt : SyntaxContext
  parent : Option Nat
  deriving DecidableEq, Repr

def SpanData.isDummy (span : SpanData) : Bool := decide (span.lo = 0) && decide (span.hi = 0)

def dummySp (ctxt : SyntaxContext) : SpanData := { lo := 0, hi := 0, ctxt, parent := none }

structure Tcx where
  sourceMap : SourceMap
  stableCrateId : CrateNum → StableCrateId
  stableCrateIdToCrateNum : StableCrateId → Option CrateNum
  fileExists : PathBuf → Bool
  loadFile : PathBuf → Option SourceFile
  crateIds : Codec StableCrateId
  positions : Codec BytePos
  fileNames : Codec FileName

def tagPartialSpan : UInt8 := 0
def tagValidSpanFull : UInt8 := 1

/- `local_path.take()` -/
def FileName.withoutLocal : FileName → FileName
  | .real (.remapped _ virtualName) => .real (.remapped none virtualName)
  | name => name

/- Nothing was written for the context. -/
def decodeSyntaxContext (input : Bytes) : SyntaxContext × Bytes := (SyntaxContext.root, input)

def pathInRealPath : RealFileName → PathBuf
  | .localPath path => path
  | .remapped _ virtualName => virtualName

def matchesPath : FileName → FileName → Bool
  | .real r,.real other => endsWith (pathInRealPath other) (pathInRealPath r)
  | _,_ => false

def decodeU8 : Bytes → Option (UInt8 × Bytes)
  | [] => none
  | byte :: rest => some (byte, rest)

namespace Tcx
variable (tcx : Tcx)

def encodeCrateNum (crate : CrateNum) : Bytes := tcx.crateIds.encode (tcx.stableCrateId crate)

def decodeCrateNum (input : Bytes) : Option (CrateNum × Bytes) := do
  let (id, input) ← tcx.crateIds.decode input
  let crate ← tcx.stableCrateIdToCrateNum id
  some (crate, input)

/- `none` is a panic. Positions are subtracted with the checks of a debug build off; of a span
with `lo ≤ hi`, as `Span::data` gives, no difference overflows. -/
def encodeSpanData (span : SpanData) : Option Bytes :=
  if span.isDummy then some [tagPartialSpan] else do
    let sourceFile ← tcx.sourceMap.lookupSourceFile span.lo
    if sourceFile.contains span.hi then
      some ([tagValidSpanFull] ++ tcx.encodeCrateNum sourceFile.cnum ++
        tcx.fileNames.encode sourceFile.name.withoutLocal ++
        tcx.positions.encode (span.lo - sourceFile.startPos) ++
        tcx.positions.encode (span.hi - span.lo))
    else some [tagPartialSpan]

def matchingSourceFiles (crate : CrateNum) (fileName : FileName) : List SourceFile :=
  tcx.sourceMap.files.filter fun f =>
    decide (f.cnum = crate) && (decide (fileName = f.name) || matchesPath fileName f.name)

def resolveSourceFile (crate : CrateNum) (fileName : FileName) : Option SourceFile :=
  match tcx.matchingSourceFiles crate fileName with
  | [sourceFile] => some sourceFile
  | [] => match fileName with
    | .real (.localPath path) => if tcx.fileExists path then tcx.loadFile path else none
    | _ => none
  -- "Too many matching file names"
  | _ => none

def decodeSpanData (input : Bytes) : Option (SpanData × Bytes) := do
  let (ctxt, input) := decodeSyntaxContext input
  let (tag, input) ← decodeU8 input
  if tag = tagPartialSpan then some (dummySp ctxt, input) else do
    let (crate, input) ← tcx.decodeCrateNum input
    let (fileName, input) ← tcx.fileNames.decode input
    let sourceFile ← tcx.resolveSourceFile crate fileName
    let (lo, input) ← tcx.positions.decode input
    let (len, input) ← tcx.positions.decode input
    let hi := lo + len
    let lo := sourceFile.startPos + lo
    let hi := sourceFile.startPos + hi
    if sourceFile.contains lo && sourceFile.contains hi then
      some ({ lo, hi, ctxt, parent := none }, input)
    else none

/- Crate ids name their crates again, and the codecs of the compiler recover what they wrote; a
file name is written without its local path. -/
structure Faithful : Prop where
  crates : ∀ file ∈ tcx.sourceMap.files,
    tcx.stableCrateIdToCrateNum (tcx.stableCrateId file.cnum) = some file.cnum
  crateIds : ∀ id, tcx.crateIds.RoundTrips id
  positions : ∀ pos, tcx.positions.RoundTrips pos
  fileNames : ∀ file ∈ tcx.sourceMap.files, tcx.fileNames.RoundTrips file.name.withoutLocal

end Tcx

def SpanData.restored (span : SpanData) (file : SourceFile) : SpanData :=
  if span.isDummy || !file.contains span.hi then dummySp SyntaxContext.root
  else { span with ctxt := SyntaxContext.root, parent := none }

def Tcx.Survives (tcx : Tcx) (span : SpanData) (file : SourceFile) : Prop :=
  ∃ bytes, tcx.encodeSpanData span = some bytes ∧
    ∀ rest, tcx.decodeSpanData (bytes ++ rest) = some (span.restored file, rest)

def Tcx.Shadowed (tcx : Tcx) (file : SourceFile) : Prop :=
  ∃ other ∈ tcx.sourceMap.files, other ≠ file ∧ other.cnum = file.cnum ∧
    matchesPath file.name other.name = true

theorem containsIff {file : SourceFile} {pos : BytePos} :
    file.contains pos = true ↔ file.startPos ≤ pos ∧ pos ≤ file.endPos := by
  simp [SourceFile.contains]

theorem lookupFound {sourceMap : SourceMap} {file : SourceFile} {pos : BytePos}
    (inMap : file ∈ sourceMap.files) (covers : file.contains pos = true) :
    sourceMap.lookupSourceFile pos = some file := by
  obtain ⟨start,stop⟩ := containsIff.mp covers
  obtain ⟨before,after,split⟩ := List.append_of_mem inMap
  have ascending := sourceMap.ascending
  rw [split,List.pairwise_append] at ascending
  obtain ⟨-,later,earlier⟩ := ascending
  have below : ∀ f ∈ before, decide (f.startPos ≤ pos) = true := by
    intro f member
    have stop := earlier f member file List.mem_cons_self
    have ordered := f.ordered
    grind
  have above : after.takeWhile (fun f => decide (f.startPos ≤ pos)) = [] := by
    cases after with
    | nil => rfl
    | cons next rest =>
      have next := List.rel_of_pairwise_cons later (List.mem_cons_self (a := next) (l := rest))
      rw [List.takeWhile_cons_of_neg]
      simp only [decide_eq_true_eq]
      grind
  rw [SourceMap.lookupSourceFile,split,List.takeWhile_append_of_pos below,
    List.takeWhile_cons_of_pos (by simpa using start),above]
  simp

theorem matchesWithoutLocal (name other : FileName) :
    matchesPath name.withoutLocal other = matchesPath name other := by
  cases name with
  | real name => cases name <;> cases other <;> rfl
  | _ => rfl

theorem matchesSelf (name : FileName) :
    (decide (name.withoutLocal = name) || matchesPath name.withoutLocal name) = true := by
  cases name with
  | real name =>
    rw [matchesWithoutLocal]
    simp [matchesPath,endsWith]
  | _ => simp [FileName.withoutLocal]

theorem withoutLocalFound {name other : FileName} (same : name.withoutLocal = other) :
    name = other ∨ matchesPath name other = true := by
  subst same
  have self := matchesSelf name
  simp only [Bool.or_eq_true,decide_eq_true_eq] at self
  cases name with
  | real name => exact Or.inr (by cases name <;> simp [matchesPath,endsWith,FileName.withoutLocal,pathInRealPath])
  | _ => exact Or.inl rfl

theorem sameFile {sourceMap : SourceMap} {file other : SourceFile} (first : file ∈ sourceMap.files)
    (second : other ∈ sourceMap.files) (same : file.name = other.name) : file = other :=
  List.inj_on_of_nodup_map (List.pairwise_map.mpr sourceMap.named) first second same

theorem filesNodup (sourceMap : SourceMap) : sourceMap.files.Nodup :=
  sourceMap.named.imp fun different same => different (congrArg _ same)

section
variable {tcx : Tcx} {file : SourceFile}

theorem matchingIff {other : SourceFile} (inMap : file ∈ tcx.sourceMap.files) :
    other ∈ tcx.matchingSourceFiles file.cnum file.name.withoutLocal ↔
      other ∈ tcx.sourceMap.files ∧ (other = file ∨
        other.cnum = file.cnum ∧ matchesPath file.name other.name = true) := by
  simp only [Tcx.matchingSourceFiles,List.mem_filter,Bool.and_eq_true,decide_eq_true_eq,Bool.or_eq_true,
    matchesWithoutLocal]
  refine and_congr_right fun second => ?_
  constructor
  · rintro ⟨crate,same | path⟩
    · rcases withoutLocalFound same with name | path
      · exact Or.inl (sameFile inMap second name).symm
      · exact Or.inr ⟨crate,path⟩
    · exact Or.inr ⟨crate,path⟩
  · rintro (rfl | ⟨crate,path⟩)
    · have self := matchesSelf other.name
      simp only [Bool.or_eq_true,decide_eq_true_eq,matchesWithoutLocal] at self
      exact ⟨rfl,self⟩
    · exact ⟨crate,Or.inr path⟩

theorem matchingAlone (inMap : file ∈ tcx.sourceMap.files) (clear : ¬ tcx.Shadowed file) :
    tcx.matchingSourceFiles file.cnum file.name.withoutLocal = [file] := by
  have nodup := (filesNodup tcx.sourceMap).filter (fun f =>
    decide (f.cnum = file.cnum) && (decide (file.name.withoutLocal = f.name) ||
      matchesPath file.name.withoutLocal f.name))
  refine (List.perm_singleton).mp ((List.perm_ext_iff_of_nodup nodup (List.nodup_singleton _)).mpr ?_)
  intro other
  rw [List.mem_singleton]
  refine (matchingIff inMap).trans ⟨?_,?_⟩
  · rintro ⟨second,rfl | ⟨crate,path⟩⟩
    · rfl
    · by_contra different
      exact clear ⟨other,second,different,crate,path⟩
  · rintro rfl
    exact ⟨inMap,Or.inl rfl⟩

theorem resolvesAlone (inMap : file ∈ tcx.sourceMap.files) (clear : ¬ tcx.Shadowed file) :
    tcx.resolveSourceFile file.cnum file.name.withoutLocal = some file := by
  simp only [Tcx.resolveSourceFile,matchingAlone inMap clear]

theorem resolvesShadowed (inMap : file ∈ tcx.sourceMap.files) (shadowed : tcx.Shadowed file) :
    tcx.resolveSourceFile file.cnum file.name.withoutLocal = none := by
  obtain ⟨other,second,different,crate,path⟩ := shadowed
  have first := (matchingIff inMap).mpr ⟨inMap,Or.inl rfl⟩
  have second := (matchingIff inMap).mpr ⟨second,Or.inr ⟨crate,path⟩⟩
  match found : tcx.matchingSourceFiles file.cnum file.name.withoutLocal with
  | [] =>
    rw [found] at first
    cases first
  | [f] =>
    rw [found,List.mem_singleton] at first second
    exact absurd (second.trans first.symm) different
  | f :: g :: more => simp only [Tcx.resolveSourceFile,found]

variable {span : SpanData}

theorem encodeDummy (dummy : span.isDummy = true) : tcx.encodeSpanData span = some [tagPartialSpan] := by
  rw [Tcx.encodeSpanData,if_pos dummy]

theorem encodeOutside (inMap : file ∈ tcx.sourceMap.files) (covers : file.contains span.lo = true)
    (outside : file.contains span.hi = false) : tcx.encodeSpanData span = some [tagPartialSpan] := by
  rw [Tcx.encodeSpanData,lookupFound inMap covers]
  simp [outside]

theorem encodeFull (inMap : file ∈ tcx.sourceMap.files) (covers : file.contains span.lo = true)
    (real : span.isDummy = false) (inside : file.contains span.hi = true) :
    tcx.encodeSpanData span = some ([tagValidSpanFull] ++ tcx.encodeCrateNum file.cnum ++
      tcx.fileNames.encode file.name.withoutLocal ++ tcx.positions.encode (span.lo - file.startPos) ++
      tcx.positions.encode (span.hi - span.lo)) := by
  rw [Tcx.encodeSpanData,lookupFound inMap covers]
  simp [real,inside]

theorem decodePartial (rest : Bytes) :
    tcx.decodeSpanData ([tagPartialSpan] ++ rest) = some (dummySp SyntaxContext.root, rest) := by
  simp [Tcx.decodeSpanData,decodeU8,decodeSyntaxContext]

theorem decodeFull (faithful : tcx.Faithful) (inMap : file ∈ tcx.sourceMap.files) (lo len : BytePos)
    (rest : Bytes) :
    tcx.decodeSpanData ([tagValidSpanFull] ++ tcx.encodeCrateNum file.cnum ++
        tcx.fileNames.encode file.name.withoutLocal ++ tcx.positions.encode lo ++
        tcx.positions.encode len ++ rest) =
      (tcx.resolveSourceFile file.cnum file.name.withoutLocal).bind fun sourceFile =>
        if sourceFile.contains (sourceFile.startPos + lo) &&
            sourceFile.contains (sourceFile.startPos + (lo + len)) then
          some ({ lo := sourceFile.startPos + lo, hi := sourceFile.startPos + (lo + len),
                  ctxt := SyntaxContext.root, parent := none }, rest)
        else none := by
  have crate : ∀ more, tcx.decodeCrateNum (tcx.encodeCrateNum file.cnum ++ more) =
      some (file.cnum, more) := by
    intro more
    simp only [Tcx.decodeCrateNum,Tcx.encodeCrateNum,faithful.crateIds _ more,Option.bind_eq_bind,
      Option.bind_some,faithful.crates file inMap]
  have full : ¬ tagValidSpanFull = tagPartialSpan := by decide
  simp only [Tcx.decodeSpanData,decodeSyntaxContext,List.append_assoc,List.cons_append,List.nil_append,
    decodeU8,Option.bind_eq_bind,Option.bind_some,if_neg full,crate,faithful.fileNames file inMap _,
    faithful.positions _ _]

theorem positionsBack (start lo hi : BytePos) :
    start + (lo - start) = lo ∧ start + ((lo - start) + (hi - lo)) = hi := by
  constructor <;> grind

theorem decodeShadowed (faithful : tcx.Faithful) (inMap : file ∈ tcx.sourceMap.files)
    (shadowed : tcx.Shadowed file) (covers : file.contains span.lo = true) (real : span.isDummy = false)
    (inside : file.contains span.hi = true) :
    ∃ bytes, tcx.encodeSpanData span = some bytes ∧
      ∀ rest, tcx.decodeSpanData (bytes ++ rest) = none := by
  refine ⟨_,encodeFull inMap covers real inside,fun rest => ?_⟩
  rw [decodeFull faithful inMap,resolvesShadowed inMap shadowed,Option.bind_none]

theorem spanSurvivesIff (faithful : tcx.Faithful) (inMap : file ∈ tcx.sourceMap.files)
    (covers : file.contains span.lo = true) :
    tcx.Survives span file ↔
      span.isDummy = true ∨ file.contains span.hi = false ∨ ¬ tcx.Shadowed file := by
  by_cases dummy : span.isDummy = true
  · refine iff_of_true ⟨_,encodeDummy dummy,fun rest => ?_⟩ (Or.inl dummy)
    rw [decodePartial,SpanData.restored,dummy]
    rfl
  have real : span.isDummy = false := by simpa using dummy
  by_cases inside : file.contains span.hi = true
  · have restored : span.restored file =
        { span with ctxt := SyntaxContext.root, parent := none } := by
      simp [SpanData.restored,real,inside]
    by_cases shadowed : tcx.Shadowed file
    · refine iff_of_false ?_ (by simp [real,inside,shadowed])
      rintro ⟨bytes,written,read⟩
      obtain ⟨bytes',written',lost⟩ := decodeShadowed faithful inMap shadowed covers real inside
      cases written.symm.trans written'
      cases (lost []).symm.trans (read [])
    · have back := positionsBack file.startPos span.lo span.hi
      refine iff_of_true ⟨_,encodeFull inMap covers real inside,fun rest => ?_⟩
        (Or.inr (Or.inr shadowed))
      rw [decodeFull faithful inMap,resolvesAlone inMap shadowed,Option.bind_some,back.1,back.2,restored]
      simp [covers,inside]
  · have outside : file.contains span.hi = false := by simpa using inside
    refine iff_of_true ⟨_,encodeOutside inMap covers outside,fun rest => ?_⟩ (Or.inr (Or.inl outside))
    rw [decodePartial,SpanData.restored,outside]
    simp

end

def libPath : PathBuf := [.normal "src",.normal "lib.rs"]
def vendoredPath : PathBuf := [.normal "vendor",.normal "src",.normal "lib.rs"]

def libFile : SourceFile :=
  { name := .real (.localPath libPath), cnum := 0, startPos := 0, endPos := 99, ordered := by decide }

def vendoredFile : SourceFile :=
  { name := .real (.remapped (some (.rootDir :: vendoredPath)) vendoredPath), cnum := 0, startPos := 100,
    endPos := 180, ordered := by decide }

def nameBytes : List (FileName × Bytes) :=
  [(libFile.name, [0, 0, 10, 115, 114, 99, 47, 108, 105, 98, 46, 114, 115, 0xc1]),
   (vendoredFile.name.withoutLocal,
    [0, 1, 0, 17, 118, 101, 110, 100, 111, 114, 47, 115, 114, 99, 47, 108, 105, 98, 46, 114, 115, 0xc1])]

def twoFiles : Tcx :=
  { sourceMap := { files := [libFile,vendoredFile], ascending := by decide, named := by decide }
    stableCrateId := fun crate => 7000 + UInt64.ofNat crate
    stableCrateIdToCrateNum := fun id => some (id - 7000).toNat
    fileExists := fun path => decide (path = libPath)
    loadFile := fun path => if path = libPath then some libFile else none
    crateIds := (Wire.little 8).through UInt64.toNat UInt64.ofNat
    positions := Wire.leb128.through UInt32.toNat UInt32.ofNat
    fileNames := Codec.ofTable nameBytes }

theorem twoFilesFaithful : twoFiles.Faithful where
  crates := by decide
  crateIds := fun id => Codec.throughRoundTrips (Wire.littleRoundTrips id.toNat_lt) (by simp)
  positions := fun pos => Codec.throughRoundTrips (Wire.leb128RoundTrips _) (by simp)
  fileNames := by
    intro file member rest
    rcases List.mem_pair.mp member with rfl | rfl <;> rfl

theorem vendoredSurvives :
    twoFiles.Survives { lo := 110, hi := 120, ctxt := ⟨3⟩, parent := some 5 } vendoredFile :=
  (spanSurvivesIff twoFilesFaithful (by decide) (by decide)).mpr (Or.inr (Or.inr (by
    rintro ⟨other,member,different,-,path⟩
    rcases List.mem_pair.mp member with rfl | rfl
    · exact absurd path (by decide)
    · exact different rfl)))

def libSpan : SpanData := { lo := 10, hi := 20, ctxt := SyntaxContext.root, parent := none }

theorem libLost :
    twoFiles.Faithful ∧ libFile ∈ twoFiles.sourceMap.files ∧
      libFile.contains libSpan.lo = true ∧ libFile.contains libSpan.hi = true ∧
      (∃ bytes, twoFiles.encodeSpanData libSpan = some bytes ∧
        ∀ rest, twoFiles.decodeSpanData (bytes ++ rest) = none) ∧
      ¬ twoFiles.Survives libSpan libFile := by
  have inMap : libFile ∈ twoFiles.sourceMap.files := by decide
  have shadowed : twoFiles.Shadowed libFile := ⟨vendoredFile,by decide,by decide,rfl,by decide⟩
  obtain ⟨bytes,written,lost⟩ : ∃ bytes, twoFiles.encodeSpanData libSpan = some bytes ∧
      ∀ rest, twoFiles.decodeSpanData (bytes ++ rest) = none :=
    decodeShadowed twoFilesFaithful inMap shadowed (by decide) (by decide) (by decide)
  refine ⟨twoFilesFaithful,inMap,by decide,by decide,⟨bytes,written,lost⟩,?_⟩
  rintro ⟨bytes',written',read⟩
  cases written.symm.trans written'
  cases (lost []).symm.trans (read [])

end Scrutinizer.BodyCache
