import Mathlib.Data.List.Infix
import Mathlib.Data.List.Nodup

/-! The dependencies of a verdict: the packages that `cargo tree` lists, and the tree that is
printed for the crate of each call. -/
namespace Scrutinizer.Deps

abbrev Text := List Char

/- The characters of the Unicode property `White_Space`. -/
def isWhitespace (c : Char) : Bool :=
  decide (9 ≤ c.toNat ∧ c.toNat ≤ 13) || decide (0x2000 ≤ c.toNat ∧ c.toNat ≤ 0x200a) ||
    decide (c.toNat ∈ [0x20, 0x85, 0xa0, 0x1680, 0x2028, 0x2029, 0x202f, 0x205f, 0x3000])

def splitWhitespace (text : Text) : List Text :=
  (text.splitOnP isWhitespace).filter fun word => !word.isEmpty

/- `replace("v", "")` -/
def replaceV (text : Text) : Text := text.filter fun c => decide (c ≠ 'v')

/- `str::contains` -/
def contains (text piece : Text) : Bool := decide (piece <:+: text)

def getDirectDeps (stdout : Text) : Option (List Text) :=
  ((stdout.splitOn '\n').filter fun line => !line.isEmpty).mapM fun directDep =>
    match (splitWhitespace directDep).take 2 with
    | [dep,ver] => some (dep ++ '@' :: replaceV ver)
    | _ => none

def directArgs : List Text :=
  ["tree".toList,"--quiet".toList,"--frozen".toList,"--prefix=none".toList,"--depth".toList,"1".toList]

def treeArgs (crateSpec : Text) : List Text :=
  ["tree".toList,"--quiet".toList,"--frozen".toList,"--no-dedupe".toList,"--prefix=none".toList,
   "--package".toList,crateSpec]

structure Ran where
  crate : Text
  args : List Text
  stdout : Text
  deriving DecidableEq

/- `none` is a panic: a line of fewer than two words. -/
def computeDepStringsForCrates (cargo : List Text → Text) (crateNames : List Text) : Option (List Ran) := do
  let directDeps ← getDirectDeps (cargo directArgs)
  some (crateNames.filterMap fun crateName =>
    (directDeps.find? fun depSpec => contains depSpec crateName).map fun crateSpec =>
      ⟨crateName,treeArgs crateSpec,cargo (treeArgs crateSpec)⟩)

def isVersionChar (c : Char) : Bool :=
  decide (48 ≤ c.toNat ∧ c.toNat ≤ 57) || decide (65 ≤ c.toNat ∧ c.toNat ≤ 90) ||
    decide (97 ≤ c.toNat ∧ c.toNat ≤ 122) || decide (c ∈ ['.','-','+'])

structure Package where
  name : Text
  version : Text
  note : Option Text
  named : name ≠ []
  nameChars : name.all (fun c => !isWhitespace c && decide (c ≠ '@')) = true
  versionChars : version.all isVersionChar = true
  noteChars : ∀ text ∈ note, '\n' ∉ text

namespace Package

def rest (p : Package) : Text := p.note.elim [] fun text => ' ' :: text

def line (p : Package) : Text := p.name ++ ' ' :: 'v' :: (p.version ++ p.rest)

/- `name@VERSION` -/
def spec (p : Package) : Text := p.name ++ '@' :: p.version

def crateName (p : Package) : Text := p.name.map fun c => if c = '-' then '_' else c

def mentions (p : Package) (crate : Text) : Prop :=
  crate <:+: p.name ∨ crate <:+: replaceV p.version

end Package

def treeText (packages : List Package) : Text := packages.flatMap fun p => p.line ++ ['\n']

structure CrateName where
  chars : Text
  plain : chars.all (fun c => decide (c ≠ '@') && decide (c ≠ '-')) = true

def Reported (cargo : List Text → Text) (packages : List Package) (out : List Ran) (crate : Text) : Prop :=
  (∀ ran ∈ out, ran.crate = crate → ∃ p ∈ packages, p.crateName = crate ∧
    ran.args = treeArgs p.spec ∧ ran.stdout = cargo (treeArgs p.spec)) ∧
  ((∀ ran ∈ out, ran.crate ≠ crate) → ∀ p ∈ packages, p.crateName ≠ crate)

def FoundFirst (packages : List Package) (crate : Text) : Prop :=
  (∃ before p after, packages = before ++ p :: after ∧ (∀ q ∈ before, ¬ q.mentions crate) ∧
    p.name = crate ∧ 'v' ∉ p.version) ∨
  (∀ p ∈ packages, ¬ p.mentions crate ∧ p.crateName ≠ crate)

theorem versionRange {c : Char} (allowed : isVersionChar c = true) :
    43 ≤ c.toNat ∧ c.toNat ≤ 57 ∨ 65 ≤ c.toNat ∧ c.toNat ≤ 90 ∨ 97 ≤ c.toNat ∧ c.toNat ≤ 122 := by
  simp only [isVersionChar,Bool.or_eq_true,decide_eq_true_eq,or_assoc] at allowed
  rcases allowed with digit | upper | lower | sign
  · omega
  · omega
  · omega
  · simp only [List.mem_cons,List.not_mem_nil,or_false] at sign
    rcases sign with rfl | rfl | rfl <;> decide

theorem Package.versionPlain (p : Package) {c : Char} (member : c ∈ p.version) :
    isWhitespace c = false ∧ c ≠ '@' ∧ c ≠ '_' ∧ c ≠ '\n' := by
  have range := versionRange (List.all_eq_true.mp p.versionChars c member)
  refine ⟨?_,?_,?_,?_⟩
  · simp only [isWhitespace,List.mem_cons,List.not_mem_nil,or_false,Bool.or_eq_false_iff,
      decide_eq_false_iff_not]
    omega
  all_goals
    rintro rfl
    revert range
    decide

theorem Package.namePlain (p : Package) {c : Char} (member : c ∈ p.name) :
    isWhitespace c = false ∧ c ≠ '@' := by
  simpa using List.all_eq_true.mp p.nameChars c member

theorem CrateName.charPlain (crate : CrateName) {c : Char} (member : c ∈ crate.chars) :
    c ≠ '@' ∧ c ≠ '-' := by
  simpa using List.all_eq_true.mp crate.plain c member

section
variable (p : Package)

theorem versionWord : ∀ c ∈ 'v' :: p.version, isWhitespace c = false := by
  intro c member
  rcases List.mem_cons.mp member with rfl | member
  · decide
  · exact (p.versionPlain member).1

theorem wordsOfLine : (splitWhitespace p.line).take 2 = [p.name,'v' :: p.version] := by
  have nameWord : ∀ c ∈ p.name, isWhitespace c = false := fun c member => (p.namePlain member).1
  have nonempty : (!p.name.isEmpty) = true := by simp [p.named]
  rw [splitWhitespace,Package.line,List.splitOnP_append_cons_of_forall_mem nameWord ' ' (by decide),
    List.filter_cons,if_pos nonempty,← List.cons_append]
  cases note : p.note with
  | none =>
    rw [Package.rest,note,Option.elim_none,List.append_nil,List.splitOnP_eq_singleton (versionWord p)]
    rfl
  | some text =>
    rw [Package.rest,note,Option.elim_some,
      List.splitOnP_append_cons_of_forall_mem (versionWord p) ' ' (by decide)]
    rfl

theorem lineUnbroken : '\n' ∉ p.line := by
  have space : isWhitespace '\n' = true := by decide
  intro member
  simp only [Package.line,List.mem_append,List.mem_cons] at member
  rcases member with name | blank | v | version | rest
  · exact absurd space (by simp [(p.namePlain name).1])
  · exact absurd blank (by decide)
  · exact absurd v (by decide)
  · exact (p.versionPlain version).2.2.2 rfl
  · cases note : p.note with
    | none =>
      rw [Package.rest,note] at rest
      cases rest
    | some text =>
      rw [Package.rest,note,Option.elim_some,List.mem_cons] at rest
      exact rest.elim (by decide) (p.noteChars text note)

theorem lineNonempty : (!p.line.isEmpty) = true := by simp [Package.line]

def Package.written : Text := p.name ++ '@' :: replaceV p.version

end

theorem linesOfTree (packages : List Package) :
    ((treeText packages).splitOn '\n').filter (fun line => !line.isEmpty) = packages.map Package.line := by
  induction packages with
  | nil => rfl
  | cons p packages ih =>
    have tree : treeText (p :: packages) = p.line ++ '\n' :: treeText packages := by simp [treeText]
    rw [tree,List.splitOn_append_cons_self_of_not_mem (lineUnbroken p),
      List.filter_cons,if_pos (lineNonempty p),ih,List.map_cons]

theorem directDeps (packages : List Package) :
    getDirectDeps (treeText packages) = some (packages.map Package.written) := by
  rw [getDirectDeps,linesOfTree]
  induction packages with
  | nil => rfl
  | cons p packages ih =>
    rw [List.map_cons,List.mapM_cons,wordsOfLine,ih]
    rfl

theorem infixSplit {α : Type*} {sep : α} {piece left right : List α} (free : sep ∉ piece) :
    piece <:+: left ++ sep :: right ↔ piece <:+: left ∨ piece <:+: right := by
  constructor
  · rintro ⟨before,after,split⟩
    rw [List.append_assoc] at split
    rcases List.append_eq_append_iff.mp split with ⟨mid,rfl,tail⟩ | ⟨mid,rfl,tail⟩
    · rcases List.append_eq_append_iff.mp tail with ⟨more,rfl,-⟩ | ⟨more,rfl,cut⟩
      · exact Or.inl ⟨before,more,by simp⟩
      · cases more with
        | nil => exact Or.inl ⟨before,[],by simp⟩
        | cons head more =>
          cases cut
          exact absurd (by simp) free
    · cases mid with
      | nil =>
        cases piece with
        | nil => exact Or.inl List.nil_infix
        | cons head piece =>
          cases tail
          exact absurd List.mem_cons_self free
      | cons head mid =>
        cases tail
        exact Or.inr ⟨mid,after,by simp⟩
  · rintro (inLeft | inRight)
    · exact inLeft.trans (List.prefix_append _ _).isInfix
    · exact inRight.trans ((List.suffix_cons _ _).trans (List.suffix_append _ _)).isInfix

section
variable {p q : Package}

theorem containsIff {crate : Text} (plain : '@' ∉ crate) :
    contains p.written crate = true ↔ p.mentions crate := by
  rw [contains,decide_eq_true_eq,Package.written,infixSplit plain]
  rfl

theorem replaceVPlain {c : Char} (member : c ∈ replaceV p.version) : c ∈ p.version :=
  (List.mem_filter.mp member).1

theorem replaceVSame : replaceV p.version = p.version ↔ 'v' ∉ p.version := by
  rw [replaceV,List.filter_eq_self]
  simp only [decide_eq_true_eq]
  exact ⟨fun all member => all _ member rfl,fun free c member same => free (same ▸ member)⟩

/- A package whose crate is found in its own text is named as its crate: a hyphen of the name is an
underscore of the crate, which no version has. -/
theorem namedAsCrate {crate : Text} (own : p.crateName = crate) (mentions : p.mentions crate) :
    p.name = crate := by
  have same : crate.length = p.name.length := by simp [← own,Package.crateName]
  rcases mentions with inName | inVersion
  · exact (inName.eq_of_length same).symm
  · have noUnderscore : '_' ∉ crate := fun member =>
      (p.versionPlain (replaceVPlain (inVersion.subset member))).2.2.1 rfl
    have kept : ∀ c ∈ p.name, (if c = '-' then '_' else c) = c := by
      intro c member
      have image : (if c = '-' then '_' else c) ∈ crate := own ▸ List.mem_map_of_mem member
      split at image
      · exact absurd image noUnderscore
      · exact if_neg (by assumption)
    rw [← own,Package.crateName,List.map_congr_left kept,List.map_id']

theorem atNotInName : '@' ∉ p.name := fun member => (p.namePlain member).2 rfl

theorem atNotInVersion : '@' ∉ p.version := fun member => (p.versionPlain member).2.1 rfl

theorem writtenSpec (same : p.written = q.spec) : p.name = q.name ∧ replaceV p.version = q.version := by
  have parts := congrArg (List.splitOn '@') same
  rw [Package.written,Package.spec,List.splitOn_append_cons_self_of_not_mem atNotInName,
    List.splitOn_append_cons_self_of_not_mem atNotInName] at parts
  obtain ⟨name,version⟩ := List.cons.inj parts
  rw [List.splitOn_eq_singleton (fun member => atNotInVersion (replaceVPlain member)),
    List.splitOn_eq_singleton atNotInVersion] at version
  exact ⟨name,List.cons.inj version |>.1⟩

end

def chosen (packages : List Package) (crate : Text) : Option Package :=
  packages.find? fun p => contains p.written crate

section
variable {cargo : List Text → Text} {packages : List Package} {crates : List Text} {crate : Text}

theorem computed (printed : cargo directArgs = treeText packages) :
    computeDepStringsForCrates cargo crates = some (crates.filterMap fun crate =>
      (chosen packages crate).map fun p =>
        ⟨crate,treeArgs p.written,cargo (treeArgs p.written)⟩) := by
  simp only [computeDepStringsForCrates,printed,directDeps,Option.bind_eq_bind,Option.bind_some,
    List.find?_map,Option.map_map]
  rfl

theorem ranIff (printed : cargo directArgs = treeText packages) {out : List Ran}
    (ends : computeDepStringsForCrates cargo crates = some out) {ran : Ran} :
    ran ∈ out ↔ ran.crate ∈ crates ∧ ∃ p, chosen packages ran.crate = some p ∧
      ran.args = treeArgs p.written ∧ ran.stdout = cargo ran.args := by
  rw [computed printed] at ends
  cases ends
  simp only [List.mem_filterMap,Option.map_eq_some_iff]
  constructor
  · rintro ⟨crate,member,p,found,rfl⟩
    exact ⟨member,p,found,rfl,rfl⟩
  · rintro ⟨member,p,found,args,stdout⟩
    refine ⟨_,member,p,found,?_⟩
    cases ran
    simp only [Ran.mk.injEq,true_and]
    simp only at args stdout
    exact ⟨args.symm,by rw [stdout,args]⟩

theorem reportedChosen (printed : cargo directArgs = treeText packages) {out : List Ran}
    (ends : computeDepStringsForCrates cargo crates = some out) (asked : crate ∈ crates) :
    Reported cargo packages out crate ↔
      (∀ p, chosen packages crate = some p → ∃ q ∈ packages, q.crateName = crate ∧ p.written = q.spec) ∧
      (chosen packages crate = none → ∀ p ∈ packages, p.crateName ≠ crate) := by
  have member : ∀ ran : Ran, ran ∈ out ↔ _ := fun ran => ranIff printed ends
  have entry : ∀ p, chosen packages crate = some p →
      ⟨crate,treeArgs p.written,cargo (treeArgs p.written)⟩ ∈ out :=
    fun p found => (member _).mpr ⟨asked,p,found,rfl,rfl⟩
  refine and_congr ⟨?_,?_⟩ ⟨?_,?_⟩
  · intro entries p found
    obtain ⟨q,listed,own,args,-⟩ := entries _ (entry p found) rfl
    have specs : p.written = q.spec := by simpa [treeArgs] using args
    exact ⟨q,listed,own,specs⟩
  · rintro specs ran listed rfl
    obtain ⟨-,p,found,args,stdout⟩ := (member ran).mp listed
    obtain ⟨q,listed,own,same⟩ := specs p found
    rw [same] at args
    exact ⟨q,listed,own,args,args ▸ stdout⟩
  · intro without missing
    refine without fun ran listed same => ?_
    obtain ⟨-,p,found,-⟩ := (member ran).mp listed
    rw [same,missing] at found
    cases found
  · intro missing without
    refine missing ?_
    by_contra present
    obtain ⟨p,found⟩ := Option.ne_none_iff_exists'.mp present
    exact without _ (entry p found) rfl

theorem chosenIff (plain : '@' ∉ crate) {p : Package} :
    chosen packages crate = some p ↔ p.mentions crate ∧
      ∃ before after, packages = before ++ p :: after ∧ ∀ q ∈ before, ¬ q.mentions crate := by
  simp only [chosen,List.find?_eq_some_iff_append,containsIff plain,Bool.not_eq_true',
    ← Bool.not_eq_true]

theorem chosenNone (plain : '@' ∉ crate) :
    chosen packages crate = none ↔ ∀ p ∈ packages, ¬ p.mentions crate := by
  simp only [chosen,List.find?_eq_none,containsIff plain]

end

theorem reportedIff {cargo : List Text → Text} {packages : List Package}
    (named : packages.Pairwise (fun p q => p.name ≠ q.name))
    (printed : cargo directArgs = treeText packages) {crates : List CrateName} {crate : CrateName}
    (asked : crate ∈ crates) :
    (∃ out, computeDepStringsForCrates cargo (crates.map CrateName.chars) = some out ∧
      Reported cargo packages out crate.chars) ↔ FoundFirst packages crate.chars := by
  have plain : '@' ∉ crate.chars := fun member => (crate.charPlain member).1 rfl
  have listed : crate.chars ∈ crates.map CrateName.chars := List.mem_map_of_mem asked
  have reported : (∃ out, computeDepStringsForCrates cargo (crates.map CrateName.chars) = some out ∧
      Reported cargo packages out crate.chars) ↔ _ :=
    ⟨fun ⟨out,ends,holds⟩ => (reportedChosen printed ends listed).mp holds,
      fun holds => ⟨_,computed printed,(reportedChosen printed (computed printed) listed).mpr holds⟩⟩
  rw [reported]
  constructor
  · rintro ⟨specs,missing⟩
    cases found : chosen packages crate.chars with
    | none =>
      have unmentioned := (chosenNone plain).mp found
      exact Or.inr fun p member => ⟨unmentioned p member,missing found p member⟩
    | some p =>
      obtain ⟨q,member,own,same⟩ := specs p found
      obtain ⟨mentions,before,after,split,earlier⟩ := (chosenIff plain).mp found
      obtain ⟨name,version⟩ := writtenSpec same
      have first : p ∈ packages := split ▸ List.mem_append_right _ List.mem_cons_self
      obtain rfl := List.inj_on_of_nodup_map (List.pairwise_map.mpr named) first member name
      exact Or.inl ⟨before,p,after,split,earlier,namedAsCrate own mentions,replaceVSame.mp version⟩
  · rintro (⟨before,p,after,split,earlier,name,version⟩ | absent)
    · have found : chosen packages crate.chars = some p :=
        (chosenIff plain).mpr ⟨Or.inl (name ▸ List.infix_rfl),before,after,split,earlier⟩
      have unhyphened : p.crateName = crate.chars := by
        have kept : ∀ c ∈ p.name, (if c = '-' then '_' else c) = c :=
          fun c member => if_neg (crate.charPlain (name ▸ member)).2
        rw [Package.crateName,List.map_congr_left kept,List.map_id',name]
      refine ⟨fun q chosen => ?_,fun none => ?_⟩
      · cases found.symm.trans chosen
        refine ⟨p,split ▸ List.mem_append_right _ List.mem_cons_self,unhyphened,?_⟩
        rw [Package.written,Package.spec,replaceVSame.mpr version]
      · cases found.symm.trans none
    · have found := (chosenNone plain).mpr fun p member => (absent p member).1
      refine ⟨fun p chosen => ?_,fun _ p member => (absent p member).2⟩
      cases found.symm.trans chosen

def serdeJson : Package :=
  { name := "serde_json".toList, version := "1.0.107".toList, note := none, named := by decide,
    nameChars := by decide, versionChars := by decide, noteChars := by decide }

def serde : Package :=
  { name := "serde".toList, version := "1.0.188".toList, note := some "(*)".toList, named := by decide,
    nameChars := by decide, versionChars := by decide, noteChars := by decide }

def asyncTrait : Package :=
  { name := "async-trait".toList, version := "0.1.73".toList, note := some "(proc-macro)".toList,
    named := by decide, nameChars := by decide, versionChars := by decide, noteChars := by decide }

def preRelease : Package :=
  { name := "rand".toList, version := "0.9.0-dev.1".toList, note := none, named := by decide,
    nameChars := by decide, versionChars := by decide, noteChars := by decide }

def cargoOf (packages : List Package) (args : List Text) : Text :=
  if args = directArgs then treeText packages else args.getLastD []

example : getDirectDeps (treeText [serde,preRelease]) =
    some ["serde@1.0.188".toList,"rand@0.9.0-de.1".toList] := by decide

def serdeCrate : CrateName := ⟨"serde".toList,by decide⟩

theorem serdeReported :
    ∃ out, computeDepStringsForCrates (cargoOf [serde,serdeJson,asyncTrait]) [serdeCrate.chars] = some out ∧
      Reported (cargoOf [serde,serdeJson,asyncTrait]) [serde,serdeJson,asyncTrait] out serdeCrate.chars :=
  (reportedIff (by decide) (if_pos rfl) (List.mem_singleton_self serdeCrate)).mpr
    (Or.inl ⟨[],serde,_,rfl,by simp,rfl,by decide⟩)

instance (cargo : List Text → Text) (packages : List Package) (out : List Ran) (crate : Text) :
    Decidable (Reported cargo packages out crate) := by
  unfold Reported
  infer_instance

theorem treesLost :
    (computeDepStringsForCrates (cargoOf [serdeJson,serde]) ["serde".toList] =
        some [⟨"serde".toList,treeArgs "serde_json@1.0.107".toList,"serde_json@1.0.107".toList⟩] ∧
      ∀ out, computeDepStringsForCrates (cargoOf [serdeJson,serde]) ["serde".toList] = some out →
        ¬ Reported (cargoOf [serdeJson,serde]) [serdeJson,serde] out "serde".toList) ∧
    (computeDepStringsForCrates (cargoOf [asyncTrait]) ["async_trait".toList] = some [] ∧
      ¬ Reported (cargoOf [asyncTrait]) [asyncTrait] [] "async_trait".toList) ∧
    (computeDepStringsForCrates (cargoOf [preRelease]) ["rand".toList] =
        some [⟨"rand".toList,treeArgs "rand@0.9.0-de.1".toList,"rand@0.9.0-de.1".toList⟩] ∧
      ∀ out, computeDepStringsForCrates (cargoOf [preRelease]) ["rand".toList] = some out →
        ¬ Reported (cargoOf [preRelease]) [preRelease] out "rand".toList) := by
  have taken : computeDepStringsForCrates (cargoOf [serdeJson,serde]) ["serde".toList] =
      some [⟨"serde".toList,treeArgs "serde_json@1.0.107".toList,"serde_json@1.0.107".toList⟩] := by
    decide
  have rewritten : computeDepStringsForCrates (cargoOf [preRelease]) ["rand".toList] =
      some [⟨"rand".toList,treeArgs "rand@0.9.0-de.1".toList,"rand@0.9.0-de.1".toList⟩] := by
    decide
  refine ⟨⟨taken,fun out ends => ?_⟩,⟨by decide,by decide⟩,⟨rewritten,fun out ends => ?_⟩⟩
  · cases taken.symm.trans ends
    decide
  · cases rewritten.symm.trans ends
    decide

end Scrutinizer.Deps
