import Scrutinizer.Analyzer
import Scrutinizer.PlainCrate
import Scrutinizer.Library.Search

/-! The entries of the two lists of regular expressions, and the functions they match: a search
in the rendered definition that is anchored at neither end. -/
namespace Scrutinizer
open Search (Piece Found Matches)

def delimiters : List Char := [':', '[', ']', '(', ')', ' ']

@[ext] structure Name where
  chars : List Char
  plain : chars.all (fun c => decide (c ∉ delimiters)) = true
  deriving DecidableEq

def hexDigits : List Char := "0123456789abcdef".toList

structure DefPath where
  krate : Nat
  index : Nat
  crate : Name
  hash : List Char
  hex : hash.all (fun c => decide (c ∈ hexDigits)) = true
  segments : List Name

structure Entry where
  crate : Name
  parents : List Name
  item : Name

def pathText (segments : List Name) : List Char :=
  segments.flatMap (fun segment => ':' :: ':' :: segment.chars)

namespace DefPath

def head (path : DefPath) : List Char :=
  ['D', 'e', 'f', 'I', 'd', '('] ++ Nat.toDigits 10 path.krate ++ ':' :: Nat.toDigits 10 path.index ++
    ' ' :: '~' :: ' ' :: path.crate.chars

/- `DefId(n:m ~ crate[hash]::t1::...::tn)` -/
def text (path : DefPath) : List Char :=
  path.head ++ '[' :: (path.hash ++ ']' :: (pathText path.segments ++ [')']))

def render (path : DefPath) : String := String.ofList path.text

end DefPath

def special : List Char := ['\\', '.', '+', '*', '?', '(', ')', '|', '[', ']', '\x7b', '\x7d', '^', '$']

def escape (c : Char) : List Char := if c ∈ special then ['\\', c] else [c]

/- The regular expressions without operators other than `\w*`. -/
def parsePattern (word : Char → Bool) : List Char → Option (List (Piece Char))
  | [] => some []
  | '\\' :: 'w' :: '*' :: rest => (parsePattern word rest).map (.many word :: ·)
  | '\\' :: c :: rest =>
      if c ∈ special then (parsePattern word rest).map (.lit c :: ·) else none
  | c :: rest => if c ∈ special then none else (parsePattern word rest).map (.lit c :: ·)

namespace Entry

/- `c\[\w*\]::s1::...::sk`, with the special characters of the names escaped. -/
def patternText (entry : Entry) : List Char :=
  entry.crate.chars.flatMap escape ++ "\\[\\w*\\]".toList ++
    (pathText (entry.parents ++ [entry.item])).flatMap escape

def pattern (entry : Entry) : String := String.ofList entry.patternText

def pieces (word : Char → Bool) (entry : Entry) : List (Piece Char) :=
  entry.crate.chars.map .lit ++ .lit '[' :: .many word :: .lit ']' ::
    (pathText (entry.parents ++ [entry.item])).map .lit

def Names (entry : Entry) (path : DefPath) : Prop :=
  path.crate = entry.crate ∧ entry.parents ++ [entry.item] <+: path.segments

/- The crate of the function is another one whose name ends in that of the entry, or its path
goes on with another segment that begins with the last one of the entry. -/
def Overreaches (entry : Entry) (path : DefPath) : Prop :=
  entry.crate.chars <:+ path.crate.chars ∧ ∃ segment rest,
    path.segments = entry.parents ++ segment :: rest ∧ entry.item.chars <+: segment.chars ∧
      (path.crate = entry.crate → segment ≠ entry.item)

end Entry

/- The search of the regular expression engine: for a match anywhere in the text, where `\w`
stands for a class that has the hexadecimal digits. -/
structure SearchEngine (tcx : TyCtxt) (word : Char → Bool) : Prop where
  digits : ∀ c ∈ hexDigits, word c = true
  bracket : word ']' = false
  found : ∀ pattern pieces text, parsePattern word pattern.toList = some pieces →
    (tcx.isMatch pattern text = true ↔ Found pieces text.toList)

section
variable {word : Char → Bool}

theorem parseEscape (c : Char) (rest : List Char) :
    parsePattern word (escape c ++ rest) = (parsePattern word rest).map (.lit c :: ·) := by
  unfold escape
  split
  · rename_i operator
    simp only [special, List.mem_cons, List.not_mem_nil, or_false] at operator
    rcases operator with rfl | rfl | rfl | rfl | rfl | rfl | rfl | rfl | rfl | rfl | rfl | rfl | rfl | rfl <;>
      rfl
  · rename_i plain
    have other : c ≠ '\\' := fun same => plain (same ▸ by decide)
    simp only [List.cons_append, List.nil_append]
    rw [parsePattern, if_neg plain]
    · intro rest' same
      exact absurd same other
    · intro c' rest' same
      exact absurd same other

theorem parseEscapes (chars : List Char) (rest : List Char) :
    parsePattern word (chars.flatMap escape ++ rest) =
      (parsePattern word rest).map (chars.map .lit ++ ·) := by
  induction chars with
  | nil => simp
  | cons c chars ih =>
    rw [List.flatMap_cons, List.append_assoc, parseEscape, ih, Option.map_map]
    rfl

theorem parseEntry (entry : Entry) :
    parsePattern word entry.pattern.toList = some (entry.pieces word) := by
  have segments := @parseEscapes word (pathText (entry.parents ++ [entry.item])) []
  rw [List.append_nil, parsePattern, Option.map_some, List.append_nil] at segments
  have bracket : ∀ rest, parsePattern word ("\\[\\w*\\]".toList ++ rest) =
      (parsePattern word rest).map (.lit '[' :: .many word :: .lit ']' :: ·) := by
    intro rest
    simp [parsePattern, special]
    rfl
  rw [Entry.pattern, String.toList_ofList, Entry.patternText, List.append_assoc, parseEscapes, bracket,
    segments]
  rfl

theorem Name.outside (name : Name) : ∀ c ∈ name.chars, c ∉ delimiters :=
  fun c mem => of_decide_eq_true (List.all_eq_true.mp name.plain c mem)

theorem Name.lacks (name : Name) {d : Char} (delimiter : d ∈ delimiters) : d ∉ name.chars :=
  fun mem => name.outside d mem delimiter

theorem DefPath.hashDigits (path : DefPath) : ∀ c ∈ path.hash, c ∈ hexDigits :=
  fun c mem => of_decide_eq_true (List.all_eq_true.mp path.hex c mem)

theorem pathTextLacks {segments : List Name} {d : Char} (delimiter : d ∈ delimiters) (colon : d ≠ ':') :
    d ∉ pathText segments := by
  intro mem
  obtain ⟨segment, _, inside⟩ := List.mem_flatMap.mp mem
  simp only [List.mem_cons, colon, false_or] at inside
  exact segment.lacks delimiter inside

theorem pathTextEnds (segments : List Name) :
    ∃ d rest, d ∈ delimiters ∧ pathText segments ++ [')'] = d :: rest := by
  cases segments with
  | nil => exact ⟨')', [], by decide, rfl⟩
  | cons segment segments => exact ⟨':', _, by decide, rfl⟩

theorem startsSegment {item segment : Name} {more : List Char} {d : Char} (delimiter : d ∈ delimiters) :
    (∃ after, item.chars ++ after = segment.chars ++ d :: more) ↔ item.chars <+: segment.chars := by
  constructor
  · intro both
    obtain ⟨after, same⟩ := both
    rcases List.append_eq_append_iff.mp same with ⟨rest, whole, _⟩ | ⟨rest, whole, tail⟩
    · exact ⟨rest, whole.symm⟩
    · cases rest with
      | nil => exact ⟨[], by simpa using whole⟩
      | cons e rest =>
        have head : d = e := (List.cons.inj tail).1
        exact absurd (by rw [whole, head]; simp) (item.lacks delimiter)
  · intro both
    obtain ⟨rest, whole⟩ := both
    exact ⟨rest ++ d :: more, by rw [← List.append_assoc, whole]⟩

theorem sameSegment {parent segment : Name} {d d' : Char} {more more' : List Char}
    (delimiter : d ∈ delimiters) (delimiter' : d' ∈ delimiters) :
    parent.chars ++ d' :: more' = segment.chars ++ d :: more ↔
      parent = segment ∧ d' :: more' = d :: more := by
  constructor
  · intro same
    obtain ⟨whole, rfl, rfl⟩ := Search.cutFirst (P := fun c => c ∉ delimiters)
      (not_not.mpr delimiter') (not_not.mpr delimiter) parent.outside segment.outside same
    exact ⟨Name.ext whole, rfl⟩
  · intro same
    rw [same.1, same.2]

theorem segmentText (segment : Name) (rest : List Name) (after : List Char) :
    pathText (segment :: rest) ++ after = ':' :: ':' :: (segment.chars ++ (pathText rest ++ after)) := by
  simp [pathText]

theorem startsPath {item : Name} : ∀ {parents segments : List Name},
    (∃ after, pathText (parents ++ [item]) ++ after = pathText segments ++ [')']) ↔
      ∃ segment rest, segments = parents ++ segment :: rest ∧ item.chars <+: segment.chars := by
  intro parents
  induction parents with
  | nil =>
    intro segments
    cases segments with
    | nil => simp [pathText]
    | cons segment segments =>
      obtain ⟨d, more, delimiter, ends⟩ := pathTextEnds segments
      have step : ∀ after, pathText ([] ++ [item]) ++ after = pathText (segment :: segments) ++ [')'] ↔
          item.chars ++ after = segment.chars ++ d :: more := by
        intro after
        rw [← ends]
        simp [pathText]
      rw [exists_congr step, startsSegment delimiter]
      constructor
      · intro start
        exact ⟨segment, segments, rfl, start⟩
      · intro found
        obtain ⟨segment', rest, same, start⟩ := found
        exact (List.cons.inj same).1 ▸ start
  | cons parent parents ih =>
    intro segments
    cases segments with
    | nil => simp [pathText]
    | cons segment segments =>
      obtain ⟨d, more, delimiter, ends⟩ := pathTextEnds segments
      have step : ∀ after,
          pathText (parent :: parents ++ [item]) ++ after = pathText (segment :: segments) ++ [')'] ↔
          parent = segment ∧ pathText (parents ++ [item]) ++ after = pathText segments ++ [')'] := by
        intro after
        obtain ⟨d', more', delimiter', starts⟩ : ∃ d' more', d' ∈ delimiters ∧
            pathText (parents ++ [item]) ++ after = d' :: more' := by
          cases parents <;> exact ⟨':', _, by decide, rfl⟩
        rw [List.cons_append, segmentText, segmentText, starts, ends, List.cons_inj_right,
          List.cons_inj_right, sameSegment delimiter delimiter']
      simp only [step]
      constructor
      · intro both
        obtain ⟨after, rfl, same⟩ := both
        obtain ⟨segment', rest, rfl, start⟩ := ih.mp ⟨after, same⟩
        exact ⟨segment', rest, rfl, start⟩
      · intro found
        obtain ⟨segment', rest, same, start⟩ := found
        obtain ⟨rfl, rfl⟩ := List.cons.inj same
        obtain ⟨after, further⟩ := ih.mpr ⟨segment', rest, rfl, start⟩
        exact ⟨after, rfl, further⟩

theorem headLacks (path : DefPath) : '[' ∉ path.head := by
  have digits : ∀ n, '[' ∉ Nat.toDigits 10 n := by
    intro n mem
    have digit : '['.isDigit = true := Nat.isDigit_of_mem_toDigits (by omega) (by omega) mem
    exact absurd digit (by decide)
  have crate := path.crate.lacks (by decide : '[' ∈ delimiters)
  simp [DefPath.head, digits, crate]

theorem endsHead {name : Name} {path : DefPath} :
    (∃ before, before ++ name.chars = path.head) ↔ name.chars <:+ path.crate.chars := by
  obtain ⟨start, same⟩ : ∃ start, path.head = start ++ ' ' :: path.crate.chars :=
    ⟨['D', 'e', 'f', 'I', 'd', '('] ++ Nat.toDigits 10 path.krate ++
      ':' :: Nat.toDigits 10 path.index ++ [' ', '~'], by simp [DefPath.head]⟩
  rw [same]
  constructor
  · intro both
    obtain ⟨before, whole⟩ := both
    exact Search.suffixAfter (name.lacks (by decide)) whole
  · intro both
    obtain ⟨before, whole⟩ := both
    exact ⟨start ++ ' ' :: before, by simp [whole]⟩

theorem hashLacks (path : DefPath) : ∀ c ∈ path.hash, c ≠ '[' ∧ c ≠ ']' := by
  have others : hexDigits.all (fun c => decide (c ≠ '[' ∧ c ≠ ']')) = true := by decide
  exact fun c mem => of_decide_eq_true (List.all_eq_true.mp others c (path.hashDigits c mem))

theorem tailLacks (path : DefPath) :
    '[' ∉ path.hash ++ ']' :: (pathText path.segments ++ [')']) := by
  have hash : '[' ∉ path.hash := fun mem => (hashLacks path '[' mem).1 rfl
  have segments := @pathTextLacks path.segments '[' (by decide) (by decide)
  simp [hash, segments]

theorem foundIff {entry : Entry} {path : DefPath} (digits : ∀ c ∈ hexDigits, word c = true)
    (bracket : word ']' = false) :
    Found (entry.pieces word) path.text ↔
      entry.crate.chars <:+ path.crate.chars ∧ ∃ segment rest,
        path.segments = entry.parents ++ segment :: rest ∧ entry.item.chars <+: segment.chars := by
  rw [← endsHead, ← startsPath]
  constructor
  · intro found
    obtain ⟨before, inner, after, whole, described⟩ := found
    obtain ⟨behind, rfl, hashed⟩ := Search.matchesLits.mp described
    obtain ⟨_, rfl, opened⟩ := Search.matchesLit.mp hashed
    obtain ⟨run, _, rfl, inside, passed⟩ := Search.matchesMany.mp opened
    obtain ⟨_, rfl, segments⟩ := Search.matchesLit.mp passed
    cases Search.matchesWord.mp segments
    have text : path.head ++ '[' :: (path.hash ++ ']' :: (pathText path.segments ++ [')'])) =
        (before ++ entry.crate.chars) ++ '[' ::
          (run ++ ']' :: (pathText (entry.parents ++ [entry.item]) ++ after)) := by
      rw [← DefPath.text, whole]
      simp
    obtain ⟨ends, _, hash⟩ := (List.append_cons_inj_of_notMem (headLacks path) (tailLacks path)).mp text
    have closed : ∀ c ∈ run, c ≠ ']' := by
      intro c mem same
      rw [same] at mem
      exact absurd ((inside ']' mem).symm.trans bracket) (by decide)
    obtain ⟨_, _, starts⟩ := Search.cutFirst (P := fun c => c ≠ ']') (by simp) (by simp)
      (fun c mem => (hashLacks path c mem).2) closed hash
    exact ⟨⟨before, ends.symm⟩, after, starts.symm⟩
  · intro both
    obtain ⟨⟨before, ends⟩, after, starts⟩ := both
    have described : Matches (entry.pieces word) (entry.crate.chars ++ '[' :: (path.hash ++ ']' ::
        pathText (entry.parents ++ [entry.item]))) :=
      Search.matchesLits.mpr ⟨_, rfl, .lit (.many (fun c mem => digits c (path.hashDigits c mem))
        (.lit (Search.matchesWord.mpr rfl)))⟩
    refine ⟨before, _, after, ?_, described⟩
    rw [DefPath.text, ← ends, ← starts]
    simp

end

theorem matchedIff {tcx : TyCtxt} {word : Char → Bool} (engine : SearchEngine tcx word) {defId : DefId}
    {path : DefPath} (rendered : tcx.defPathStr defId = path.render) (entry : Entry) :
    tcx.isMatch entry.pattern (tcx.defPathStr defId) = true ↔
      entry.Names path ∨ entry.Overreaches path := by
  rw [engine.found entry.pattern _ _ (parseEntry entry), rendered, DefPath.render, String.toList_ofList,
    foundIff engine.digits engine.bracket]
  constructor
  · intro found
    obtain ⟨ends, segment, rest, same, starts⟩ := found
    by_cases exact_ : path.crate = entry.crate ∧ segment = entry.item
    · left
      refine ⟨exact_.1, rest, ?_⟩
      rw [same, exact_.2]
      simp
    · exact .inr ⟨ends, segment, rest, same, starts, fun crate item => exact_ ⟨crate, item⟩⟩
  · intro either
    cases either with
    | inl named =>
      obtain ⟨crate, rest, same⟩ := named
      refine ⟨crate ▸ List.suffix_refl _, entry.item, rest, ?_, List.prefix_refl _⟩
      rw [← same]
      simp
    | inr beyond =>
      obtain ⟨ends, segment, rest, same, starts, _⟩ := beyond
      exact ⟨ends, segment, rest, same, starts⟩

theorem namedNotBeyond {entry : Entry} {path : DefPath} (named : entry.Names path) :
    ¬ entry.Overreaches path := by
  intro beyond
  obtain ⟨crate, rest, same⟩ := named
  obtain ⟨_, segment, rest', whole, _, other⟩ := beyond
  rw [← same, List.append_assoc] at whole
  have item := (List.cons.inj (List.append_cancel_left whole)).1
  exact other crate item.symm

theorem entryExemptsIff {tcx : TyCtxt} {word : Char → Bool} (engine : SearchEngine tcx word)
    {defId : DefId} {path : DefPath} (rendered : tcx.defPathStr defId = path.render) :
    (∀ entry : Entry, (Setup.matchesAny tcx [entry.pattern] defId = true → entry.Names path) ↔
      ¬ entry.Overreaches path) ∧
    (∀ entries : List Entry, (Setup.matchesAny tcx (entries.map Entry.pattern) defId = true ↔
      ∃ entry ∈ entries, entry.Names path ∨ entry.Overreaches path)) := by
  constructor
  · intro entry
    rw [Setup.matchesAny, List.any_cons, List.any_nil, Bool.or_false, matchedIff engine rendered entry]
    constructor
    · intro only beyond
      exact namedNotBeyond (only (.inr beyond)) beyond
    · intro within either
      exact either.resolve_right within
  · intro entries
    simp only [Setup.matchesAny, List.any_map, List.any_eq_true, Function.comp_apply,
      matchedIff engine rendered]

def searchPattern (word : Char → Bool) (pattern text : String) : Bool :=
  match parsePattern word pattern.toList with
  | some pieces => Search.search pieces text.toList
  | none => false

def asciiWord (c : Char) : Bool := c.isAlphanum || c = '_'

noncomputable def renderingCrate (path : DefPath) : TyCtxt :=
  {TyCtxt.plain (.listed [] List.nodup_nil) with
    defPathStr := fun _ => path.render
    isMatch := searchPattern asciiWord}

theorem renderingEngine (path : DefPath) : SearchEngine (renderingCrate path) asciiWord where
  digits := List.all_eq_true.mp (show hexDigits.all asciiWord = true by decide)
  bracket := by decide
  found pattern pieces text parsed := by
    simp only [renderingCrate, searchPattern, parsed]
    exact Search.searchIff

def panicEntry : Entry :=
  ⟨⟨"core".toList, by decide⟩, [⟨"panicking".toList, by decide⟩], ⟨"panic".toList, by decide⟩⟩

def boundsCheck : DefPath :=
  ⟨2, 7, ⟨"core".toList, by decide⟩, "01ab".toList, by decide,
    [⟨"panicking".toList, by decide⟩, ⟨"panic_bounds_check".toList, by decide⟩]⟩

def otherCore : DefPath :=
  ⟨5, 7, ⟨"mycore".toList, by decide⟩, "01ab".toList, by decide,
    [⟨"panicking".toList, by decide⟩, ⟨"panic".toList, by decide⟩]⟩

example : panicEntry.pattern = "core\\[\\w*\\]::panicking::panic" := by decide

example : otherCore.render = "DefId(5:7 ~ mycore[01ab]::panicking::panic)" := by decide

theorem boundsCheckBeyond : panicEntry.Overreaches boundsCheck :=
  ⟨List.suffix_refl _, _, [], rfl, by decide, fun _ => by decide⟩

theorem otherCoreBeyond : panicEntry.Overreaches otherCore :=
  ⟨by decide, _, [], rfl, List.prefix_refl _, fun same => absurd same (by decide)⟩

def ExemptUnnamed (entry : Entry) (path : DefPath) : Prop :=
  ∃ tcx word defId, SearchEngine tcx word ∧ tcx.defPathStr defId = path.render ∧
    Setup.matchesAny tcx [entry.pattern] defId = true ∧ ¬ entry.Names path

theorem beyondExempt {entry : Entry} {path : DefPath} (beyond : entry.Overreaches path) :
    ExemptUnnamed entry path := by
  refine ⟨renderingCrate path, asciiWord, 0, renderingEngine path, rfl, ?_, ?_⟩
  · rw [Setup.matchesAny, List.any_cons, List.any_nil, Bool.or_false]
    exact (matchedIff (renderingEngine path) rfl entry).mpr (.inr beyond)
  · exact fun named => namedNotBeyond named beyond

theorem othersExempt : ExemptUnnamed panicEntry boundsCheck ∧ ExemptUnnamed panicEntry otherCore :=
  ⟨beyondExempt boundsCheckBeyond, beyondExempt otherCoreBeyond⟩

theorem boundsCheckEntries :
    (∀ entry : Entry, (Setup.matchesAny (renderingCrate boundsCheck) [entry.pattern] 0 = true →
      entry.Names boundsCheck) ↔ ¬ entry.Overreaches boundsCheck) ∧
    (∀ entries : List Entry, (Setup.matchesAny (renderingCrate boundsCheck) (entries.map Entry.pattern) 0 =
      true ↔ ∃ entry ∈ entries, entry.Names boundsCheck ∨ entry.Overreaches boundsCheck)) :=
  entryExemptsIff (renderingEngine boundsCheck) rfl

end Scrutinizer
