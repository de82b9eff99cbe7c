import Mathlib.Data.List.Basic
import Mathlib.Logic.Function.Basic

/-! Stores that are only written: after a series of writes a key has the value of the last write to
it, and where there was none, what it had before. -/
namespace LastWrite

abbrev Store (κ ν : Type) := κ → Option ν

section
variable {κ ν : Type} [DecidableEq κ]

def write (store : Store κ ν) (key : κ) (value : ν) : Store κ ν := Function.update store key (some value)

def writeAll (store : Store κ ν) (writes : List (κ × ν)) : Store κ ν :=
  writes.foldl (fun store one => write store one.1 one.2) store

def lastOf (writes : List (κ × ν)) (key : κ) : Option ν := writes.reverse.lookup key

@[simp] theorem lastOfNil (key : κ) : lastOf ([] : List (κ × ν)) key = none := rfl

theorem lastOfAppend (before after : List (κ × ν)) (key : κ) :
    lastOf (before ++ after) key = (lastOf after key).or (lastOf before key) := by
  rw [lastOf, List.reverse_append, List.lookup_append]
  rfl

theorem lastOfSingle (key other : κ) (value : ν) :
    lastOf [(key, value)] other = if other = key then some value else none := by
  by_cases same : other = key
  · subst same
    simp [lastOf]
  · have differ : (other == key) = false := beq_eq_false_iff_ne.mpr same
    simp [lastOf, List.lookup_cons, differ, same]

theorem lastOfNone {writes : List (κ × ν)} {key : κ} :
    lastOf writes key = none ↔ ∀ one ∈ writes, one.1 ≠ key := by
  simp [lastOf, ne_comm]

theorem lastOfSome {writes : List (κ × ν)} {key : κ} {value : ν} :
    lastOf writes key = some value ↔
      ∃ before after, writes = before ++ (key, value) :: after ∧ ∀ one ∈ after, one.1 ≠ key := by
  rw [lastOf, List.lookup_eq_some_iff]
  constructor
  · rintro ⟨later, earlier, split, none⟩
    refine ⟨earlier.reverse, later.reverse, ?_, ?_⟩
    · rw [← List.reverse_reverse writes, split]
      simp
    · intro one mem same
      simpa [same] using none one (List.mem_reverse.mp mem)
  · rintro ⟨before, after, rfl, none⟩
    refine ⟨after.reverse, before.reverse, by simp, ?_⟩
    intro one mem
    simpa [bne_iff_ne, ne_comm] using none one (List.mem_reverse.mp mem)

theorem writeAllAppend (store : Store κ ν) (before after : List (κ × ν)) :
    writeAll store (before ++ after) = writeAll (writeAll store before) after :=
  List.foldl_append

theorem writeAllGet (store : Store κ ν) (writes : List (κ × ν)) (key : κ) :
    writeAll store writes key = (lastOf writes key).or (store key) := by
  induction writes generalizing store with
  | nil => rfl
  | cons one rest ih =>
    obtain ⟨written, value⟩ := one
    have later := ih (write store written value)
    rw [show (written, value) :: rest = [(written, value)] ++ rest from rfl, writeAllAppend, lastOfAppend,
      lastOfSingle]
    by_cases same : key = written
    · subst same
      simpa [writeAll, write, Option.or_assoc] using later
    · simpa [writeAll, write, same] using later

theorem foldlMWrites {σ ι : Type} {step : σ → ι → Option σ} {store : σ → Store κ ν}
    {writes : ι → List (κ × ν)}
    (one : ∀ s i t, step s i = some t → store t = writeAll (store s) (writes i)) :
    ∀ {items : List ι} {s t : σ}, items.foldlM step s = some t →
      store t = writeAll (store s) (items.flatMap writes) := by
  intro items
  induction items with
  | nil =>
    intro s t ran
    cases Option.some.inj ran
    rfl
  | cons i rest ih =>
    intro s t ran
    obtain ⟨mid, first, later⟩ := Option.bind_eq_some_iff.mp (List.foldlM_cons.symm.trans ran)
    rw [List.flatMap_cons, writeAllAppend, ← one s i mid first]
    exact ih later

theorem foldlMEach {σ ι : Type} {step : σ → ι → Option σ} : ∀ {items : List ι} {s t : σ},
    items.foldlM step s = some t → ∀ i ∈ items, ∃ before after, step before i = some after := by
  intro items
  induction items with
  | nil => exact fun _ i mem => absurd mem List.not_mem_nil
  | cons first rest ih =>
    intro s t ran i mem
    obtain ⟨mid, one, later⟩ := Option.bind_eq_some_iff.mp (List.foldlM_cons.symm.trans ran)
    cases List.mem_cons.mp mem with
    | inl same => exact ⟨s, mid, same ▸ one⟩
    | inr inside => exact ih later i inside

end
end LastWrite
