import Mathlib.Data.Finset.Dedup
import Mathlib.Data.Finset.Union
import Mathlib.Algebra.BigOperators.Group.Finset.Basic
import Mathlib.Algebra.Order.BigOperators.Group.Finset

/-! The elements of a list, each where it first comes up. -/
namespace Distinct
variable {α β : Type} [DecidableEq α] [DecidableEq β]

theorem nodup (l : List α) : l.eraseDups.Nodup := by
  induction l using List.reverseRecOn with
  | nil => exact List.nodup_nil
  | append_singleton l a ih =>
    rw [List.eraseDups_append]
    by_cases known : a ∈ l
    · simpa [List.removeAll, known] using ih
    · have last : ([a].removeAll l).eraseDups = [a] := by
        simp [List.removeAll, known, List.eraseDups_cons]
      rw [last]
      exact ih.append (List.nodup_singleton a) (by simpa [List.mem_eraseDups] using known)

theorem count (l : List α) : l.eraseDups.length = l.toFinset.card := by
  rw [← List.toFinset_card_of_nodup (nodup l)]
  congr 1
  ext a
  simp [List.mem_eraseDups]

theorem split {a : α} {before : List α} (new : a ∉ before) (after : List α) :
    ∃ rest, (before ++ a :: after).eraseDups = before.eraseDups ++ a :: rest := by
  have kept : (a :: after).removeAll before = a :: after.removeAll before := by
    simp [List.removeAll, new]
  exact ⟨_, by rw [List.eraseDups_append, kept, List.eraseDups_cons]⟩

theorem getIff {a : α} {before after : List α} (new : a ∉ before) {k : Nat} :
    (before ++ a :: after).eraseDups[k]? = some a ↔ k = before.toFinset.card := by
  obtain ⟨rest, same⟩ := split new after
  have first : (before ++ a :: after).eraseDups[before.eraseDups.length]? = some a := by
    rw [same, List.getElem?_append_right (Nat.le_refl _)]
    simp
  rw [← count]
  constructor
  · intro held
    have bound := (List.getElem?_eq_some_iff.mp held).1
    exact (List.getElem?_inj bound (nodup _)).mp (held.trans first.symm)
  · rintro rfl
    exact first

theorem countFlatMap {f : α → List β} {l : List α} (some_ : ∀ a ∈ l, f a ≠ [])
    (apart : ∀ a ∈ l, ∀ b ∈ l, a ≠ b → ∀ x ∈ f a, x ∉ f b) :
    (l.flatMap f).toFinset.card = l.toFinset.card ↔ ∀ a ∈ l, (f a).toFinset.card = 1 := by
  have union : (l.flatMap f).toFinset = l.toFinset.biUnion (fun a => (f a).toFinset) := by
    ext x
    simp
  have disjoint : ∀ a ∈ l.toFinset, ∀ b ∈ l.toFinset, a ≠ b → Disjoint (f a).toFinset (f b).toFinset := by
    intro a inside b inside' other
    refine Finset.disjoint_left.mpr (fun x mem mem' => ?_)
    exact apart a (List.mem_toFinset.mp inside) b (List.mem_toFinset.mp inside') other x
      (List.mem_toFinset.mp mem) (List.mem_toFinset.mp mem')
  have least : ∀ a ∈ l.toFinset, 1 ≤ (f a).toFinset.card := by
    intro a inside
    obtain ⟨x, mem⟩ := List.exists_mem_of_ne_nil _ (some_ a (List.mem_toFinset.mp inside))
    exact Finset.card_pos.mpr ⟨x, List.mem_toFinset.mpr mem⟩
  rw [union, Finset.card_biUnion disjoint, Finset.card_eq_sum_ones l.toFinset, eq_comm,
    Finset.sum_eq_sum_iff_of_le least]
  simp only [List.mem_toFinset, eq_comm]

/- The last node is `n` steps below: each one on the way shows itself, a mark and what is below it. -/
inductive Below (nodes : α → List α) (size : α → Nat) (mark last : α) : Nat → α → Prop where
  | here : Below nodes size mark last 0 last
  | step {n x inner} (shows : nodes x = x :: mark :: nodes inner) (smaller : size inner < size x) (other : x ≠ mark)
      (below : Below nodes size mark last n inner) : Below nodes size mark last (n + 1) x

theorem countMarked {mark : α} {xs : List α} (different : xs.Nodup) (other : mark ∉ xs) :
    (xs.flatMap (fun x => [x, mark])).toFinset.card = xs.length + (if xs = [] then 0 else 1) := by
  cases xs with
  | nil => rfl
  | cons x rest =>
    have both : ((x :: rest).flatMap (fun x => [x, mark])).toFinset =
        insert mark (x :: rest).toFinset := by
      ext y
      simp only [List.mem_toFinset, List.mem_flatMap, List.mem_cons, List.not_mem_nil, or_false,
        Finset.mem_insert]
      grind
    rw [both, Finset.card_insert_of_notMem (by simpa using other), List.toFinset_card_of_nodup different]
    simp

section
variable {nodes : α → List α} {size : α → Nat} {mark last x : α} {n : Nat}

omit [DecidableEq α] in
theorem Below.marked (below : Below nodes size mark last n x) (head : ∃ rest, nodes last = last :: rest) :
    ∃ passed after : List α, nodes x = passed.flatMap (fun y => [y, mark]) ++ last :: after ∧ passed.length = n ∧
      passed.Nodup ∧ size last ≤ size x ∧ ∀ y ∈ passed, y ≠ mark ∧ size last < size y ∧ size y ≤ size x := by
  induction below with
  | here =>
    obtain ⟨rest, shows⟩ := head
    exact ⟨[], rest, shows, rfl, List.nodup_nil, Nat.le_refl _, by simp⟩
  | @step n x inner shows smaller other _ ih =>
    obtain ⟨passed, after, split, length, different, least, sizes⟩ := ih
    have new : x ∉ passed := fun mem => by
      have small := (sizes x mem).2.2
      omega
    refine ⟨x :: passed, after, by simp [shows, split], by simp [length], List.nodup_cons.mpr ⟨new, different⟩,
      by omega, ?_⟩
    intro y mem
    rcases List.mem_cons.mp mem with rfl | mem
    · exact ⟨other, by omega, Nat.le_refl _⟩
    · obtain ⟨kind, low, high⟩ := sizes y mem
      exact ⟨kind, low, by omega⟩

theorem Below.split (below : Below nodes size mark last n x) (head : ∃ rest, nodes last = last :: rest)
    (other : last ≠ mark) : ∃ before after, nodes x = before ++ last :: after ∧ last ∉ before ∧
      before.toFinset.card = n + (if n = 0 then 0 else 1) := by
  obtain ⟨passed, after, split, rfl, different, _, sizes⟩ := below.marked head
  refine ⟨_, after, split, ?_, ?_⟩
  · simp only [List.mem_flatMap, List.mem_cons, List.not_mem_nil, or_false, not_exists, not_and]
    rintro y mem (rfl | same)
    · exact absurd (sizes _ mem).2.1 (Nat.lt_irrefl _)
    · exact other same
  · rw [countMarked different (fun mem => (sizes _ mem).1 rfl)]
    simp only [List.length_eq_zero_iff]

end

end Distinct
