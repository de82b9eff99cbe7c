import Mathlib.Data.Finset.Dedup
import Mathlib.Data.Finset.Lattice.Basic

/-! The order in which a hash set is iterated: fixed for a set, otherwise unspecified. -/

structure HashOrder (α : Type) where
  iter : Finset α → List α
  mem : ∀ s x, x ∈ iter s ↔ x ∈ s
  nodup : ∀ s, (iter s).Nodup

namespace HashOrder
variable {α : Type} [DecidableEq α]

/- An order that lists the members of `listing` as they stand there. A set with other
members is listed in some order. -/
noncomputable def listed (listing : List α) (distinct : listing.Nodup) : HashOrder α where
  iter s := if s ⊆ listing.toFinset then listing.filter (fun x => decide (x ∈ s)) else s.toList
  mem s x := by
    split
    · rename_i inside
      simp only [List.mem_filter, decide_eq_true_eq, and_iff_right_iff_imp]
      exact fun hx => List.mem_toFinset.mp (inside hx)
    · exact Finset.mem_toList
  nodup s := by
    split
    · exact distinct.filter _
    · exact s.nodup_toList

end HashOrder
