import Mathlib.Data.List.Forall2

/-! What a list of results that may fail consists of: one result for each element. -/
namespace MapM
variable {α β ε : Type}

theorem someIff {f : α → Option β} {xs : List α} : ∀ {ys : List β},
    xs.mapM f = some ys ↔ List.Forall₂ (fun x y => f x = some y) xs ys := by
  induction xs with
  | nil =>
    intro ys
    simp [eq_comm]
  | cons x rest ih =>
    intro ys
    simp only [List.mapM_cons, bind, Option.bind_eq_some_iff, pure, List.forall₂_cons_left_iff]
    constructor
    · intro h
      obtain ⟨y, hy, tail, ht, last⟩ := h
      exact ⟨y, tail, hy, ih.mp ht, (Option.some.inj last).symm⟩
    · intro h
      obtain ⟨y, tail, hy, ht, last⟩ := h
      exact ⟨y, hy, tail, ih.mpr ht, congrArg some last.symm⟩

theorem someTotal {f : α → Option β} {xs : List α} (each : ∀ x ∈ xs, ∃ y, f x = some y) :
    ∃ ys, xs.mapM f = some ys := by
  induction xs with
  | nil => exact ⟨[], rfl⟩
  | cons x rest ih =>
    obtain ⟨y, hy⟩ := each x List.mem_cons_self
    obtain ⟨ys, hys⟩ := ih (fun x' mem => each x' (List.mem_cons_of_mem _ mem))
    exact ⟨y :: ys, by simp [List.mapM_cons, hy, hys]⟩

theorem okIff {f : α → Except ε β} {xs : List α} : ∀ {ys : List β},
    xs.mapM f = .ok ys ↔ List.Forall₂ (fun x y => f x = .ok y) xs ys := by
  induction xs with
  | nil =>
    intro ys
    simp [pure, Except.pure, eq_comm]
  | cons x rest ih =>
    intro ys
    rw [List.mapM_cons, List.forall₂_cons_left_iff]
    cases hx : f x with
    | error e => simp [bind, Except.bind]
    | ok y =>
      cases ht : rest.mapM f with
      | error e =>
        have none : ∀ tail, ¬ List.Forall₂ (fun x y => f x = .ok y) rest tail := by
          intro tail all
          have done := ih.mpr all
          rw [ht] at done
          contradiction
        simp [bind, Except.bind, none]
      | ok tail =>
        have all := ih.mp ht
        simp only [bind, Except.bind, pure, Except.pure, Except.ok.injEq]
        constructor
        · intro last
          exact ⟨y, tail, rfl, all, last.symm⟩
        · intro h
          obtain ⟨y', tail', hy, all', last⟩ := h
          have same := ih.mpr all'
          rw [ht] at same
          cases Except.ok.inj same
          rw [last, hy]

theorem memRight {r : α → β → Prop} {xs : List α} {ys : List β} (h : List.Forall₂ r xs ys) :
    ∀ y ∈ ys, ∃ x ∈ xs, r x y := by
  induction h with
  | nil => intro y mem; cases mem
  | cons first rest ih =>
    intro y mem
    cases List.mem_cons.mp mem with
    | inl head => exact ⟨_, List.mem_cons_self, head ▸ first⟩
    | inr tail =>
      obtain ⟨x, hx, related⟩ := ih y tail
      exact ⟨x, List.mem_cons_of_mem _ hx, related⟩

theorem memLeft {r : α → β → Prop} {xs : List α} {ys : List β} (h : List.Forall₂ r xs ys) :
    ∀ x ∈ xs, ∃ y ∈ ys, r x y := memRight h.flip

theorem atLeft {r : α → β → Prop} {xs : List α} {ys : List β} (h : List.Forall₂ r xs ys) :
    ∀ {idx : Nat} {x : α}, xs[idx]? = some x → ∃ y, ys[idx]? = some y ∧ r x y := by
  induction h with
  | nil => intro idx x at0; simp at at0
  | cons first rest ih =>
    intro idx x atIdx
    cases idx with
    | zero => cases Option.some.inj atIdx; exact ⟨_, rfl, first⟩
    | succ idx => exact ih atIdx

theorem setRight {r : α → β → Prop} {xs : List α} {ys : List β} (h : List.Forall₂ r xs ys) :
    ∀ {idx : Nat} {x : α} {y : β}, xs[idx]? = some x → r x y → List.Forall₂ r xs (ys.set idx y) := by
  induction h with
  | nil => intro idx x y at0 _; simp at at0
  | cons first rest ih =>
    intro idx x y atIdx related
    cases idx with
    | zero => cases Option.some.inj atIdx; exact .cons related rest
    | succ idx => exact .cons first (ih atIdx related)

end MapM
