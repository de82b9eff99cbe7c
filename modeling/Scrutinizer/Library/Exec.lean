import Mathlib.Data.List.Basic

/-! Computations that change a state and may stop without a result. The state is kept when a
computation stops, so that what happened before the stop can still be read from it. -/

/- A computation over the state `σ`: the result, if there is one, and the state it leaves. -/
def Exec (σ α : Type) := σ → Option α × σ

namespace Exec
variable {σ α β : Type}

instance : Monad (Exec σ) where
  pure a := fun s => (some a, s)
  bind m f := fun s => match m s with
    | (some a, t) => f a t
    | (none, t) => (none, t)

def fail : Exec σ α := fun s => (none, s)

def get : Exec σ σ := fun s => (some s, s)

def modify (f : σ → σ) : Exec σ Unit := fun s => (some (), f s)

def lift (o : Option α) : Exec σ α := fun s => (o, s)

theorem toOptionSome {ε : Type} {e : Except ε α} {a : α} : e.toOption = some a ↔ e = .ok a := by
  cases e <;> simp [Except.toOption]

/- The weakest precondition: `Q` holds of a result and the state it leaves, `E` holds of
the state when there is no result. -/
def wp (m : Exec σ α) (Q : α → σ → Prop) (E : σ → Prop) (s : σ) : Prop :=
  match m s with
  | (some a, t) => Q a t
  | (none, t) => E t

section
variable {Q Q' : α → σ → Prop} {E E' : σ → Prop} {s : σ}

@[simp] theorem wpPure (a : α) : wp (pure a : Exec σ α) Q E s ↔ Q a s := Iff.rfl

@[simp] theorem wpFail : wp (fail : Exec σ α) Q E s ↔ E s := Iff.rfl

@[simp] theorem wpGet {Q : σ → σ → Prop} : wp (get : Exec σ σ) Q E s ↔ Q s s := Iff.rfl

@[simp] theorem wpModify {Q : Unit → σ → Prop} (f : σ → σ) :
    wp (modify f) Q E s ↔ Q () (f s) := Iff.rfl

@[simp] theorem wpLiftSome (a : α) : wp (lift (some a) : Exec σ α) Q E s ↔ Q a s := Iff.rfl

@[simp] theorem wpLiftNone : wp (lift none : Exec σ α) Q E s ↔ E s := Iff.rfl

theorem wpLift (o : Option α) :
    wp (lift o : Exec σ α) Q E s ↔ (∀ a, o = some a → Q a s) ∧ (o = none → E s) := by
  cases o <;> simp

@[simp] theorem wpBind (m : Exec σ β) (f : β → Exec σ α) :
    wp (m >>= f) Q E s ↔ wp m (fun b t => wp (f b) Q E t) E s := by
  unfold wp
  simp only [bind]
  cases h : m s with
  | mk r t => cases r <;> rfl

theorem wpMono {m : Exec σ α} (h : wp m Q E s) (hQ : ∀ a t, Q a t → Q' a t)
    (hE : ∀ t, E t → E' t) : wp m Q' E' s := by
  unfold wp at h ⊢
  cases hm : m s with
  | mk r t =>
    rw [hm] at h
    cases r with
    | none => exact hE t h
    | some a => exact hQ a t h

theorem wpAny (m : Exec σ α) (s : σ) : wp m (fun _ _ => True) (fun _ => True) s := by
  unfold wp
  split <;> trivial

theorem wpResult {m : Exec σ α} {a : α} {t : σ} (h : wp m Q E s) (hm : m s = (some a, t)) :
    Q a t := by
  simpa only [wp, hm] using h

theorem wpState {m : Exec σ α} (h : wp m (fun _ t => E t) E s) : E (m s).2 := by
  unfold wp at h
  cases hm : m s with
  | mk r t => rw [hm] at h; cases r <;> exact h

end

theorem wpFoldlM {f : β → α → Exec σ β} {E : σ → Prop} (Inv : List α → β → σ → Prop)
    (step : ∀ x rest b s, Inv (x :: rest) b s → wp (f b x) (fun b' t => Inv rest b' t) E s) :
    ∀ (xs : List α) (b : β) (s : σ), Inv xs b s → wp (xs.foldlM f b) (Inv []) E s := by
  intro xs
  induction xs with
  | nil => intro b s h; exact h
  | cons x rest ih =>
    intro b s h
    rw [List.foldlM_cons, wpBind]
    exact wpMono (step x rest b s h) (fun b' t ht => ih b' t ht) (fun _ h => h)

theorem wpFollows {μ : Type} {step : μ → α → Option μ} {f : β → α → Exec σ β}
    (Follows : List α → μ → β → Prop)
    (each : ∀ x rest m b s next, Follows (x :: rest) m b → step m x = some next →
      wp (f b x) (fun b' _ => Follows rest next b') (fun _ => True) s) :
    ∀ (xs : List α) {m final : μ} {b : β} (s : σ), Follows xs m b → xs.foldlM step m = some final →
      wp (xs.foldlM f b) (fun b' _ => Follows [] final b') (fun _ => True) s := by
  intro xs
  induction xs with
  | nil =>
    intro m final b s follows ran
    cases Option.some.inj ran
    exact follows
  | cons x rest ih =>
    intro m final b s follows ran
    obtain ⟨next, stepped, later⟩ := Option.bind_eq_some_iff.mp ran
    rw [List.foldlM_cons, wpBind]
    exact wpMono (each x rest m b s next follows stepped) (fun b' t follows' => ih t follows' later)
      (fun _ h => h)

end Exec
