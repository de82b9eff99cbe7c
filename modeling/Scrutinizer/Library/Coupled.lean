import Mathlib.Data.List.Forall2
import Scrutinizer.Library.Engine

/-! Two runs side by side. A relation between the stores of two computations that both come to
an end, and what their results have in common. The first run may be part of a longer one whose
end is known: `Before` says that a store belongs to it. -/

namespace Exec
variable {σ α β γ δ : Type}

theorem someReturned {m : Exec σ α} {s : σ} (ends : (m s).1.isSome = true) : ∃ a t, m s = (some a, t) := by
  cases same : m s with
  | mk result t =>
    rw [same] at ends
    obtain ⟨a, rfl⟩ := Option.isSome_iff_exists.mp ends
    exact ⟨a, t, rfl⟩

theorem bindSome {m : Exec σ α} {k : α → Exec σ β} {s u : σ} {b : β} :
    (m >>= k) s = (some b, u) ↔ ∃ a t, m s = (some a, t) ∧ k a t = (some b, u) := by
  simp only [bind]
  cases h : m s with
  | mk r t => cases r <;> simp

theorem foldlMSplit {f : β → α → Exec σ β} {xs ys : List α} : ∀ {b out : β} {s u : σ},
    (xs ++ ys).foldlM f b s = (some out, u) →
      ∃ mid t, xs.foldlM f b s = (some mid, t) ∧ ys.foldlM f mid t = (some out, u) := by
  induction xs with
  | nil => exact fun {b _ s _} ran => ⟨b, s, rfl, ran⟩
  | cons x rest ih =>
    intro b out s u ran
    rw [List.cons_append, List.foldlM_cons] at ran
    obtain ⟨next, t, first, later⟩ := bindSome.mp ran
    obtain ⟨mid, t', ran, last⟩ := ih later
    exact ⟨mid, t', by rw [List.foldlM_cons]; exact bindSome.mpr ⟨next, t, first, ran⟩, last⟩

theorem liftSome {o : Option α} {s t : σ} {a : α} :
    (lift o : Exec σ α) s = (some a, t) ↔ o = some a ∧ s = t := by
  simp [lift]

theorem pureSome {s t : σ} {a b : α} : (pure a : Exec σ α) s = (some b, t) ↔ a = b ∧ s = t := by
  simp [pure]

theorem getSome {s t u : σ} : (get : Exec σ σ) s = (some t, u) ↔ s = t ∧ s = u := by
  simp [get]

theorem modifySome {f : σ → σ} {s t : σ} {a : Unit} :
    modify f s = (some a, t) ↔ f s = t := by
  simp [modify]

/- A store that belongs to the longer run comes from one that does. -/
def Backward (Before : σ → Prop) (m : Exec σ α) : Prop :=
  ∀ s a t, m s = (some a, t) → Before t → Before s

def Coupled (Before : σ → Prop) (R : σ → σ → Prop) (m : Exec σ α) (m' : Exec σ β)
    (Q : α → β → Prop) : Prop :=
  ∀ s s' a t b t', m s = (some a, t) → m' s' = (some b, t') → Before t → R s s' → R t t' ∧ Q a b

section
variable {Before : σ → Prop} {R : σ → σ → Prop}

theorem backwardLift (o : Option α) : Backward Before (lift o) := by
  intro s a t h before
  obtain ⟨_, rfl⟩ := liftSome.mp h
  exact before

theorem backwardBind {m : Exec σ α} {k : α → Exec σ β} (first : Backward Before m)
    (rest : ∀ a, Backward Before (k a)) : Backward Before (m >>= k) := by
  intro s b u h before
  obtain ⟨a, t, hm, hk⟩ := bindSome.mp h
  exact first s a t hm (rest a t b u hk before)

theorem backwardFoldlM {f : β → α → Exec σ β} (step : ∀ b x, Backward Before (f b x))
    (xs : List α) : ∀ b, Backward Before (xs.foldlM f b) := by
  induction xs with
  | nil => intro b s a t h before; obtain ⟨_, rfl⟩ := pureSome.mp h; exact before
  | cons x rest ih =>
    intro b
    rw [List.foldlM_cons]
    exact backwardBind (step b x) ih

theorem coupledPure {Q : α → β → Prop} {a : α} {b : β} (same : Q a b) :
    Coupled Before R (pure a) (pure b) Q := by
  intro s s' a' t b' t' h h' _ related
  obtain ⟨rfl, rfl⟩ := pureSome.mp h
  obtain ⟨rfl, rfl⟩ := pureSome.mp h'
  exact ⟨related, same⟩

theorem coupledLift {Q : α → β → Prop} {o : Option α} {o' : Option β}
    (same : ∀ a b, o = some a → o' = some b → Q a b) : Coupled Before R (lift o) (lift o') Q := by
  intro s s' a t b t' h h' _ related
  obtain ⟨ha, rfl⟩ := liftSome.mp h
  obtain ⟨hb, rfl⟩ := liftSome.mp h'
  exact ⟨related, same a b ha hb⟩

theorem coupledSame (o : Option α) : Coupled Before R (lift o) (lift o) Eq :=
  coupledLift (fun _ _ ha hb => Option.some.inj (ha.symm.trans hb))

theorem coupledBind {Q : α → β → Prop} {Q' : γ → δ → Prop} {m : Exec σ α} {m' : Exec σ β}
    {k : α → Exec σ γ} {k' : β → Exec σ δ} (first : Coupled Before R m m' Q)
    (backward : ∀ a, Backward Before (k a))
    (rest : ∀ a b, Q a b → Coupled Before R (k a) (k' b) Q') :
    Coupled Before R (m >>= k) (m' >>= k') Q' := by
  intro s s' c u d u' h h' before related
  obtain ⟨a, t, hm, hk⟩ := bindSome.mp h
  obtain ⟨b, t', hm', hk'⟩ := bindSome.mp h'
  have earlier := backward a t c u hk before
  obtain ⟨related', same⟩ := first s s' a t b t' hm hm' earlier related
  exact rest a b same t t' c u d u' hk hk' before related'

theorem coupledFoldlM {Alike : α → β → Prop} {f : γ → α → Exec σ γ} {f' : γ → β → Exec σ γ}
    (backward : ∀ c x, Backward Before (f c x))
    (step : ∀ c x y, Alike x y → Coupled Before R (f c x) (f' c y) Eq) {xs : List α} {ys : List β}
    (alike : List.Forall₂ Alike xs ys) :
    ∀ c, Coupled Before R (xs.foldlM f c) (ys.foldlM f' c) Eq := by
  induction alike with
  | nil => exact fun c => coupledPure rfl
  | cons same rest ih =>
    intro c
    rw [List.foldlM_cons, List.foldlM_cons]
    refine coupledBind (step c _ _ same) (backwardFoldlM backward _) ?_
    intro a b equal
    subst equal
    exact ih a

end
end Exec

namespace Analysis
open Exec
variable {σ D : Type} {A A' : Analysis σ D} {Before : σ → Prop} {R : σ → σ → Prop}

theorem joinIntoSame (join : A'.join = A.join) (state : D) (targets : List Nat)
    (acc : List D × List Nat) : A'.joinInto state targets acc = A.joinInto state targets acc := by
  have one : A'.joinOne state = A.joinOne state := by
    funext acc target
    simp only [joinOne, join]
  simp only [joinInto, one]

section
variable (backward : ∀ bb d, Backward Before (A.apply bb d))
include backward

theorem backwardIterate (fuel : Nat) : ∀ entry queue,
    Backward Before (A.iterateToFixpoint fuel entry queue) := by
  induction fuel with
  | zero => intro entry queue s a t h; cases h
  | succ fuel ih =>
    intro entry queue
    cases queue with
    | nil => exact backwardLift (some entry)
    | cons bb queue =>
      refine backwardBind (backwardLift _) (fun d => backwardBind (backward bb d) (fun d' => ?_))
      exact backwardBind (backwardLift _) (fun next => ih next.1 next.2)

theorem backwardReduceStep (entry : List D) (acc : Option D) (bb : Nat) :
    Backward Before (A.reduceStep entry acc bb) := by
  refine backwardBind (backwardLift _) (fun d => backwardBind (backward bb d) (fun out => ?_))
  cases acc with
  | none => exact backwardLift (some (some out))
  | some old =>
    exact backwardBind (backwardLift _) (fun joined => backwardLift (some (some joined.1)))

theorem backwardRun (fuel : Nat) (bottom : D) (blocks : Nat) (order : List Nat) :
    Backward Before (A.run fuel bottom blocks order) := by
  refine backwardBind (backwardIterate backward fuel _ _) (fun entry => ?_)
  exact backwardBind (backwardFoldlM (backwardReduceStep backward entry) _ _) (fun _ => backwardLift _)

variable (join : A'.join = A.join) (coupled : ∀ bb d, Coupled Before R (A.apply bb d) (A'.apply bb d) Eq)
include join coupled

/- The queues stay the same, since the states do. -/
theorem coupledIterate (edges : A'.edges = A.edges) (fuel : Nat) : ∀ fuel' entry queue,
    Coupled Before R (A.iterateToFixpoint fuel entry queue) (A'.iterateToFixpoint fuel' entry queue) Eq := by
  induction fuel with
  | zero => intro fuel' entry queue s s' a t b t' h; cases h
  | succ fuel ih =>
    intro fuel' entry queue
    cases fuel' with
    | zero => intro s s' a t b t' _ h'; cases h'
    | succ fuel' =>
      cases queue with
      | nil => exact coupledPure rfl
      | cons bb queue =>
        have tail : ∀ d, Backward Before (do
            let next ← lift (A.joinInto d (A.edges bb) (entry, queue))
            A.iterateToFixpoint fuel next.1 next.2) :=
          fun d => backwardBind (backwardLift _) (fun next => backwardIterate backward fuel _ _)
        refine coupledBind (coupledSame _)
          (fun d => backwardBind (backward bb d) tail) ?_
        intro d d' same
        subst same
        refine coupledBind (coupled bb d) tail ?_
        intro out out' same
        subst same
        rw [edges, joinIntoSame join]
        refine coupledBind (coupledSame _)
          (fun next => backwardIterate backward fuel _ _) ?_
        intro next next' same
        subst same
        exact ih fuel' next.1 next.2

theorem coupledReduceStep (entry : List D) (acc : Option D) (bb : Nat) :
    Coupled Before R (A.reduceStep entry acc bb) (A'.reduceStep entry acc bb) Eq := by
  cases acc with
  | none =>
    have tail : ∀ out : D, Backward Before (pure (some out)) := fun out => backwardLift (some (some out))
    refine coupledBind (coupledSame _) (fun d => backwardBind (backward bb d) tail) ?_
    intro d d' same
    subst same
    refine coupledBind (coupled bb d) tail ?_
    intro out out' same
    exact coupledPure (congrArg some same)
  | some old =>
    have tail : ∀ out : D, Backward Before (do
        let joined ← lift (A.join old out)
        pure (some joined.1)) :=
      fun out => backwardBind (backwardLift _) (fun joined => backwardLift (some (some joined.1)))
    refine coupledBind (coupledSame _) (fun d => backwardBind (backward bb d) tail) ?_
    intro d d' same
    subst same
    refine coupledBind (coupled bb d) tail ?_
    intro out out' same
    subst same
    rw [join]
    refine coupledBind (coupledSame _) (fun joined => backwardLift (some (some joined.1))) ?_
    intro joined joined' same
    subst same
    exact coupledPure rfl

theorem coupledRun (edges : A'.edges = A.edges) (fuel fuel' : Nat) (bottom : D) (blocks : Nat)
    (order : List Nat) :
    Coupled Before R (A.run fuel bottom blocks order) (A'.run fuel' bottom blocks order) Eq := by
  have tail : ∀ entry, Backward Before (do
      let result ← A.reduceBlockEnds entry (List.range blocks)
      lift result) := by
    intro entry
    exact backwardBind (backwardFoldlM (backwardReduceStep backward entry) _ _) (fun _ => backwardLift _)
  refine coupledBind (coupledIterate backward join coupled edges fuel fuel' _ _) tail ?_
  intro entry entry' same
  subst same
  have each : List.Forall₂ Eq (List.range blocks) (List.range blocks) := List.forall₂_same.mpr (fun _ _ => rfl)
  refine coupledBind (coupledFoldlM (backwardReduceStep backward entry)
    (fun acc bb bb' same => same ▸ coupledReduceStep backward join coupled entry acc bb) each none)
    (fun _ => backwardLift _) ?_
  intro result result' same
  subst same
  exact coupledSame _

end
end Analysis
