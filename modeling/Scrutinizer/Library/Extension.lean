import Scrutinizer.Library.Coupled

/-! One computation that goes on where another one stops. Where the first has a result, the
second has the same; where it has none, the second goes on from the state it left. A computation
with more fuel extends the one with less. -/

namespace Exec
variable {σ α β : Type}

theorem stopsFirst {m : Exec σ α} {f : α → Exec σ β} {s t : σ} (stops : m s = (none, t)) :
    (m >>= f) s = (none, t) := by
  simp only [bind, stops]

theorem stopsThen {m : Exec σ α} {f : α → Exec σ β} {s t u : σ} {a : α} (ran : m s = (some a, t))
    (stops : f a t = (none, u)) : (m >>= f) s = (none, u) := by
  simp only [bind, ran, stops]

/- `Le` is how a state may change. -/
structure Extends (Le : σ → σ → Prop) (m m' : Exec σ α) : Prop where
  grows : ∀ s, Le s (m' s).2
  same : ∀ s a t, m s = (some a, t) → m' s = (some a, t)
  further : ∀ s t, m s = (none, t) → Le t (m' s).2

section
variable {Le : σ → σ → Prop} {m m' : Exec σ α}

theorem extendsFail (grows : ∀ s, Le s (m s).2) : Extends Le fail m where
  grows := grows
  same _ _ _ ran := by cases ran
  further s t stopped := by
    cases stopped
    exact grows s

variable (refl : ∀ s, Le s s)
include refl

theorem extendsRefl (grows : ∀ s, Le s (m s).2) : Extends Le m m where
  grows := grows
  same _ _ _ ran := ran
  further s t stopped := by
    rw [stopped]
    exact refl t

theorem extendsPure (a : α) : Extends Le (pure a) (pure a) := extendsRefl refl refl

theorem extendsGet : Extends Le (get : Exec σ σ) get := extendsRefl refl refl

theorem extendsLift (o : Option α) : Extends Le (lift o) (lift o) := extendsRefl refl refl

theorem extendsModify {f : σ → σ} (grows : ∀ s, Le s (f s)) : Extends Le (modify f) (modify f) :=
  extendsRefl refl grows

theorem Extends.final (extended : Extends Le m m') (s : σ) : Le (m s).2 (m' s).2 := by
  cases ran : m s with
  | mk result t =>
    cases result with
    | none => exact extended.further s t ran
    | some a =>
      rw [extended.same s a t ran]
      exact refl t

end

section
variable {Le : σ → σ → Prop} (trans : ∀ s t u, Le s t → Le t u → Le s u)
include trans

theorem growsBind {m : Exec σ α} {f : α → Exec σ β} (first : ∀ s, Le s (m s).2)
    (rest : ∀ a s, Le s (f a s).2) (s : σ) : Le s ((m >>= f) s).2 := by
  have before := first s
  cases ran : m s with
  | mk result t =>
    rw [ran] at before
    cases result with
    | none => simpa only [bind, ran] using before
    | some a =>
      have after := trans s t _ before (rest a t)
      simpa only [bind, ran] using after

theorem Extends.bind {m m' : Exec σ α} {f f' : α → Exec σ β} (first : Extends Le m m')
    (rest : ∀ a, Extends Le (f a) (f' a)) : Extends Le (m >>= f) (m' >>= f') where
  grows := growsBind trans first.grows (fun a => (rest a).grows)
  same s b u ran := by
    obtain ⟨a, t, ran, next⟩ := bindSome.mp ran
    exact bindSome.mpr ⟨a, t, first.same s a t ran, (rest a).same t b u next⟩
  further s u stopped := by
    cases ran : m s with
    | mk result t =>
      simp only [Bind.bind, ran] at stopped
      cases result with
      | some a =>
        have next := (rest a).further t u stopped
        simpa only [Bind.bind, first.same s a t ran] using next
      | none =>
        cases stopped
        have before := first.further s _ ran
        cases ran' : m' s with
        | mk result' t' =>
          rw [ran'] at before
          cases result' with
          | none => simpa only [Bind.bind, ran'] using before
          | some a =>
            have after := trans _ t' _ before ((rest a).grows t')
            simpa only [Bind.bind, ran'] using after

theorem extendsFoldlM (refl : ∀ s, Le s s) {f f' : β → α → Exec σ β}
    (step : ∀ b x, Extends Le (f b x) (f' b x)) (xs : List α) :
    ∀ b, Extends Le (xs.foldlM f b) (xs.foldlM f' b) := by
  induction xs with
  | nil => exact fun b => extendsPure refl b
  | cons x rest ih =>
    intro b
    rw [List.foldlM_cons, List.foldlM_cons]
    exact (step b x).bind trans ih

end
end Exec

namespace Analysis
open Exec
variable {σ D : Type} {A A' : Analysis σ D} {Le : σ → σ → Prop} (refl : ∀ s, Le s s)
  (trans : ∀ s t u, Le s t → Le t u → Le s u)
  (applied : ∀ bb d, Extends Le (A.apply bb d) (A'.apply bb d))
include refl trans applied

theorem growsIterate (fuel : Nat) : ∀ entry queue s,
    Le s (A'.iterateToFixpoint fuel entry queue s).2 := by
  induction fuel with
  | zero => exact fun _ _ s => refl s
  | succ fuel ih =>
    intro entry queue
    cases queue with
    | nil => exact refl
    | cons bb queue =>
      apply growsBind trans (fun s => refl s)
      intro state
      apply growsBind trans (applied bb state).grows
      intro out
      apply growsBind trans (fun s => refl s)
      exact fun next => ih next.1 next.2

variable (edges : A'.edges = A.edges) (join : A'.join = A.join)
include edges join

theorem extendsIterate (fuel : Nat) : ∀ fuel' entry queue, fuel ≤ fuel' →
    Extends Le (A.iterateToFixpoint fuel entry queue) (A'.iterateToFixpoint fuel' entry queue) := by
  induction fuel with
  | zero => exact fun fuel' entry queue _ => extendsFail (growsIterate refl trans applied fuel' entry queue)
  | succ fuel ih =>
    intro fuel' entry queue le
    cases fuel' with
    | zero => omega
    | succ fuel' =>
      cases queue with
      | nil => exact extendsPure refl entry
      | cons bb queue =>
        have joinOne : A'.joinOne = A.joinOne := by
          funext state acc target
          rw [joinOne, Analysis.joinOne, join]
        have joinInto : A'.joinInto = A.joinInto := by
          funext state targets acc
          rw [Analysis.joinInto, Analysis.joinInto, joinOne]
        rw [iterateToFixpoint, iterateToFixpoint, joinInto, edges]
        apply (extendsLift refl _).bind trans
        intro state
        apply (applied bb state).bind trans
        intro out
        apply (extendsLift refl _).bind trans
        exact fun next => ih fuel' next.1 next.2 (by omega)

theorem extendsRun {fuel fuel' : Nat} (le : fuel ≤ fuel') (bottom : D) (blocks : Nat) (order : List Nat) :
    Extends Le (A.run fuel bottom blocks order) (A'.run fuel' bottom blocks order) := by
  have reduce : ∀ entry acc bb, Extends Le (A.reduceStep entry acc bb) (A'.reduceStep entry acc bb) := by
    intro entry acc bb
    rw [reduceStep, reduceStep, join]
    apply (extendsLift refl _).bind trans
    intro state
    apply (applied bb state).bind trans
    intro out
    cases acc with
    | none => exact extendsPure refl _
    | some acc => exact (extendsLift refl _).bind trans (fun joined => extendsPure refl _)
  apply (extendsIterate refl trans applied edges join fuel fuel' _ order le).bind trans
  intro entry
  apply (extendsFoldlM trans refl (reduce entry) _ none).bind trans
  exact fun result => extendsLift refl result

end Analysis
