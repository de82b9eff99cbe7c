import Scrutinizer.Library.Chain
import Scrutinizer.Library.Coupled

/-! What a run of the engine says of a machine that goes from block to block. The effects may
depend on the store; joins that are upper bounds are enough for a relation between the machine and
the states to hold along every path, once the blocks and larger states keep it. -/
namespace Analysis

def EffectIn {σ D : Type} (A : Analysis σ D) (Before : σ → Prop) (bb : Nat) (state out : D) : Prop :=
  ∃ s t, A.apply bb state s = (some out, t) ∧ Before t

theorem EffectIn.effect {σ D : Type} {A : Analysis σ D} {Before : σ → Prop} {bb : Nat} {state out : D}
    (within : A.EffectIn Before bb state out) : A.Effect bb state out := by
  obtain ⟨s, t, applied, _⟩ := within
  exact ⟨s, t, applied⟩

theorem Effect.known {σ D : Type} {A : Analysis σ D} {bb : Nat} {state out : D} (effect : A.Effect bb state out) :
    A.EffectIn (fun _ => True) bb state out := by
  obtain ⟨s, t, applied⟩ := effect
  exact ⟨s, t, applied, trivial⟩

section
variable {σ D : Type} {A : Analysis σ D} {Before : σ → Prop} {entry : List D} {P : List Nat → D → Prop}

theorem reduceStepKeeps
    (first : ∀ bb state out, entry[bb]? = some state → A.EffectIn Before bb state out → P [bb] out)
    (next : ∀ seen bb d state out joined changed, P seen d → entry[bb]? = some state →
      A.EffectIn Before bb state out → A.join d out = some (joined, changed) → P (seen ++ [bb]) joined)
    {acc : Option D} {seen : List Nat} {bb : Nat} {s t : σ} {result : Option D} (before : acc = none → seen = [])
    (held : ∀ d, acc = some d → P seen d) (ran : A.reduceStep entry acc bb s = (some result, t)) (known : Before t) :
    ∃ d, result = some d ∧ P (seen ++ [bb]) d := by
  obtain ⟨state, s', listed, ran⟩ := Exec.bindSome.mp ran
  obtain ⟨found, rfl⟩ := Exec.liftSome.mp listed
  obtain ⟨out, s'', applied, last⟩ := Exec.bindSome.mp ran
  cases acc with
  | none =>
    obtain ⟨rfl, rfl⟩ := Exec.pureSome.mp last
    rw [before rfl]
    exact ⟨out, rfl, first bb state out found ⟨_, _, applied, known⟩⟩
  | some d =>
    obtain ⟨joined, s''', merged, last⟩ := Exec.bindSome.mp last
    obtain ⟨joins, rfl⟩ := Exec.liftSome.mp merged
    obtain ⟨rfl, rfl⟩ := Exec.pureSome.mp last
    exact ⟨joined.1, rfl,
      next seen bb d state out joined.1 joined.2 (held d rfl) found ⟨_, _, applied, known⟩ joins⟩

theorem reduceKeeps (backward : ∀ bb d, Exec.Backward Before (A.apply bb d))
    (first : ∀ bb state out, entry[bb]? = some state → A.EffectIn Before bb state out → P [bb] out)
    (next : ∀ seen bb d state out joined changed, P seen d → entry[bb]? = some state →
      A.EffectIn Before bb state out → A.join d out = some (joined, changed) → P (seen ++ [bb]) joined)
    {rest : List Nat} : ∀ {acc : Option D} {seen : List Nat} {s t : σ} {result : D},
      (acc = none → seen = []) → (∀ d, acc = some d → P seen d) →
      rest.foldlM (A.reduceStep entry) acc s = (some (some result), t) → Before t → P (seen ++ rest) result := by
  induction rest with
  | nil =>
    intro acc seen s t result _ held ran _
    rw [List.append_nil]
    exact held result (Option.some.inj (Prod.mk.inj ran).1)
  | cons bb rest ih =>
    intro acc seen s t result before held ran known
    rw [List.foldlM_cons] at ran
    obtain ⟨d, s', one, later⟩ := Exec.bindSome.mp ran
    have earlier := Exec.backwardFoldlM (backwardReduceStep backward entry) rest d s' (some result) t later known
    obtain ⟨d, rfl, further⟩ := reduceStepKeeps first next before held one earlier
    have whole := @ih (some d) (seen ++ [bb]) s' t result (fun none_ => by cases none_)
      (fun _ same => Option.some.inj same ▸ further) later known
    rwa [List.append_assoc] at whole

end

section
variable {σ D : Type} {A : Analysis σ D} {Before : σ → Prop} {Good : D → Prop} {Le : D → D → Prop}

structure Covers (A : Analysis σ D) (Before : σ → Prop) (Good : D → Prop) (Le : D → D → Prop) (entry : List D)
    (seen : List Nat) (d : D) : Prop where
  good : Good d
  above : ∀ bb ∈ seen, ∃ state out, entry[bb]? = some state ∧ A.EffectIn Before bb state out ∧ Le out d

theorem coversFirst (joining : A.Joining Good Le) {entry : List D} {bb : Nat} {state out : D}
    (held : entry[bb]? = some state) (good : Good state) (effect : A.EffectIn Before bb state out) :
    A.Covers Before Good Le entry [bb] out := by
  refine ⟨joining.effectGood _ _ _ good effect.effect, ?_⟩
  intro b mem
  cases List.mem_singleton.mp mem
  exact ⟨state, out, held, effect, joining.refl out⟩

theorem Covers.next (joining : A.Joining Good Le) {entry : List D} {seen : List Nat} {bb : Nat}
    {d state out joined : D} {changed : Bool} (covers : A.Covers Before Good Le entry seen d)
    (held : entry[bb]? = some state) (good : Good state) (effect : A.EffectIn Before bb state out)
    (ok : A.join d out = some (joined, changed)) : A.Covers Before Good Le entry (seen ++ [bb]) joined := by
  have goodOut := joining.effectGood _ _ _ good effect.effect
  have left := joining.left _ _ _ _ covers.good goodOut ok
  have right := joining.right _ _ _ _ covers.good goodOut ok
  refine ⟨joining.joinGood _ _ _ _ covers.good goodOut ok, ?_⟩
  intro b mem
  cases List.mem_append.mp mem with
  | inl before =>
    obtain ⟨state', out', held', effect', up⟩ := covers.above b before
    exact ⟨state', out', held', effect', joining.trans _ _ _ up left⟩
  | inr now =>
    cases List.mem_singleton.mp now
    exact ⟨state, out, held, effect, right⟩

theorem runParts {bottom : D} {blocks : Nat} {order : List Nat} {fuel : Nat} {s t : σ} {result : D}
    (ran : A.run fuel bottom blocks order s = (some result, t)) :
    ∃ entry s', A.Settles ⟨List.replicate blocks bottom, order, s⟩ ⟨entry, [], s'⟩ ∧
      (List.range blocks).foldlM (A.reduceStep entry) none s' = (some (some result), t) := by
  obtain ⟨entry, s', iterated, ran⟩ := Exec.bindSome.mp ran
  obtain ⟨reduced, s'', read, last⟩ := Exec.bindSome.mp ran
  obtain ⟨rfl, rfl⟩ := Exec.liftSome.mp last
  have settles := (@iterateSettles σ D A entry s' ⟨List.replicate blocks bottom, order, s⟩).mp ⟨fuel, iterated⟩
  exact ⟨entry, s', settles, read⟩

theorem runSettles (joining : A.Joining Good Le) (backward : ∀ bb d, Exec.Backward Before (A.apply bb d))
    {bottom : D} {blocks : Nat} {order : List Nat} (goodBottom : Good bottom) {fuel : Nat} {s t : σ} {result : D}
    (ran : A.run fuel bottom blocks order s = (some result, t)) (known : Before t) :
    ∃ entry, Above Good Le bottom entry ∧ entry.length = blocks ∧
      (∀ bb ∈ order, ∃ base, A.SettledAt Good Le entry bb base) ∧
      A.Covers Before Good Le entry (List.range blocks) result := by
  obtain ⟨entry, s', settles, read⟩ := runParts ran
  obtain ⟨under, settled⟩ := settlesUnderway joining goodBottom settles
  have goodEntry := under.above.good
  have covers := @reduceKeeps σ D A Before entry (A.Covers Before Good Le entry) backward
    (fun bb state out held effect => coversFirst joining held (goodEntry bb state held) effect)
    (fun seen bb d state out joined changed covers held effect ok =>
      covers.next joining held (goodEntry bb state held) effect ok)
    (List.range blocks) none [] s' t result (fun _ => rfl) (fun _ none_ => by cases none_) read known
  rw [List.nil_append] at covers
  exact ⟨entry, under.above, under.length, settled, covers⟩

end

inductive Path {M : Type} (edges : Nat → List Nat) (step : Nat → M → M → Prop) :
    Nat → M → Nat → M → Prop where
  | here {bb m} : Path edges step bb m bb m
  | further {bb m mid before after target} (path : Path edges step bb m mid before)
      (stepped : step mid before after) (leads : target ∈ edges mid) : Path edges step bb m target after

structure Describes {σ D M : Type} (A : Analysis σ D) (Good : D → Prop) (Le : D → D → Prop)
    (step : Nat → M → M → Prop) (Rel : M → D → Prop) : Prop where
  upward : ∀ m a b, Good a → Good b → Le a b → Rel m a → Rel m b
  effect : ∀ bb m m' a out, Rel m a → step bb m m' → A.Effect bb a out → Rel m' out

section
variable {σ D M : Type} {A : Analysis σ D} {Before : σ → Prop} {Good : D → Prop} {Le : D → D → Prop}
  {step : Nat → M → M → Prop} {Rel : M → D → Prop} {bottom : D} {order : List Nat} {entry : List D}

theorem entryDescribes (joining : A.Joining Good Le) (describes : A.Describes Good Le step Rel)
    (goodBottom : Good bottom) (above : Above Good Le bottom entry)
    (settled : ∀ bb ∈ order, ∃ base, A.SettledAt Good Le entry bb base)
    (inOrder : ∀ bb ∈ order, ∀ target ∈ A.edges bb, target ∈ order) {start bb : Nat} {m m' : M}
    (entered : start ∈ order) (described : Rel m bottom) (path : Path A.edges step start m bb m') :
    bb ∈ order ∧ ∃ state, entry[bb]? = some state ∧ Rel m' state := by
  induction path with
  | here =>
    obtain ⟨_, state, held, _⟩ := settled _ entered
    exact ⟨entered, state, held, describes.upward _ _ _ goodBottom (above.good _ _ held)
      (above.above _ _ held) described⟩
  | @further mid before after target _ stepped leads ih =>
    obtain ⟨listed, state, held, here⟩ := ih
    obtain ⟨base, state', held', goodBase, up, _, out, effect, bounds⟩ := settled mid listed
    cases Option.some.inj (held.symm.trans held')
    have atBase := describes.upward _ _ _ (above.good _ _ held) goodBase up here
    have out_ := describes.effect mid _ _ _ _ atBase stepped effect
    obtain ⟨next, hn, bound⟩ := bounds target leads
    have goodOut := joining.effectGood mid _ _ goodBase effect
    exact ⟨inOrder mid listed target leads, next, hn,
      describes.upward _ _ _ goodOut (above.good _ _ hn) bound out_⟩

theorem runTraces (joining : A.Joining Good Le) (describes : A.Describes Good Le step Rel)
    (backward : ∀ bb d, Exec.Backward Before (A.apply bb d)) (goodBottom : Good bottom)
    (inOrder : ∀ bb ∈ order, ∀ target ∈ A.edges bb, target ∈ order)
    {start bb blocks fuel : Nat} {m m' : M} {s t : σ} {result : D} (entered : start ∈ order)
    (described : Rel m bottom) (ran : A.run fuel bottom blocks order s = (some result, t)) (known : Before t)
    (path : Path A.edges step start m bb m') :
    ∃ state out, Rel m' state ∧ A.EffectIn Before bb state out ∧ Good out ∧ Good result ∧ Le out result := by
  obtain ⟨entry, above, length, settled, covers⟩ := runSettles joining backward goodBottom ran known
  obtain ⟨_, state, held, here⟩ :=
    entryDescribes joining describes goodBottom above settled inOrder entered described path
  have inside : bb ∈ List.range blocks :=
    List.mem_range.mpr (length ▸ (List.getElem?_eq_some_iff.mp held).1)
  obtain ⟨state', out, held', effect, up⟩ := covers.above bb inside
  cases Option.some.inj (held.symm.trans held')
  exact ⟨state, out, here, effect, joining.effectGood bb _ _ (above.good _ _ held) effect.effect, covers.good, up⟩

end
end Analysis
