import Scrutinizer.Library.Traces

/-! What the engine computes, said without its queue: the least table of states that the effects
of the blocks do not lead out of, and the least state above the ends of the blocks. -/
namespace Analysis

structure Solution {σ D : Type} (A : Analysis σ D) (Good : D → Prop) (Le : D → D → Prop) (bottom : D)
    (blocks : Nat) (order : List Nat) (table : Nat → D) (result : D) : Prop where
  inside : ∀ bb ∈ order, bb < blocks
  closed : A.ClosedTable Good Le bottom blocks order table
  least : ∀ other, A.ClosedTable Good Le bottom blocks order other → ∀ bb < blocks, Le (table bb) (other bb)
  good : Good result
  ends : ∀ bb < blocks, ∃ out, A.Effect bb (table bb) out ∧ Le out result
  lowest : ∀ d, Good d → (∀ bb < blocks, ∀ out, A.Effect bb (table bb) out → Le out d) → Le result d

section
variable {σ D : Type} {A : Analysis σ D} {Good : D → Prop} {Le : D → D → Prop} {rank : D → Nat}

structure Gathers (A : Analysis σ D) (Good : D → Prop) (Le : D → D → Prop) (entry : List D)
    (seen : List Nat) (d : D) : Prop where
  covers : A.Covers (fun _ => True) Good Le entry seen d
  lowest : ∀ e, Good e → (∀ bb ∈ seen, ∀ state out, entry[bb]? = some state →
    A.Effect bb state out → Le out e) → Le d e

theorem gathersFirst (ranked : A.Ranked Good Le rank) {entry : List D} {bb : Nat} {state out : D}
    (held : entry[bb]? = some state) (good : Good state) (effect : A.EffectIn (fun _ => True) bb state out) :
    A.Gathers Good Le entry [bb] out := by
  refine ⟨coversFirst ranked.joining held good effect, ?_⟩
  intro e _ bounds
  exact bounds bb List.mem_cons_self state out held effect.effect

theorem Gathers.next (ranked : A.Ranked Good Le rank) {entry : List D} {seen : List Nat} {bb : Nat}
    {d state out joined : D} {changed : Bool} (gathers : A.Gathers Good Le entry seen d)
    (held : entry[bb]? = some state) (good : Good state) (effect : A.EffectIn (fun _ => True) bb state out)
    (ok : A.join d out = some (joined, changed)) : A.Gathers Good Le entry (seen ++ [bb]) joined := by
  refine ⟨gathers.covers.next ranked.joining held good effect ok, ?_⟩
  intro e goodE bounds
  have before := gathers.lowest e goodE (fun b mem => bounds b (List.mem_append_left _ mem))
  have now := bounds bb (List.mem_append_right _ List.mem_cons_self) state out held effect.effect
  exact ranked.least _ _ _ _ _ gathers.covers.good (ranked.effectGood _ _ _ good effect.effect) goodE ok before now

theorem settlesWithin (ranked : A.Ranked Good Le rank) {bottom : D} {blocks : Nat} {order : List Nat}
    {store : σ} {q : Progress σ D} (goodBottom : Good bottom)
    (inOrder : ∀ bb ∈ order, ∀ target ∈ A.edges bb, target ∈ order)
    (settles : A.Settles ⟨List.replicate blocks bottom, order, store⟩ q) {table : Nat → D}
    (closed : A.ClosedTable Good Le bottom blocks order table) : Within Good Le table blocks q.entry := by
  let Kept (p : Progress σ D) : Prop := Within Good Le table blocks p.entry ∧ ∀ bb ∈ p.queue, bb ∈ order
  have step : ∀ {p q : Progress σ D}, Kept p → A.advance p = some q → Kept q := by
    intro p q kept moved
    obtain ⟨within, listed, _⟩ := withinAdvance ranked closed inOrder kept.1 kept.2 moved
    exact ⟨within, listed⟩
  obtain ⟨n, reached, _⟩ := settles
  exact (visitsKeep step ⟨withinStart goodBottom closed, fun _ mem => mem⟩ reached).1

theorem runSolves (ranked : A.Ranked Good Le rank) {bottom : D} {blocks : Nat} {order : List Nat}
    (goodBottom : Good bottom) (inOrder : ∀ bb ∈ order, ∀ target ∈ A.edges bb, target ∈ order)
    {fuel : Nat} {s t : σ} {result : D} (ran : A.run fuel bottom blocks order s = (some result, t)) :
    ∃ table, A.Solution Good Le bottom blocks order table result := by
  obtain ⟨entry, s', settles, read⟩ := runParts ran
  obtain ⟨under, settled⟩ := settlesUnderway ranked.joining goodBottom settles
  have goodEntry := under.above.good
  have gathers := @reduceKeeps σ D A (fun _ => True) entry (A.Gathers Good Le entry)
    (fun _ _ _ _ _ _ _ => trivial)
    (fun bb state out held effect => gathersFirst ranked held (goodEntry bb state held) effect)
    (fun seen bb d state out joined changed gathers held effect ok =>
      gathers.next ranked held (goodEntry bb state held) effect ok)
    (List.range blocks) none [] s' t result (fun _ => rfl) (fun _ none_ => by cases none_) read trivial
  rw [List.nil_append] at gathers
  -- the reading pass applies every block to its entry state
  have applied : ∀ bb < blocks, ∃ state out, entry[bb]? = some state ∧ A.Effect bb state out ∧ Le out result :=
    fun bb inside => by
      obtain ⟨state, out, held, effect, up⟩ := gathers.covers.above bb (List.mem_range.mpr inside)
      exact ⟨state, out, held, effect.effect, up⟩
  have entered : ∀ {bb : Nat} {state}, entry[bb]? = some state → (entry[bb]?).getD bottom = state :=
    fun held => by rw [held, Option.getD_some]
  have inside : ∀ {bb : Nat} {state}, entry[bb]? = some state → bb < blocks :=
    fun held => under.length ▸ (List.getElem?_eq_some_iff.mp held).1
  have closed : A.ClosedTable Good Le bottom blocks order (fun bb => (entry[bb]?).getD bottom) := by
    constructor
    · intro bb small
      obtain ⟨state, _, held, _⟩ := applied bb small
      exact entered held ▸ under.above.good bb state held
    · intro bb small
      obtain ⟨state, _, held, _⟩ := applied bb small
      exact entered held ▸ under.above.above bb state held
    · intro bb listed
      obtain ⟨base, state, held, good, up, _, out, effect, bounds⟩ := settled bb listed
      obtain ⟨state', out', held', effect', _⟩ := applied bb (inside held)
      cases Option.some.inj (held.symm.trans held')
      have lower := ranked.mono bb _ _ _ _ (under.above.good bb state held) good up effect' effect
      refine ⟨out', (entered held).symm ▸ effect', ?_⟩
      intro target mem
      obtain ⟨next, hn, bound⟩ := bounds target mem
      exact (entered hn).symm ▸ ranked.trans _ _ _ lower bound
  refine ⟨fun bb => (entry[bb]?).getD bottom, ?_, closed, ?_, gathers.covers.good, ?_, ?_⟩
  · intro bb listed
    obtain ⟨_, _, held, _⟩ := settled bb listed
    exact inside held
  · intro other closed' bb small
    obtain ⟨state, _, held, _⟩ := applied bb small
    exact entered held ▸ (settlesWithin ranked goodBottom inOrder settles closed').below bb state held
  · intro bb small
    obtain ⟨state, out, held, effect, up⟩ := applied bb small
    exact ⟨out, (entered held).symm ▸ effect, up⟩
  · intro d good bounds
    refine gathers.lowest d good ?_
    intro bb mem state out held effect
    exact bounds bb (List.mem_range.mp mem) out ((entered held).symm ▸ effect)

theorem ClosedTable.sameOrder {bottom : D} {blocks : Nat} {order order' : List Nat} {table : Nat → D}
    (closed : A.ClosedTable Good Le bottom blocks order table) (sub : order' ⊆ order) :
    A.ClosedTable Good Le bottom blocks order' table :=
  ⟨closed.good, closed.above, fun bb listed => closed.closed bb (sub listed)⟩

theorem Solution.below (ranked : A.Ranked Good Le rank) {bottom : D} {blocks : Nat}
    {order order' : List Nat} (sub : order ⊆ order') {table table' : Nat → D} {result result' : D}
    (solution : A.Solution Good Le bottom blocks order table result)
    (solution' : A.Solution Good Le bottom blocks order' table' result') : Le result result' := by
  refine solution.lowest result' solution'.good ?_
  intro bb small out effect
  obtain ⟨out', effect', up⟩ := solution'.ends bb small
  have tables := solution.least table' (solution'.closed.sameOrder sub) bb small
  exact ranked.trans _ _ _ (ranked.mono bb _ _ _ _ (solution.closed.good bb small)
    (solution'.closed.good bb small) tables effect effect') up

end

end Analysis
