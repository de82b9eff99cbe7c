import Mathlib.Algebra.Order.BigOperators.Group.Finset
import Scrutinizer.Library.Engine

/-! The chain of states that the loop of the dataflow engine goes through, visit by visit. Over
an order in which joins are least upper bounds and effects are monotone, the chain ends when
there is a table of states that the effects do not lead out of; a chain that ends without a
visit that fails ends in such a table. -/
namespace Analysis
variable {σ D : Type}

structure Progress (σ D : Type) where
  entry : List D
  queue : List Nat
  store : σ

def advance (A : Analysis σ D) (p : Progress σ D) : Option (Progress σ D) :=
  match p.queue with
  | [] => none
  | bb :: queue => do
      let state ← p.entry[bb]?
      let out ← (A.apply bb state p.store).1
      let next ← A.joinInto out (A.edges bb) (p.entry, queue)
      some ⟨next.1, next.2, (A.apply bb state p.store).2⟩

def visits (A : Analysis σ D) : Nat → Progress σ D → Option (Progress σ D)
  | 0, p => some p
  | n + 1, p => (A.advance p).bind (visits A n)

section
variable (A : Analysis σ D) (p : Progress σ D)

def Ends : Prop := ∃ n, A.visits n p = none

def Fails : Prop := ∃ n q, A.visits n p = some q ∧ q.queue ≠ [] ∧ A.advance q = none

def Settles (q : Progress σ D) : Prop := ∃ n, A.visits n p = some q ∧ q.queue = []

def Effect (bb : Nat) (state out : D) : Prop := ∃ s t, A.apply bb state s = (some out, t)

end

section
variable {A : Analysis σ D} {p q : Progress σ D}

theorem advanceCases (h : A.advance p = some q) : ∃ bb queue state out next,
    p.queue = bb :: queue ∧ p.entry[bb]? = some state ∧
      A.apply bb state p.store = (some out, q.store) ∧
      A.joinInto out (A.edges bb) (p.entry, queue) = some next ∧
      q.entry = next.1 ∧ q.queue = next.2 := by
  unfold advance at h
  split at h
  · contradiction
  · rename_i bb queue pending
    simp only [bind, Option.bind_eq_some_iff] at h
    obtain ⟨state, held, out, applied, next, joined, last⟩ := h
    cases Option.some.inj last
    exact ⟨bb, queue, state, out, next, pending, held, Prod.ext applied rfl, joined, rfl, rfl⟩

theorem visitsAdd (n m : Nat) : ∀ p : Progress σ D,
    A.visits (n + m) p = (A.visits n p).bind (A.visits m) := by
  induction n with
  | zero =>
    intro p
    rw [Nat.zero_add]
    rfl
  | succ n ih =>
    intro p
    rw [Nat.succ_add, visits, visits, Option.bind_assoc]
    congr 1
    funext next
    exact ih next

theorem visitsLast {n m : Nat} (last : A.visits n p = some q) (none_ : A.advance q = none)
    (later : n < m) : A.visits m p = none := by
  obtain ⟨k, rfl⟩ := Nat.exists_eq_add_of_lt later
  rw [Nat.add_assoc, visitsAdd, last, Option.bind_some, visits, none_, Option.bind_none]

theorem visitsKeep {Kept : Progress σ D → Prop}
    (step : ∀ {p q}, Kept p → A.advance p = some q → Kept q) {n : Nat} :
    ∀ {p : Progress σ D}, Kept p → A.visits n p = some q → Kept q := by
  induction n with
  | zero =>
    intro p kept reached
    exact Option.some.inj reached ▸ kept
  | succ n ih =>
    intro p kept reached
    obtain ⟨next, moved, further⟩ := Option.bind_eq_some_iff.mp reached
    exact ih (step kept moved) further

theorem settlesNotFails (settles : A.Settles p q) : ¬ A.Fails p := by
  intro fails
  obtain ⟨n, here, empty⟩ := settles
  obtain ⟨m, q', there, pending, stuck⟩ := fails
  have none_ : A.advance q = none := by rw [advance, empty]
  rcases Nat.lt_trichotomy n m with before | rfl | behind
  · rw [visitsLast here none_ before] at there
    contradiction
  · cases Option.some.inj (here.symm.trans there)
    exact pending empty
  · rw [visitsLast there stuck behind] at here
    contradiction

theorem endsCases : A.Ends p ↔ A.Fails p ∨ ∃ q, A.Settles p q := by
  constructor
  · intro ends
    obtain ⟨n, none_⟩ := ends
    induction n with
    | zero => cases none_
    | succ n ih =>
      cases reached : A.visits n p with
      | none => exact ih reached
      | some q =>
        rw [visitsAdd, reached, Option.bind_some, visits] at none_
        have stuck : A.advance q = none := by
          cases moved : A.advance q with
          | none => rfl
          | some next =>
            rw [moved] at none_
            cases none_
        by_cases empty : q.queue = []
        · exact .inr ⟨q, n, reached, empty⟩
        · exact .inl ⟨n, q, reached, empty, stuck⟩
  · intro either
    cases either with
    | inl fails =>
      obtain ⟨n, q, reached, _, stuck⟩ := fails
      exact ⟨n + 1, visitsLast reached stuck (Nat.lt_succ_self n)⟩
    | inr settled =>
      obtain ⟨q, n, reached, empty⟩ := settled
      exact ⟨n + 1, visitsLast reached (by rw [advance, empty]) (Nat.lt_succ_self n)⟩

def Forward (A : Analysis σ D) : List Nat → Prop
  | [] => True
  | bb :: rest => (∀ target ∈ A.edges bb, target ∈ rest) ∧ Forward A rest

theorem forwardEnds {queue : List Nat} (forward : A.Forward queue) : ∀ entry store,
    A.visits (queue.length + 1) ⟨entry, queue, store⟩ = none := by
  induction queue with
  | nil => exact fun _ _ => rfl
  | cons bb rest ih =>
    intro entry store
    rw [List.length_cons, visits]
    cases moved : A.advance ⟨entry, bb :: rest, store⟩ with
    | none => rfl
    | some next =>
      obtain ⟨bb', queue', state, out, after, pending, _, _, joined, _, queued⟩ := advanceCases moved
      cases pending
      have spec := joinIntoSpec (G := fun _ => True) (fun _ _ _ _ _ _ _ => trivial) trivial joined
        (fun _ _ => trivial)
      obtain ⟨_, _, added, grown, fresh⟩ := spec
      have nothing : added = [] := by
        apply List.eq_nil_iff_forall_not_mem.mpr
        intro target mem
        exact (fresh target mem).2 (forward.1 target (fresh target mem).1)
      have same : next.queue = rest := by rw [queued, grown, nothing, List.append_nil]
      obtain ⟨entry', queue, store'⟩ := next
      cases same
      exact ih forward.2 entry' store'

theorem iterateSettles {entry : List D} {t : σ} : ∀ {p : Progress σ D},
    (∃ fuel, A.iterateToFixpoint fuel p.entry p.queue p.store = (some entry, t)) ↔
      A.Settles p ⟨entry, [], t⟩ := by
  intro p
  constructor
  · intro returned
    obtain ⟨fuel, ran⟩ := returned
    induction fuel generalizing p with
    | zero => cases ran
    | succ fuel ih =>
      obtain ⟨start, queue, store⟩ := p
      cases queue with
      | nil =>
        simp only [iterateToFixpoint, pure] at ran
        obtain ⟨same, rfl⟩ := Prod.mk.inj ran
        cases Option.some.inj same
        exact ⟨0, rfl, rfl⟩
      | cons bb queue =>
        simp only [iterateToFixpoint, bind, Exec.lift] at ran
        cases held : start[bb]? with
        | none => simp [held] at ran
        | some state =>
          cases applied : A.apply bb state store with
          | mk out next =>
            cases out with
            | none => simp [held, applied] at ran
            | some out =>
              cases joined : A.joinInto out (A.edges bb) (start, queue) with
              | none => simp [held, applied, joined] at ran
              | some after =>
                simp only [held, applied, joined] at ran
                obtain ⟨n, reached, empty⟩ := @ih ⟨after.1, after.2, next⟩ ran
                refine ⟨n + 1, ?_, empty⟩
                have moved : A.advance ⟨start, bb :: queue, store⟩ = some ⟨after.1, after.2, next⟩ := by
                  simp [advance, held, applied, joined]
                rw [visits, moved, Option.bind_some, reached]
  · intro settles
    obtain ⟨n, reached, _⟩ := settles
    induction n generalizing p with
    | zero =>
      cases Option.some.inj reached
      exact ⟨1, rfl⟩
    | succ n ih =>
      obtain ⟨next, moved, further⟩ := Option.bind_eq_some_iff.mp reached
      obtain ⟨fuel, ran⟩ := ih further
      obtain ⟨bb, queue, state, out, after, pending, held, applied, joined, entries, rest⟩ :=
        advanceCases moved
      refine ⟨fuel + 1, ?_⟩
      rw [pending]
      simp only [iterateToFixpoint, bind, Exec.lift, held, applied, joined]
      rw [← entries, ← rest]
      exact ran

end

/- An order of the good states: joins are least upper bounds, effects are monotone, and a join
that reports a change has a larger rank. -/
structure Ranked (A : Analysis σ D) (Good : D → Prop) (Le : D → D → Prop) (rank : D → Nat) : Prop where
  refl : ∀ a, Le a a
  trans : ∀ a b c, Le a b → Le b c → Le a c
  rankMono : ∀ a b, Le a b → rank a ≤ rank b
  joinGood : ∀ a b c ch, Good a → Good b → A.join a b = some (c, ch) → Good c
  left : ∀ a b c ch, Good a → Good b → A.join a b = some (c, ch) → Le a c
  right : ∀ a b c ch, Good a → Good b → A.join a b = some (c, ch) → Le b c
  least : ∀ a b c ch d, Good a → Good b → Good d → A.join a b = some (c, ch) →
    Le a d → Le b d → Le c d
  unchanged : ∀ a b c, Good a → Good b → A.join a b = some (c, false) → Le c a
  changed : ∀ a b c, Good a → Good b → A.join a b = some (c, true) → rank a < rank c
  effectGood : ∀ bb a out, Good a → A.Effect bb a out → Good out
  mono : ∀ bb a b out out', Good a → Good b → Le a b → A.Effect bb a out → A.Effect bb b out' →
    Le out out'

/- What is left where the effects may depend on the store: joins are upper bounds that say whether
they changed the state they go into. -/
structure Joining (A : Analysis σ D) (Good : D → Prop) (Le : D → D → Prop) : Prop where
  refl : ∀ a, Le a a
  trans : ∀ a b c, Le a b → Le b c → Le a c
  joinGood : ∀ a b c ch, Good a → Good b → A.join a b = some (c, ch) → Good c
  left : ∀ a b c ch, Good a → Good b → A.join a b = some (c, ch) → Le a c
  right : ∀ a b c ch, Good a → Good b → A.join a b = some (c, ch) → Le b c
  unchanged : ∀ a b c, Good a → Good b → A.join a b = some (c, false) → Le c a
  effectGood : ∀ bb a out, Good a → A.Effect bb a out → Good out

theorem Ranked.joining {A : Analysis σ D} {Good : D → Prop} {Le : D → D → Prop} {rank : D → Nat}
    (ranked : A.Ranked Good Le rank) : A.Joining Good Le :=
  ⟨ranked.refl, ranked.trans, ranked.joinGood, ranked.left, ranked.right, ranked.unchanged, ranked.effectGood⟩

structure ClosedTable (A : Analysis σ D) (Good : D → Prop) (Le : D → D → Prop) (bottom : D)
    (blocks : Nat) (order : List Nat) (table : Nat → D) : Prop where
  good : ∀ bb < blocks, Good (table bb)
  above : ∀ bb < blocks, Le bottom (table bb)
  closed : ∀ bb ∈ order, ∃ out, A.Effect bb (table bb) out ∧ ∀ target ∈ A.edges bb, Le out (table target)

section
variable {A : Analysis σ D} {Good : D → Prop} {Le : D → D → Prop} {rank : D → Nat}

/- What the entry states can still grow by. -/
def slack (rank : D → Nat) (table : Nat → D) (blocks : Nat) (entry : List D) : Nat :=
  ∑ bb ∈ Finset.range blocks, (rank (table bb) - ((entry[bb]?).map rank).getD 0)

structure Within (Good : D → Prop) (Le : D → D → Prop) (table : Nat → D) (blocks : Nat)
    (entry : List D) : Prop where
  length : entry.length = blocks
  good : ∀ (bb : Nat) state, entry[bb]? = some state → Good state
  below : ∀ (bb : Nat) state, entry[bb]? = some state → Le state (table bb)

theorem slackSet {table : Nat → D} {blocks target : Nat} {entry : List D} {old joined : D}
    (length : entry.length = blocks) (held : entry[target]? = some old) (grown : rank old ≤ rank joined)
    (room : rank joined ≤ rank (table target)) :
    slack rank table blocks (entry.set target joined) + (rank joined - rank old) ≤
      slack rank table blocks entry := by
  have inside : target < entry.length := (List.getElem?_eq_some_iff.mp held).1
  have mem : target ∈ Finset.range blocks := Finset.mem_range.mpr (length ▸ inside)
  have others : ∑ bb ∈ (Finset.range blocks).erase target,
        (rank (table bb) - (((entry.set target joined)[bb]?).map rank).getD 0) =
      ∑ bb ∈ (Finset.range blocks).erase target,
        (rank (table bb) - ((entry[bb]?).map rank).getD 0) := by
    apply Finset.sum_congr rfl
    intro bb other
    rw [List.getElem?_set_ne (Finset.ne_of_mem_erase other).symm]
  rw [slack, slack, ← Finset.add_sum_erase _ _ mem, ← Finset.add_sum_erase _ _ mem, others, held,
    List.getElem?_set_self inside]
  simp only [Option.map_some, Option.getD_some]
  omega

theorem allSet {P : Nat → D → Prop} {entry : List D} {target : Nat} {grown : D}
    (all : ∀ (bb : Nat) state, entry[bb]? = some state → P bb state) (here : P target grown) :
    ∀ (bb : Nat) state, (entry.set target grown)[bb]? = some state → P bb state := by
  intro bb state held
  by_cases same : bb = target
  · subst same
    have inside : bb < entry.length := by
      simpa using (List.getElem?_eq_some_iff.mp held).1
    rw [List.getElem?_set_self inside] at held
    exact Option.some.inj held ▸ here
  · rw [List.getElem?_set_ne (Ne.symm same)] at held
    exact all bb state held

def queued (changed : Bool) (queue : List Nat) (target : Nat) : List Nat :=
  if changed && !queue.contains target then queue ++ [target] else queue

theorem queuedKeeps (changed : Bool) (queue : List Nat) (target : Nat) :
    queue ⊆ queued changed queue target := by
  intro bb mem
  unfold queued
  split
  · exact List.mem_append_left _ mem
  · exact mem

theorem memQueued {changed : Bool} {queue : List Nat} {target bb : Nat}
    (mem : bb ∈ queued changed queue target) : bb ∈ queue ∨ bb = target := by
  unfold queued at mem
  split at mem
  · simpa using mem
  · exact .inl mem

theorem targetQueued (queue : List Nat) (target : Nat) : target ∈ queued true queue target := by
  unfold queued
  by_cases known : target ∈ queue <;> simp [known]

theorem queuedLength (changed : Bool) (queue : List Nat) (target : Nat) :
    (queued changed queue target).length ≤ queue.length + changed.toNat := by
  unfold queued
  cases changed with
  | false => simp
  | true =>
    split
    · simp
    · exact Nat.le_add_right _ _

theorem joinIntoWithin (ranked : A.Ranked Good Le rank) {table : Nat → D} {blocks : Nat} {out : D}
    (goodTable : ∀ bb < blocks, Good (table bb)) (good : Good out) {targets : List Nat} :
    ∀ {entry : List D} {queue : List Nat} {next : List D × List Nat},
      Within Good Le table blocks entry → (∀ target ∈ targets, Le out (table target)) →
      A.joinInto out targets (entry, queue) = some next →
        Within Good Le table blocks next.1 ∧
        slack rank table blocks next.1 + next.2.length ≤ slack rank table blocks entry + queue.length ∧
        ∀ bb ∈ next.2, bb ∈ queue ∨ bb ∈ targets := by
  induction targets with
  | nil =>
    intro entry queue next within _ joined
    cases Option.some.inj joined
    exact ⟨within, le_rfl, fun _ mem => .inl mem⟩
  | cons target rest ih =>
    intro entry queue next within below joined
    simp only [joinInto, List.foldlM_cons, bind, Option.bind_eq_some_iff] at joined
    obtain ⟨⟨entry', queue'⟩, first, later⟩ := joined
    obtain ⟨old, grown, changed, held, ok, rfl, rfl⟩ := joinOneSpec first
    have inside : target < blocks := within.length ▸ (List.getElem?_eq_some_iff.mp held).1
    have goodOld := within.good target old held
    have goodGrown := ranked.joinGood _ _ _ _ goodOld good ok
    have belowGrown : Le grown (table target) := ranked.least _ _ _ _ _ goodOld good
      (goodTable target inside) ok (within.below target old held) (below target List.mem_cons_self)
    have within' : Within Good Le table blocks (entry.set target grown) :=
      ⟨List.length_set.trans within.length, allSet within.good goodGrown, allSet within.below belowGrown⟩
    obtain ⟨finally_, room, listed⟩ := ih within'
      (fun t mem => below t (List.mem_cons_of_mem target mem)) later
    have grows := ranked.rankMono _ _ (ranked.left _ _ _ _ goodOld good ok)
    have spent := slackSet within.length held grows (ranked.rankMono _ _ belowGrown)
    have longer := queuedLength changed queue target
    have strictly : changed.toNat ≤ rank grown - rank old := by
      cases changed with
      | false => exact Nat.zero_le _
      | true =>
        have more := ranked.changed _ _ _ goodOld good ok
        rw [Bool.toNat_true]
        omega
    have fits : slack rank table blocks (entry.set target grown) + (queued changed queue target).length ≤
        slack rank table blocks entry + queue.length := by omega
    refine ⟨finally_, le_trans room fits, ?_⟩
    intro bb mem
    cases listed bb mem with
    | inr further => exact .inr (List.mem_cons_of_mem target further)
    | inl before =>
      cases memQueued before with
      | inl earlier => exact .inl earlier
      | inr same => exact .inr (List.mem_cons.mpr (.inl same))

theorem withinAdvance (ranked : A.Ranked Good Le rank) {bottom : D} {blocks : Nat} {order : List Nat}
    {table : Nat → D} (closed : A.ClosedTable Good Le bottom blocks order table)
    (inOrder : ∀ bb ∈ order, ∀ target ∈ A.edges bb, target ∈ order) {p q : Progress σ D}
    (within : Within Good Le table blocks p.entry) (listed : ∀ bb ∈ p.queue, bb ∈ order)
    (moved : A.advance p = some q) :
    Within Good Le table blocks q.entry ∧ (∀ bb ∈ q.queue, bb ∈ order) ∧
      slack rank table blocks q.entry + q.queue.length < slack rank table blocks p.entry + p.queue.length := by
  obtain ⟨bb, queue, state, out, next, pending, held, applied, joined, entries, rest⟩ :=
    advanceCases moved
  have effect : A.Effect bb state out := ⟨_, _, applied⟩
  have goodState := within.good bb state held
  have inside : bb < blocks := within.length ▸ (List.getElem?_eq_some_iff.mp held).1
  obtain ⟨most, final, bounds⟩ := closed.closed bb (listed bb (by simp [pending]))
  have below := ranked.mono bb _ _ _ _ goodState (closed.good bb inside)
    (within.below bb state held) effect final
  obtain ⟨within', room, queued⟩ := joinIntoWithin ranked closed.good
    (ranked.effectGood bb _ _ goodState effect) within
    (fun target mem => ranked.trans _ _ _ below (bounds target mem)) joined
  refine ⟨entries ▸ within', ?_, ?_⟩
  · intro b mem
    cases queued b (rest ▸ mem) with
    | inl before => exact listed b (by simp [pending, before])
    | inr new => exact inOrder bb (listed bb (by simp [pending])) b new
  · rw [entries, rest, pending, List.length_cons]
    omega

theorem withinEnds (ranked : A.Ranked Good Le rank) {bottom : D} {blocks : Nat} {order : List Nat}
    {table : Nat → D} (closed : A.ClosedTable Good Le bottom blocks order table)
    (inOrder : ∀ bb ∈ order, ∀ target ∈ A.edges bb, target ∈ order) (size : Nat) :
    ∀ p : Progress σ D, Within Good Le table blocks p.entry → (∀ bb ∈ p.queue, bb ∈ order) →
      slack rank table blocks p.entry + p.queue.length ≤ size → A.Ends p := by
  induction size with
  | zero =>
    intro p _ _ small
    have empty : p.queue = [] := List.length_eq_zero_iff.mp (by omega)
    exact ⟨1, by rw [visits, advance, empty]; rfl⟩
  | succ size ih =>
    intro p within listed small
    cases moved : A.advance p with
    | none => exact ⟨1, by rw [visits, moved]; rfl⟩
    | some q =>
      obtain ⟨within', listed', smaller⟩ := withinAdvance ranked closed inOrder within listed moved
      obtain ⟨n, none_⟩ := ih q within' listed' (by omega)
      exact ⟨n + 1, by rw [visits, moved, Option.bind_some, none_]⟩

theorem replicated {blocks bb : Nat} {bottom state : D}
    (held : (List.replicate blocks bottom)[bb]? = some state) : bb < blocks ∧ state = bottom :=
  ⟨by simpa using (List.getElem?_eq_some_iff.mp held).1,
    (List.mem_replicate.mp (List.mem_of_getElem? held)).2⟩

theorem withinStart {bottom : D} {blocks : Nat} {order : List Nat} {table : Nat → D}
    (goodBottom : Good bottom) (closed : A.ClosedTable Good Le bottom blocks order table) :
    Within Good Le table blocks (List.replicate blocks bottom) := by
  constructor
  · exact List.length_replicate
  · intro bb state held
    exact (replicated held).2 ▸ goodBottom
  · intro bb state held
    exact (replicated held).2 ▸ closed.above bb (replicated held).1

theorem closedEnds (ranked : A.Ranked Good Le rank) {bottom : D} {blocks : Nat} {order : List Nat}
    {table : Nat → D} (goodBottom : Good bottom) (closed : A.ClosedTable Good Le bottom blocks order table)
    (inOrder : ∀ bb ∈ order, ∀ target ∈ A.edges bb, target ∈ order) (store : σ) :
    A.Ends ⟨List.replicate blocks bottom, order, store⟩ :=
  withinEnds ranked closed inOrder _ _ (withinStart goodBottom closed) (fun _ mem => mem) le_rfl

structure Above (Good : D → Prop) (Le : D → D → Prop) (bottom : D) (entry : List D) : Prop where
  good : ∀ (bb : Nat) state, entry[bb]? = some state → Good state
  above : ∀ (bb : Nat) state, entry[bb]? = some state → Le bottom state

def Moves (Le : D → D → Prop) (before after : List D) (queue : List Nat) : Prop :=
  ∀ (bb : Nat) old, before[bb]? = some old →
    ∃ new, after[bb]? = some new ∧ Le old new ∧ (Le new old ∨ bb ∈ queue)

theorem Moves.trans (joining : A.Joining Good Le) {before mid after : List D}
    {queue queue' : List Nat} (first : Moves Le before mid queue) (second : Moves Le mid after queue')
    (kept : queue ⊆ queue') : Moves Le before after queue' := by
  intro bb state held
  obtain ⟨next, hm, up, same⟩ := first bb state held
  obtain ⟨new, hn, up', same'⟩ := second bb next hm
  refine ⟨new, hn, joining.trans _ _ _ up up', ?_⟩
  cases same with
  | inr listed => exact .inr (kept listed)
  | inl back => exact same'.imp (fun back' => joining.trans _ _ _ back' back) id

theorem joinMoves (joining : A.Joining Good Le) {entry : List D} {target : Nat} {old out grown : D}
    {changed : Bool} (held : entry[target]? = some old) (goodOld : Good old) (good : Good out)
    (ok : A.join old out = some (grown, changed)) (queue : List Nat) :
    Moves Le entry (entry.set target grown) (queued changed queue target) := by
  intro bb state here
  by_cases same : bb = target
  · subst same
    cases Option.some.inj (held.symm.trans here)
    refine ⟨grown, List.getElem?_set_self (List.getElem?_eq_some_iff.mp held).1,
      joining.left _ _ _ _ goodOld good ok, ?_⟩
    cases changed with
    | false => exact .inl (joining.unchanged _ _ _ goodOld good ok)
    | true => exact .inr (targetQueued queue bb)
  · refine ⟨state, ?_, joining.refl state, .inl (joining.refl state)⟩
    rw [List.getElem?_set_ne (Ne.symm same), here]

theorem joinIntoMoves (joining : A.Joining Good Le) {bottom out : D} (good : Good out)
    {targets : List Nat} : ∀ {entry : List D} {queue : List Nat} {next : List D × List Nat},
      Above Good Le bottom entry → A.joinInto out targets (entry, queue) = some next →
        Above Good Le bottom next.1 ∧ next.1.length = entry.length ∧ queue ⊆ next.2 ∧
        Moves Le entry next.1 next.2 ∧
        ∀ target ∈ targets, ∃ new, next.1[target]? = some new ∧ Le out new := by
  induction targets with
  | nil =>
    intro entry queue next above joined
    cases Option.some.inj joined
    exact ⟨above, rfl, fun _ mem => mem,
      fun bb old held => ⟨old, held, joining.refl old, .inl (joining.refl old)⟩, by simp⟩
  | cons target rest ih =>
    intro entry queue next above joined
    simp only [joinInto, List.foldlM_cons, bind, Option.bind_eq_some_iff] at joined
    obtain ⟨⟨entry', queue'⟩, first, later⟩ := joined
    obtain ⟨old, grown, changed, held, ok, rfl, rfl⟩ := joinOneSpec first
    have goodOld := above.good target old held
    have goodGrown := joining.joinGood _ _ _ _ goodOld good ok
    have upwards := joining.left _ _ _ _ goodOld good ok
    have inside : target < entry.length := (List.getElem?_eq_some_iff.mp held).1
    have above' : Above Good Le bottom (entry.set target grown) :=
      ⟨allSet above.good goodGrown,
        allSet above.above (joining.trans _ _ _ (above.above target old held) upwards)⟩
    obtain ⟨finally_, length, kept, moves, reached⟩ := ih above' later
    refine ⟨finally_, length.trans List.length_set, fun _ mem => kept (queuedKeeps changed queue target mem),
      (joinMoves joining held goodOld good ok queue).trans joining moves kept, ?_⟩
    intro t mem
    cases List.mem_cons.mp mem with
    | inr further => exact reached t further
    | inl here =>
      subst here
      obtain ⟨new, hn, up, _⟩ := moves t grown (List.getElem?_set_self inside)
      exact ⟨new, hn, joining.trans _ _ _ (joining.right _ _ _ _ goodOld good ok) up⟩

def SettledAt (A : Analysis σ D) (Good : D → Prop) (Le : D → D → Prop) (entry : List D) (bb : Nat)
    (base : D) : Prop :=
  ∃ state, entry[bb]? = some state ∧ Good base ∧ Le state base ∧ Le base state ∧
    ∃ out, A.Effect bb base out ∧ ∀ target ∈ A.edges bb, ∃ next, entry[target]? = some next ∧ Le out next

theorem SettledAt.moves (joining : A.Joining Good Le) {entry entry' : List D} {queue : List Nat}
    {bb : Nat} {base : D} (settled : A.SettledAt Good Le entry bb base)
    (moves : Moves Le entry entry' queue) (rests : bb ∉ queue) : A.SettledAt Good Le entry' bb base := by
  obtain ⟨state, held, good, up, down, out, effect, bounds⟩ := settled
  obtain ⟨state', held', grown, same⟩ := moves bb state held
  have back : Le state' state := same.resolve_right rests
  refine ⟨state', held', good, joining.trans _ _ _ back up, joining.trans _ _ _ down grown, out, effect, ?_⟩
  intro target mem
  obtain ⟨next, hn, bound⟩ := bounds target mem
  obtain ⟨next', hn', grown', _⟩ := moves target next hn
  exact ⟨next', hn', joining.trans _ _ _ bound grown'⟩

structure Underway (A : Analysis σ D) (Good : D → Prop) (Le : D → D → Prop) (bottom : D) (blocks : Nat)
    (order : List Nat) (p : Progress σ D) : Prop where
  above : Above Good Le bottom p.entry
  length : p.entry.length = blocks
  settled : ∀ bb ∈ order, bb ∈ p.queue ∨ ∃ base, A.SettledAt Good Le p.entry bb base

theorem Underway.advance (joining : A.Joining Good Le) {bottom : D} {blocks : Nat} {order : List Nat}
    {p q : Progress σ D} (under : Underway A Good Le bottom blocks order p)
    (moved : A.advance p = some q) : Underway A Good Le bottom blocks order q := by
  obtain ⟨bb, queue, state, out, next, pending, held, applied, joined, entries, rest⟩ :=
    advanceCases moved
  have effect : A.Effect bb state out := ⟨_, _, applied⟩
  have goodState := under.above.good bb state held
  obtain ⟨above, length, kept, moves, reached⟩ :=
    joinIntoMoves joining (joining.effectGood bb _ _ goodState effect) under.above joined
  refine ⟨entries ▸ above, by rw [entries, length, under.length], ?_⟩
  intro b listed
  rw [entries, rest]
  by_cases queued : b ∈ next.2
  · exact .inl queued
  right
  cases under.settled b listed with
  | inr before =>
    obtain ⟨base, settled⟩ := before
    exact ⟨base, settled.moves joining moves queued⟩
  | inl waiting =>
    rw [pending] at waiting
    cases List.mem_cons.mp waiting with
    | inr still => exact absurd (kept still) queued
    | inl visited =>
      -- the block that was visited: its entry state did not change, or it would be queued
      subst visited
      obtain ⟨new, hn, up, same⟩ := moves b state held
      exact ⟨state, new, hn, goodState, same.resolve_right queued, up, out, effect, reached⟩

theorem settlesUnderway (joining : A.Joining Good Le) {bottom : D} {blocks : Nat} {order : List Nat}
    {store : σ} {q : Progress σ D} (goodBottom : Good bottom)
    (settles : A.Settles ⟨List.replicate blocks bottom, order, store⟩ q) :
    Underway A Good Le bottom blocks order q ∧
      ∀ bb ∈ order, ∃ base, A.SettledAt Good Le q.entry bb base := by
  have start : Underway A Good Le bottom blocks order ⟨List.replicate blocks bottom, order, store⟩ :=
    ⟨⟨fun _ _ held => (replicated held).2 ▸ goodBottom,
      fun _ _ held => (replicated held).2 ▸ joining.refl bottom⟩, List.length_replicate,
      fun _ listed => .inl listed⟩
  obtain ⟨n, reached, empty⟩ := settles
  have under := visitsKeep (fun kept moved => Underway.advance joining kept moved) start reached
  refine ⟨under, ?_⟩
  intro bb listed
  have either := under.settled bb listed
  rw [empty] at either
  exact either.resolve_left List.not_mem_nil

theorem settlesClosed (ranked : A.Ranked Good Le rank) {bottom : D} {blocks : Nat} {order : List Nat}
    {store : σ} {q : Progress σ D} (goodBottom : Good bottom)
    (settles : A.Settles ⟨List.replicate blocks bottom, order, store⟩ q) :
    ∃ table, A.ClosedTable Good Le bottom blocks order table := by
  obtain ⟨under, settled⟩ := settlesUnderway ranked.joining goodBottom settles
  classical
  let table : Nat → D := fun bb =>
    if known : ∃ base, A.SettledAt Good Le q.entry bb base then known.choose
    else (q.entry[bb]?).getD bottom
  have covers : ∀ (bb : Nat) state, q.entry[bb]? = some state → Good (table bb) ∧ Le state (table bb) := by
    intro bb state held
    by_cases known : ∃ base, A.SettledAt Good Le q.entry bb base
    · obtain ⟨state', held', good, up, _⟩ := known.choose_spec
      cases Option.some.inj (held.symm.trans held')
      simp only [table, dif_pos known]
      exact ⟨good, up⟩
    · simp only [table, dif_neg known, held, Option.getD_some]
      exact ⟨under.above.good bb state held, ranked.refl state⟩
  refine ⟨table, ?_, ?_, ?_⟩
  · intro bb inside
    have held := List.getElem?_eq_getElem (under.length ▸ inside : bb < q.entry.length)
    exact (covers bb _ held).1
  · intro bb inside
    have held := List.getElem?_eq_getElem (under.length ▸ inside : bb < q.entry.length)
    exact ranked.trans _ _ _ (under.above.above bb _ held) (covers bb _ held).2
  · intro bb listed
    have known := settled bb listed
    obtain ⟨_, _, _, _, _, out, effect, bounds⟩ := known.choose_spec
    have here : table bb = known.choose := dif_pos known
    refine ⟨out, here ▸ effect, ?_⟩
    intro target mem
    obtain ⟨next, hn, bound⟩ := bounds target mem
    exact ranked.trans _ _ _ bound (covers target next hn).2

theorem endsIff (ranked : A.Ranked Good Le rank) {bottom : D} {blocks : Nat} {order : List Nat}
    (goodBottom : Good bottom) (inOrder : ∀ bb ∈ order, ∀ target ∈ A.edges bb, target ∈ order)
    (store : σ) :
    (A.Ends ⟨List.replicate blocks bottom, order, store⟩ ↔
      A.Fails ⟨List.replicate blocks bottom, order, store⟩ ∨
        ∃ table, A.ClosedTable Good Le bottom blocks order table) ∧
    ((∃ fuel entry t, A.iterateToFixpoint fuel (List.replicate blocks bottom) order store = (some entry, t)) ↔
      ¬ A.Fails ⟨List.replicate blocks bottom, order, store⟩ ∧
        ∃ table, A.ClosedTable Good Le bottom blocks order table) := by
  have ends : ∀ table, A.ClosedTable Good Le bottom blocks order table →
      A.Ends ⟨List.replicate blocks bottom, order, store⟩ :=
    fun table closed => closedEnds ranked goodBottom closed inOrder store
  have settled : (∃ q, A.Settles ⟨List.replicate blocks bottom, order, store⟩ q) →
      ∃ table, A.ClosedTable Good Le bottom blocks order table :=
    fun known => settlesClosed ranked goodBottom known.choose_spec
  constructor
  · constructor
    · intro finite
      exact (endsCases.mp finite).imp id settled
    · intro either
      cases either with
      | inl fails => exact endsCases.mpr (.inl fails)
      | inr closed => exact ends _ closed.choose_spec
  · constructor
    · intro returned
      obtain ⟨fuel, entry, t, ran⟩ := returned
      have settles := (@iterateSettles σ D A entry t ⟨List.replicate blocks bottom, order, store⟩).mp
        ⟨fuel, ran⟩
      exact ⟨settlesNotFails settles, settled ⟨_, settles⟩⟩
    · intro both
      obtain ⟨works, table, closed⟩ := both
      obtain ⟨q, n, reached, empty⟩ := (endsCases.mp (ends table closed)).resolve_left works
      obtain ⟨entry, queue, t⟩ := q
      cases empty
      obtain ⟨fuel, ran⟩ :=
        (@iterateSettles σ D A entry t ⟨List.replicate blocks bottom, order, store⟩).mpr
          ⟨n, reached, rfl⟩
      exact ⟨fuel, entry, t, ran⟩

end
end Analysis
