import Scrutinizer.Library.Engine

/-! When the engine returns. States that can only grow so often, effects that return on them and
joins that are defined between them give a bound on the visits: each one shortens the queue or uses
up room of the entry states. -/
namespace Analysis
variable {σ D : Type} {A : Analysis σ D}

structure Total (A : Analysis σ D) (I : σ → Prop) (Good : D → Prop) (rank : D → Nat) (limit blocks : Nat) :
    Prop where
  step : ∀ bb < blocks, ∀ d s, Good d → I s →
    Exec.wp (A.apply bb d) (fun out t => Good out ∧ I t) (fun _ => False) s
  edges : ∀ bb < blocks, ∀ target ∈ A.edges bb, target < blocks
  join : ∀ a b, Good a → Good b → ∃ c changed, A.join a b = some (c, changed) ∧ Good c ∧
    rank a ≤ rank c ∧ (changed = true → rank a < rank c)
  limited : ∀ d, Good d → rank d ≤ limit

/- What the entry states can still grow by. -/
def room (rank : D → Nat) (limit : Nat) : List D → Nat
  | [] => 0
  | d :: entry => limit - rank d + room rank limit entry

theorem roomSet (rank : D → Nat) (limit : Nat) {entry : List D} {target : Nat} {old : D} (joined : D)
    (held : entry[target]? = some old) :
    room rank limit (entry.set target joined) + (limit - rank old) =
      room rank limit entry + (limit - rank joined) := by
  induction entry generalizing target with
  | nil => cases held
  | cons first rest ih =>
    cases target with
    | zero =>
      cases Option.some.inj held
      simp only [room, List.set_cons_zero]
      omega
    | succ target =>
      have tail := ih held
      simp only [room, List.set_cons_succ]
      omega

theorem roomLe (rank : D → Nat) (limit : Nat) (entry : List D) : room rank limit entry ≤ entry.length * limit := by
  induction entry with
  | nil => exact Nat.zero_le _
  | cons first rest ih =>
    simp only [room, List.length_cons, Nat.succ_mul]
    omega

structure Running (Good : D → Prop) (blocks : Nat) (entry : List D) (queue : List Nat) : Prop where
  length : entry.length = blocks
  good : ∀ d ∈ entry, Good d
  queue : ∀ bb ∈ queue, bb < blocks

section
variable {I : σ → Prop} {Good : D → Prop} {rank : D → Nat} {limit blocks : Nat}

theorem Running.entryOf {entry : List D} {queue : List Nat} (running : Running Good blocks entry queue)
    {bb : Nat} (inside : bb < blocks) : ∃ d, entry[bb]? = some d ∧ Good d := by
  have bound : bb < entry.length := running.length ▸ inside
  exact ⟨entry[bb], List.getElem?_eq_getElem bound, running.good _ (List.getElem_mem bound)⟩

theorem joinOneTotal (total : A.Total I Good rank limit blocks) {state : D} (good : Good state)
    {entry : List D} {queue : List Nat} {target : Nat} (running : Running Good blocks entry queue)
    (inside : target < blocks) :
    ∃ entry' queue', A.joinOne state (entry, queue) target = some (entry', queue') ∧
      Running Good blocks entry' queue' ∧
      queue'.length + room rank limit entry' ≤ queue.length + room rank limit entry := by
  obtain ⟨old, held, goodOld⟩ := running.entryOf inside
  obtain ⟨joined, changed, defined, goodJoined, up, strict⟩ := total.join old state goodOld good
  have filled := roomSet rank limit joined held
  have top := total.limited joined goodJoined
  refine ⟨entry.set target joined,
    if changed && !queue.contains target then queue ++ [target] else queue, ?_, ⟨?_, ?_, ?_⟩, ?_⟩
  · simp only [joinOne, held, defined, Option.bind_eq_bind, Option.bind_some]
  · rw [List.length_set, running.length]
  · intro d mem
    rcases List.mem_or_eq_of_mem_set mem with before | rfl
    · exact running.good d before
    · exact goodJoined
  · intro bb mem
    split at mem
    · rcases List.mem_append.mp mem with before | now
      · exact running.queue bb before
      · exact List.mem_singleton.mp now ▸ inside
    · exact running.queue bb mem
  · split
    · rename_i fresh
      have grown := strict (Bool.and_eq_true_iff.mp fresh).1
      rw [List.length_append, List.length_singleton]
      omega
    · omega

theorem joinIntoTotal (total : A.Total I Good rank limit blocks) {state : D} (good : Good state) :
    ∀ {targets : List Nat} {entry : List D} {queue : List Nat}, Running Good blocks entry queue →
      (∀ target ∈ targets, target < blocks) →
      ∃ entry' queue', A.joinInto state targets (entry, queue) = some (entry', queue') ∧
        Running Good blocks entry' queue' ∧
        queue'.length + room rank limit entry' ≤ queue.length + room rank limit entry := by
  intro targets
  induction targets with
  | nil => exact fun {entry queue} running _ => ⟨entry, queue, rfl, running, Nat.le_refl _⟩
  | cons target rest ih =>
    intro entry queue running inside
    obtain ⟨first, others⟩ := List.forall_mem_cons.mp inside
    obtain ⟨entry1, queue1, one, running1, less1⟩ := joinOneTotal total good running first
    obtain ⟨entry2, queue2, more, running2, less2⟩ := ih running1 others
    refine ⟨entry2, queue2, ?_, running2, Nat.le_trans less2 less1⟩
    rw [joinInto, List.foldlM_cons, one]
    exact more

theorem iterateTotal (total : A.Total I Good rank limit blocks) : ∀ (fuel : Nat) (entry : List D)
    (queue : List Nat) (s : σ), Running Good blocks entry queue →
      queue.length + room rank limit entry < fuel → I s →
      Exec.wp (A.iterateToFixpoint fuel entry queue)
        (fun entry' t => Running Good blocks entry' [] ∧ I t) (fun _ => False) s := by
  intro fuel
  induction fuel with
  | zero => exact fun _ _ _ _ short => absurd short (Nat.not_lt_zero _)
  | succ fuel ih =>
    intro entry queue s running short kept
    cases queue with
    | nil => exact ⟨running, kept⟩
    | cons bb queue =>
      obtain ⟨inside, others⟩ := List.forall_mem_cons.mp running.queue
      obtain ⟨d, held, good⟩ := running.entryOf inside
      rw [iterateToFixpoint, Exec.wpBind, held, Exec.wpLiftSome, Exec.wpBind]
      refine Exec.wpMono (total.step bb inside d s good kept) ?_ (fun _ h => h)
      intro out t done
      obtain ⟨entry', queue', joined, running', less⟩ :=
        joinIntoTotal total done.1 ⟨running.length, running.good, others⟩ (total.edges bb inside)
      rw [Exec.wpBind, joined, Exec.wpLiftSome]
      refine ih entry' queue' t running' ?_ done.2
      rw [List.length_cons] at short
      omega

theorem reduceTotal (total : A.Total I Good rank limit blocks) {entry : List D}
    (running : Running Good blocks entry []) : ∀ {bbs : List Nat} {acc : Option D} {s : σ},
      (∀ bb ∈ bbs, bb < blocks) → (∀ d, acc = some d → Good d) → (acc = none → bbs ≠ []) → I s →
      Exec.wp (bbs.foldlM (A.reduceStep entry) acc)
        (fun result t => (∃ d, result = some d ∧ Good d) ∧ I t) (fun _ => False) s := by
  intro bbs
  induction bbs with
  | nil =>
    intro acc s _ good some kept
    cases acc with
    | none => exact absurd rfl (some rfl)
    | some d => exact ⟨⟨d, rfl, good d rfl⟩, kept⟩
  | cons bb rest ih =>
    intro acc s inside good _ kept
    obtain ⟨first, others⟩ := List.forall_mem_cons.mp inside
    obtain ⟨state, held, goodState⟩ := running.entryOf first
    rw [List.foldlM_cons, Exec.wpBind, reduceStep, Exec.wpBind, held, Exec.wpLiftSome, Exec.wpBind]
    refine Exec.wpMono (total.step bb first state s goodState kept) ?_ (fun _ h => h)
    intro out t done
    cases acc with
    | none =>
      exact ih others (fun d same => Option.some.inj same ▸ done.1) (fun none_ => by cases none_) done.2
    | some d =>
      obtain ⟨joined, changed, defined, goodJoined, _⟩ := total.join d out (good d rfl) done.1
      rw [Exec.wpBind, defined, Exec.wpLiftSome]
      exact ih others (fun d same => Option.some.inj same ▸ goodJoined) (fun none_ => by cases none_) done.2

theorem runTotal (total : A.Total I Good rank limit blocks) {fuel : Nat} {bottom : D} {order : List Nat} {s : σ}
    (nonempty : 0 < blocks) (inside : ∀ bb ∈ order, bb < blocks) (good : Good bottom) (kept : I s)
    (enough : order.length + blocks * limit < fuel) :
    Exec.wp (A.run fuel bottom blocks order) (fun d t => Good d ∧ I t) (fun _ => False) s := by
  have start : Running Good blocks (List.replicate blocks bottom) order :=
    ⟨List.length_replicate, fun d mem => (List.eq_of_mem_replicate mem) ▸ good, inside⟩
  have size := roomLe rank limit (List.replicate blocks bottom)
  rw [List.length_replicate] at size
  rw [run, Exec.wpBind]
  refine Exec.wpMono (iterateTotal total fuel _ order s start (by omega) kept) ?_ (fun _ h => h)
  intro entry t done
  have blocksInside : ∀ bb ∈ List.range blocks, bb < blocks := fun bb mem => List.mem_range.mp mem
  have inhabited : List.range blocks ≠ [] := by
    rw [ne_eq, List.range_eq_nil]
    omega
  rw [Exec.wpBind, reduceBlockEnds]
  have nothing : ∀ d : D, none = some d → Good d := fun _ absurd_ => by cases absurd_
  refine Exec.wpMono (reduceTotal total done.1 blocksInside nothing (fun _ => inhabited) done.2) ?_ (fun _ h => h)
  intro result u last
  obtain ⟨⟨d, rfl, goodResult⟩, keptResult⟩ := last
  exact ⟨goodResult, keptResult⟩

end
end Analysis
