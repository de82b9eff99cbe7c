import Scrutinizer.Library.Exec

/-! The forward dataflow engine of rustc: a queue of blocks whose entry state changed, run
until it is empty, and a pass that applies the effects of every block once more to read the
states at the ends of the blocks. The effects may read and change a store of their own. -/

/- `join` gives the joined state and whether it differs from the left one, or fails. -/
structure Analysis (σ D : Type) where
  apply : Nat → D → Exec σ D
  edges : Nat → List Nat
  join : D → D → Option (D × Bool)

namespace Analysis
variable {σ D : Type} (A : Analysis σ D)

def joinOne (state : D) (acc : List D × List Nat) (target : Nat) : Option (List D × List Nat) := do
  let old ← acc.1[target]?
  let (joined, changed) ← A.join old state
  some (acc.1.set target joined,
    if changed && !acc.2.contains target then acc.2 ++ [target] else acc.2)

def joinInto (state : D) (targets : List Nat) (acc : List D × List Nat) :
    Option (List D × List Nat) :=
  targets.foldlM (A.joinOne state) acc

def iterateToFixpoint : Nat → List D → List Nat → Exec σ (List D)
  | 0, _, _ => Exec.fail
  | _ + 1, entry, [] => pure entry
  | fuel + 1, entry, bb :: queue => do
      let state ← Exec.lift entry[bb]?
      let state ← A.apply bb state
      let next ← Exec.lift (A.joinInto state (A.edges bb) (entry, queue))
      iterateToFixpoint fuel next.1 next.2

/- The reduction of the states at the ends of the blocks, read one after the other. -/
def reduceStep (entry : List D) (acc : Option D) (bb : Nat) : Exec σ (Option D) := do
  let state ← Exec.lift entry[bb]?
  let out ← A.apply bb state
  match acc with
  | none => pure (some out)
  | some acc => do
      let joined ← Exec.lift (A.join acc out)
      pure (some joined.1)

def reduceBlockEnds (entry : List D) (blocks : List Nat) : Exec σ (Option D) :=
  blocks.foldlM (A.reduceStep entry) none

def run (fuel : Nat) (bottom : D) (blocks : Nat) (order : List Nat) : Exec σ D := do
  let entry ← A.iterateToFixpoint fuel (List.replicate blocks bottom) order
  let result ← A.reduceBlockEnds entry (List.range blocks)
  Exec.lift result

/- The rule. `I` speaks of the store and of the blocks visited so far, `G` of a state in a
store, `O` of what the effects of one block leave behind. `Sched` relates the blocks visited to
those in the queue and licenses the next visit by `Ready`. `Le` is how the store may change;
`G` and `O` survive such a change. -/
structure Invariant (I : List Nat → σ → Prop) (G : σ → D → Prop) (O : Nat → σ → D → Prop)
    (Ready : List Nat → Nat → Prop) (Le : σ → σ → Prop) (E : σ → Prop) : Prop where
  refl : ∀ s, Le s s
  trans : ∀ s t u, Le s t → Le t u → Le s u
  goodMono : ∀ s t d, Le s t → G s d → G t d
  outMono : ∀ bb s t d, Le s t → O bb s d → O bb t d
  goodJoin : ∀ s a b c ch, G s a → G s b → A.join a b = some (c, ch) → G s c
  outLeft : ∀ bb s a b c ch, O bb s a → A.join a b = some (c, ch) → O bb s c
  outRight : ∀ bb s a b c ch, O bb s b → A.join a b = some (c, ch) → O bb s c
  stops : ∀ visited s, I visited s → E s
  step : ∀ visited bb d s, I visited s → G s d → Ready visited bb →
    Exec.wp (A.apply bb d) (fun d' t => I (bb :: visited) t ∧ G t d' ∧ O bb t d' ∧ Le s t) E s

structure Schedule (Ready : List Nat → Nat → Prop) (Sched : List Nat → List Nat → Prop) : Prop where
  ready : ∀ visited bb queue, Sched visited (bb :: queue) → Ready visited bb
  pop : ∀ visited bb queue added, Sched visited (bb :: queue) →
    (∀ t ∈ added, t ∈ A.edges bb ∧ t ∉ queue) → Sched (bb :: visited) (queue ++ added)

variable {A}

theorem joinOneSpec {state : D} {entry entry' : List D} {queue queue' : List Nat} {target : Nat}
    (h : A.joinOne state (entry, queue) target = some (entry', queue')) :
    ∃ old joined changed, entry[target]? = some old ∧ A.join old state = some (joined, changed) ∧
      entry' = entry.set target joined ∧
      queue' = if changed && !queue.contains target then queue ++ [target] else queue := by
  simp only [joinOne, bind, Option.bind_eq_some_iff] at h
  obtain ⟨old, hold, ⟨joined, changed⟩, hj, last⟩ := h
  cases Option.some.inj last
  exact ⟨old, joined, changed, hold, hj, rfl, rfl⟩

theorem joinIntoSpec {G : D → Prop} {state : D}
    (goodJoin : ∀ a b c ch, G a → G b → A.join a b = some (c, ch) → G c) (good : G state)
    {targets : List Nat} {entry entry' : List D} {queue queue' : List Nat}
    (h : A.joinInto state targets (entry, queue) = some (entry', queue'))
    (all : ∀ d ∈ entry, G d) :
    (∀ d ∈ entry', G d) ∧ entry'.length = entry.length ∧
      ∃ added, queue' = queue ++ added ∧ ∀ t ∈ added, t ∈ targets ∧ t ∉ queue := by
  induction targets generalizing entry queue with
  | nil =>
    cases Option.some.inj h
    exact ⟨all, rfl, [], by simp, by simp⟩
  | cons target rest ih =>
    simp only [joinInto, List.foldlM_cons, bind, Option.bind_eq_some_iff] at h
    obtain ⟨⟨entry1, queue1⟩, first, h⟩ := h
    obtain ⟨old, joined, changed, hold, hj, rfl, rfl⟩ := joinOneSpec first
    have goodJoined : G joined :=
      goodJoin old state joined changed (all old (List.mem_of_getElem? hold)) good hj
    have all1 : ∀ d ∈ entry.set target joined, G d := by
      intro d hd
      rcases List.mem_or_eq_of_mem_set hd with hd | rfl
      · exact all d hd
      · exact goodJoined
    obtain ⟨all', length, added, hq, hadded⟩ := ih h all1
    refine ⟨all', by rw [length, List.length_set], ?_⟩
    by_cases fresh : (changed && !queue.contains target) = true
    · rw [if_pos fresh] at hq
      simp only [if_pos fresh] at hadded
      have notIn : target ∉ queue := by
        simpa using (Bool.and_eq_true_iff.mp fresh).2
      refine ⟨target :: added, by rw [hq, List.append_assoc]; rfl, ?_⟩
      intro t ht
      rcases List.mem_cons.mp ht with rfl | ht
      · exact ⟨List.mem_cons_self, notIn⟩
      · obtain ⟨inRest, outside⟩ := hadded t ht
        exact ⟨List.mem_cons_of_mem _ inRest, fun hm => outside (List.mem_append_left _ hm)⟩
    · rw [if_neg fresh] at hq
      simp only [if_neg fresh] at hadded
      exact ⟨added, hq, fun t ht => ⟨List.mem_cons_of_mem _ (hadded t ht).1, (hadded t ht).2⟩⟩

section
variable {I : List Nat → σ → Prop} {G : σ → D → Prop} {O : Nat → σ → D → Prop}
  {Ready : List Nat → Nat → Prop} {Le : σ → σ → Prop} {E : σ → Prop}
  {Sched : List Nat → List Nat → Prop}

theorem wpIterate (inv : A.Invariant I G O Ready Le E) (sched : A.Schedule Ready Sched)
    (fuel : Nat) : ∀ (entry : List D) (queue visited : List Nat) (s : σ),
      I visited s → (∀ d ∈ entry, G s d) → Sched visited queue →
      Exec.wp (A.iterateToFixpoint fuel entry queue)
        (fun entry' t => ∃ visited', I visited' t ∧ (∀ d ∈ entry', G t d) ∧ Sched visited' [] ∧
          entry'.length = entry.length ∧ Le s t) E s := by
  induction fuel with
  | zero => intro entry queue visited s hI _ _; exact inv.stops visited s hI
  | succ fuel ih =>
    intro entry queue visited s hI all hS
    cases queue with
    | nil => exact ⟨visited, hI, all, hS, rfl, inv.refl s⟩
    | cons bb queue =>
      rw [iterateToFixpoint, Exec.wpBind, Exec.wpLift]
      refine ⟨fun d hd => ?_, fun _ => inv.stops visited s hI⟩
      rw [Exec.wpBind]
      have good := all d (List.mem_of_getElem? hd)
      refine Exec.wpMono (inv.step visited bb d s hI good (sched.ready visited bb queue hS)) ?_
        (fun _ h => h)
      rintro d' t ⟨hI', good', _, le⟩
      rw [Exec.wpBind, Exec.wpLift]
      refine ⟨fun next hnext => ?_, fun _ => inv.stops (bb :: visited) t hI'⟩
      obtain ⟨entry', queue'⟩ := next
      have allMono : ∀ d ∈ entry, G t d := fun d hd => inv.goodMono s t d le (all d hd)
      obtain ⟨all', length, added, hq, hadded⟩ :=
        joinIntoSpec (inv.goodJoin t) good' hnext allMono
      have hS' : Sched (bb :: visited) queue' := by
        rw [hq]
        exact sched.pop visited bb queue added hS hadded
      refine Exec.wpMono (ih entry' queue' (bb :: visited) t hI' all' hS') ?_ (fun _ h => h)
      rintro entry'' u ⟨visited', hI'', all'', hS'', length', le'⟩
      exact ⟨visited', hI'', all'', hS'', length'.trans length, inv.trans s t u le le'⟩

/- The reading pass visits the blocks in the given order; `ReadySeq` says that each of them is
ready when its turn comes. -/
def ReadySeq (Ready : List Nat → Nat → Prop) : List Nat → List Nat → Prop
  | _, [] => True
  | visited, bb :: rest => Ready visited bb ∧ ReadySeq Ready (bb :: visited) rest

def AccGood (G : σ → D → Prop) (O : Nat → σ → D → Prop) (seen : List Nat) (acc : Option D)
    (s : σ) : Prop :=
  ∀ d, acc = some d → G s d ∧ ∀ bb ∈ seen, O bb s d

theorem wpReduce (inv : A.Invariant I G O Ready Le E) (entry : List D) (blocks : List Nat) :
    ∀ (acc : Option D) (seen visited : List Nat) (s : σ), I visited s → (∀ d ∈ entry, G s d) →
      ReadySeq Ready visited blocks → AccGood G O seen acc s → (acc = none → seen = []) →
      Exec.wp (blocks.foldlM (A.reduceStep entry) acc)
        (fun acc' t => I (blocks.reverse ++ visited) t ∧ AccGood G O (blocks ++ seen) acc' t ∧
          Le s t) E s := by
  induction blocks with
  | nil =>
    intro acc seen visited s hI _ _ hacc _
    exact ⟨hI, by simpa using hacc, inv.refl s⟩
  | cons bb rest ih =>
    intro acc seen visited s hI all hready hacc hnone
    obtain ⟨ready, hready⟩ := hready
    rw [List.foldlM_cons, Exec.wpBind, reduceStep, Exec.wpBind, Exec.wpLift]
    refine ⟨fun d hd => ?_, fun _ => inv.stops visited s hI⟩
    rw [Exec.wpBind]
    refine Exec.wpMono (inv.step visited bb d s hI (all d (List.mem_of_getElem? hd)) ready) ?_
      (fun _ h => h)
    rintro out t ⟨hI', good, hout, le⟩
    have allMono : ∀ d ∈ entry, G t d := fun d hd => inv.goodMono s t d le (all d hd)
    have finish : ∀ d', G t d' → (∀ b ∈ bb :: seen, O b t d') →
        Exec.wp (rest.foldlM (A.reduceStep entry) (some d'))
          (fun acc' u => I ((bb :: rest).reverse ++ visited) u ∧
            AccGood G O (bb :: rest ++ seen) acc' u ∧ Le s u) E t := by
      intro d' good' outs
      have hacc' : AccGood G O (bb :: seen) (some d') t := by
        intro d'' h; cases h; exact ⟨good', outs⟩
      refine Exec.wpMono (ih (some d') (bb :: seen) (bb :: visited) t hI' allMono hready hacc'
        (by simp)) ?_ (fun _ h => h)
      rintro acc' u ⟨hI'', hacc'', le'⟩
      refine ⟨by simpa using hI'', ?_, inv.trans s t u le le'⟩
      intro d'' h
      obtain ⟨good'', outs''⟩ := hacc'' d'' h
      refine ⟨good'', fun b hb => outs'' b ?_⟩
      simp only [List.cons_append, List.mem_cons, List.mem_append] at hb ⊢
      tauto
    cases acc with
    | none =>
      have empty := hnone rfl
      subst empty
      exact finish out good (by intro b hb; rcases List.mem_singleton.mp hb with rfl; exact hout)
    | some old =>
      obtain ⟨goodOld, outsOld⟩ := hacc old rfl
      simp only [Exec.wpBind, Exec.wpLift]
      refine ⟨fun joined hj => ?_, fun _ => inv.stops (bb :: visited) t hI'⟩
      obtain ⟨joined, ch⟩ := joined
      refine finish joined (inv.goodJoin t old out joined ch (inv.goodMono s t old le goodOld) good hj) ?_
      intro b hb
      rcases List.mem_cons.mp hb with rfl | hb
      · exact inv.outRight b t old out joined ch hout hj
      · exact inv.outLeft b t old out joined ch (inv.outMono b s t old le (outsOld b hb)) hj

theorem wpRun (inv : A.Invariant I G O Ready Le E) (sched : A.Schedule Ready Sched)
    (fuel : Nat) (bottom : D) (blocks : Nat) (order : List Nat) (s : σ)
    (start : I [] s) (good : G s bottom) (queue : Sched [] order)
    (reading : ∀ visited, Sched visited [] → ReadySeq Ready visited (List.range blocks)) :
    Exec.wp (A.run fuel bottom blocks order)
      (fun d t => (∃ visited, I visited t) ∧ G t d ∧ (∀ bb < blocks, O bb t d) ∧ Le s t) E s := by
  rw [run, Exec.wpBind]
  have all : ∀ d ∈ List.replicate blocks bottom, G s d := by
    intro d hd
    rw [(List.mem_replicate.mp hd).2]
    exact good
  refine Exec.wpMono (wpIterate inv sched fuel _ order [] s start all queue) ?_ (fun _ h => h)
  rintro entry t ⟨visited, hI, all', hS, _, le⟩
  rw [Exec.wpBind, reduceBlockEnds]
  refine Exec.wpMono (wpReduce inv entry (List.range blocks) none [] visited t hI all'
    (reading visited hS) (by intro d h; contradiction) (fun _ => rfl)) ?_ (fun _ h => h)
  rintro result u ⟨hI', hacc, le'⟩
  rw [Exec.wpLift]
  refine ⟨fun d hd => ?_, fun _ => inv.stops _ u hI'⟩
  obtain ⟨good', outs⟩ := hacc d hd
  exact ⟨⟨_, hI'⟩, good', fun bb hb => outs bb (by simpa using hb), inv.trans s t u le le'⟩

end

theorem anySchedule : A.Schedule (fun _ _ => True) (fun _ _ => True) :=
  ⟨fun _ _ _ _ => trivial, fun _ _ _ _ _ _ => trivial⟩

theorem anyReadySeq : ∀ (blocks visited : List Nat), ReadySeq (fun _ _ => True) visited blocks
  | [], _ => trivial
  | bb :: rest, visited => ⟨trivial, anyReadySeq rest (bb :: visited)⟩

def InTurn (order visited : List Nat) (bb : Nat) : Prop :=
  ∃ before after, order = before ++ bb :: after ∧ ∀ b ∈ before, b ∈ visited

def Queued (order visited queue : List Nat) : Prop :=
  ∃ finished rest again, order = finished ++ rest ∧ queue = rest ++ again ∧
    (∀ b ∈ finished, b ∈ visited) ∧ ∀ b ∈ again, b ∈ order

theorem orderSchedule {order : List Nat} (closed : ∀ bb ∈ order, ∀ t ∈ A.edges bb, t ∈ order)
    (others : List Nat) : A.Schedule (InTurn (order ++ others)) (Queued order) := by
  constructor
  · intro visited bb queue queued
    obtain ⟨finished, rest, again, split, hq, seen, known⟩ := queued
    cases rest with
    | cons first rest =>
      cases (List.cons.inj hq).1
      exact ⟨finished, rest ++ others, by simp [split], seen⟩
    | nil =>
      have mem : bb ∈ order := known bb (by rw [List.nil_append] at hq; simp [← hq])
      obtain ⟨before, after, there⟩ := List.append_of_mem mem
      refine ⟨before, after ++ others, by simp [there], ?_⟩
      intro b hb
      apply seen
      rw [List.append_nil] at split
      rw [← split, there]
      exact List.mem_append_left _ hb
  · intro visited bb queue added queued fresh
    obtain ⟨finished, rest, again, split, hq, seen, known⟩ := queued
    have later : bb ∈ order → ∀ b ∈ added, b ∈ order :=
      fun mem b hb => closed bb mem b (fresh b hb).1
    have visitedBefore : ∀ b ∈ finished, b ∈ bb :: visited :=
      fun b hb => List.mem_cons_of_mem _ (seen b hb)
    cases rest with
    | cons first rest =>
      obtain ⟨rfl, rfl⟩ := List.cons.inj hq
      have mem : bb ∈ order := by rw [split]; simp
      refine ⟨finished ++ [bb], rest, again ++ added, by simp [split], by simp, ?_, ?_⟩
      · intro b hb
        cases List.mem_append.mp hb with
        | inl earlier => exact visitedBefore b earlier
        | inr last => rw [List.mem_singleton.mp last]; exact List.mem_cons_self
      · intro b hb
        cases List.mem_append.mp hb with
        | inl earlier => exact known b earlier
        | inr new => exact later mem b new
    | nil =>
      rw [List.nil_append] at hq
      have mem : bb ∈ order := known bb (by simp [← hq])
      refine ⟨finished, [], queue ++ added, split, rfl, visitedBefore, ?_⟩
      intro b hb
      cases List.mem_append.mp hb with
      | inl earlier => exact known b (by rw [← hq]; exact List.mem_cons_of_mem _ earlier)
      | inr new => exact later mem b new

theorem readyInTurn {order : List Nat} (rest : List Nat) : ∀ {visited passed : List Nat},
    (∀ b ∈ order ++ passed, b ∈ visited) →
      ReadySeq (InTurn (order ++ (passed ++ rest))) visited rest := by
  induction rest with
  | nil => intro visited passed _; trivial
  | cons bb rest ih =>
    intro visited passed seen
    refine ⟨⟨order ++ passed, rest, by simp, seen⟩, ?_⟩
    have next : ∀ b ∈ order ++ (passed ++ [bb]), b ∈ bb :: visited := by
      intro b hb
      rw [← List.append_assoc] at hb
      cases List.mem_append.mp hb with
      | inl earlier => exact List.mem_cons_of_mem _ (seen b earlier)
      | inr last => rw [List.mem_singleton.mp last]; exact List.mem_cons_self
    have tail := @ih (bb :: visited) (passed ++ [bb]) next
    rwa [List.append_assoc, List.singleton_append] at tail

theorem queuedReading {order visited : List Nat} (blocks : List Nat) (queued : Queued order visited []) :
    ReadySeq (InTurn (order ++ blocks)) visited blocks := by
  obtain ⟨finished, rest, again, split, hq, seen, _⟩ := queued
  obtain ⟨rfl, _⟩ := List.append_eq_nil_iff.mp hq.symm
  refine @readyInTurn order blocks visited [] ?_
  intro b hb
  rw [List.append_nil, split, List.append_nil] at hb
  exact seen b hb

end Analysis
