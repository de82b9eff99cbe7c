import Scrutinizer.Visits

/-! Fewer important locals and longer lists of exemptions. What the second walk visits, the
first one visits with more important locals, so a leak of the second is one of the first. -/
namespace Scrutinizer

namespace ImportantLocals

/- Flowistry finds more dependent locals for more arguments. -/
def DependentsGrow (tcx : TyCtxt) : Prop :=
  ∀ defId args args', args ⊆ args' → tcx.dependentLocals defId args ⊆ tcx.dependentLocals defId args'

variable {tcx : TyCtxt} {small large : ImportantLocals} {args : List Operand} {callee : DefId}

theorem importantArgsGrow (more : small.locals ⊆ large.locals) :
    small.importantArgs args ⊆ large.importantArgs args := by
  intro parameter mem
  simp only [importantArgs, List.mem_filterMap, Option.bind_eq_some_iff] at mem ⊢
  obtain ⟨arg, listed, base, known, inside⟩ := mem
  refine ⟨arg, listed, base, known, ?_⟩
  split at inside
  · rename_i important
    rw [if_pos (more important)]
    exact inside
  · cases inside

theorem targetsGrow (more : small.locals ⊆ large.locals) {found : List Nat}
    (h : small.targets tcx args callee = .ok found) :
    ∃ found', large.targets tcx args callee = .ok found' ∧ found ⊆ found' := by
  unfold targets at h ⊢
  split
  · rename_i closure
    rw [if_pos closure] at h
    exact ⟨found, h, List.Subset.refl _⟩
  · rename_i ordinary
    rw [if_neg ordinary] at h
    cases Except.ok.inj h
    exact ⟨_, rfl, importantArgsGrow more⟩

theorem transitionGrows (grow : DependentsGrow tcx) (more : small.locals ⊆ large.locals)
    {passed : ImportantLocals} (h : small.transition tcx args callee = .ok passed) :
    ∃ passed', large.transition tcx args callee = .ok passed' ∧ passed.locals ⊆ passed'.locals := by
  unfold transition at h ⊢
  split
  · rename_i constructor_
    rw [if_pos constructor_] at h
    exact ⟨passed, h, Finset.Subset.refl _⟩
  · rename_i function
    rw [if_neg function] at h
    cases targeted : small.targets tcx args callee with
    | error f => simp [targeted, bind, Except.bind] at h
    | ok found =>
      obtain ⟨found', targeted', sub⟩ := targetsGrow more targeted
      simp only [targeted, targeted', bind, Except.bind] at h ⊢
      split
      · rename_i available
        rw [if_pos available] at h
        cases Except.ok.inj h
        refine ⟨_, rfl, ?_⟩
        intro x mem
        exact List.mem_toFinset.mpr (grow callee found found' sub (List.mem_toFinset.mp mem))
      · rename_i missing_
        rw [if_neg missing_] at h
        cases Except.ok.inj h
        refine ⟨_, rfl, ?_⟩
        intro x mem
        exact List.mem_toFinset.mpr (sub (List.mem_toFinset.mp mem))

theorem transitionFails {f : Fault} (h : small.transition tcx args callee = .error f) :
    large.transition tcx args callee = .error f := by
  unfold transition targets at h ⊢
  split at h
  · contradiction
  · rename_i function
    rw [if_neg function]
    split at h
    · rename_i closure
      rw [if_pos closure]
      exact h
    · simp only [bind, Except.bind] at h
      split at h <;> contradiction

end ImportantLocals

namespace Verdict

def Covers (n n' : Node) : Prop := n.item = n'.item ∧ n.locals.locals ⊆ n'.locals.locals

structure Relaxed (cfg cfg' : Setup) : Prop where
  storage : cfg'.storage = cfg.storage
  visitFuel : cfg'.visitFuel = cfg.visitFuel
  allowlist : cfg.allowlist ⊆ cfg'.allowlist
  trusted : cfg.trustedStdlib ⊆ cfg'.trustedStdlib

section
variable {tcx : TyCtxt} {cfg cfg' : Setup} {n n' : Node}

theorem matchesMore {patterns patterns' : List String} (more : patterns ⊆ patterns') {defId : DefId}
    (h : Setup.matchesAny tcx patterns defId = true) : Setup.matchesAny tcx patterns' defId = true := by
  obtain ⟨lib, mem, matched⟩ := List.any_eq_true.mp h
  exact List.any_eq_true.mpr ⟨lib, more mem, matched⟩

theorem Relaxed.exempt (relaxed : Relaxed cfg cfg') (covers : Covers n n')
    (h : Exempt tcx cfg n') : Exempt tcx cfg' n := by
  unfold Exempt Setup.exempt Setup.isAllowlisted Setup.isTrusted at h ⊢
  rw [covers.1]
  simp only [Bool.or_eq_true, Bool.and_eq_true] at h ⊢
  rcases h with (empty | allowed) | ⟨trusted, receiver⟩
  · left; left
    have none_ : n'.locals.locals = ∅ := of_decide_eq_true empty
    exact decide_eq_true (Finset.subset_empty.mp (none_ ▸ covers.2))
  · exact .inl (.inr (matchesMore relaxed.allowlist allowed))
  · exact .inr ⟨matchesMore relaxed.trusted trusted, receiver⟩

theorem Relaxed.transmute (relaxed : Relaxed cfg cfg') (item : FunctionInfo) :
    cfg'.transmute tcx item = cfg.transmute tcx item := by
  unfold Setup.transmute
  rw [relaxed.visitFuel]

theorem Relaxed.step (relaxed : Relaxed cfg cfg') (grow : ImportantLocals.DependentsGrow tcx)
    (covers : Covers n n') {m : Node} (h : Step tcx cfg' n m) :
    ∃ m', Step tcx cfg n' m' ∧ Covers m m' := by
  obtain ⟨live, calls, hc, call, mem, found, passed⟩ := h
  obtain ⟨locals', passed', more⟩ := ImportantLocals.transitionGrows grow covers.2 passed
  refine ⟨⟨m.item, locals'⟩, ⟨fun exempt => live (relaxed.exempt covers exempt), calls,
    covers.1 ▸ hc, call, mem, ?_, passed'⟩, rfl, more⟩
  rw [← relaxed.storage]
  exact found

theorem Relaxed.bad (relaxed : Relaxed cfg cfg') (covers : Covers n n') (h : Bad tcx cfg' n) :
    Bad tcx cfg n' := by
  unfold Bad at h ⊢
  rwa [relaxed.transmute, covers.1] at h

theorem Relaxed.stuck (relaxed : Relaxed cfg cfg') (covers : Covers n n') (h : Stuck tcx cfg' n) :
    Stuck tcx cfg n' := by
  unfold Stuck at h ⊢
  rw [relaxed.transmute, covers.1] at h
  refine h.imp id (And.imp (fun live exempt => live (relaxed.exempt covers exempt)) ?_)
  refine Or.imp id (Or.imp id ?_)
  intro failing
  obtain ⟨calls, hc, call, mem, f, failed⟩ := failing
  exact ⟨calls, hc, call, mem, f, ImportantLocals.transitionFails failed⟩

theorem Relaxed.reaches (relaxed : Relaxed cfg cfg') (grow : ImportantLocals.DependentsGrow tcx)
    {goal goal' : Node → Prop} (keeps : ∀ m m', Covers m m' → goal m → goal' m')
    (covers : Covers n n') (h : Reach.Reaches (Step tcx cfg') goal n) :
    Reach.Reaches (Step tcx cfg) goal' n' :=
  Reach.reachesAlong Covers (fun _ _ _ covers edge => relaxed.step grow covers edge) keeps covers h

theorem verdictMonotone (relaxed : Relaxed cfg cfg') (grow : ImportantLocals.DependentsGrow tcx)
    (resolves : ∀ f ∈ cfg.storage.fns, cfg.storage.Resolves f)
    (wellFounded : WellFounded cfg.storage.FirstCall) (item : FunctionInfo)
    (start : cfg.storage.Resolves item) :
    ∃ enough, ∀ fuel ≥ enough, ∀ fuel' ≥ enough, ∀ locals locals' : ImportantLocals,
      locals.locals ⊆ locals'.locals → ∀ verdict report,
        analyzeItem tcx cfg fuel item locals' .empty = .ok (verdict, report) →
          ∃ verdict' report', analyzeItem tcx cfg' fuel' item locals .empty = .ok (verdict', report') ∧
            (verdict = true → verdict' = true) ∧ report'.deps ⊆ report.deps := by
  have resolves' : ∀ f ∈ cfg'.storage.fns, cfg'.storage.Resolves f := relaxed.storage ▸ resolves
  obtain ⟨enough, meets⟩ := walkEnds tcx resolves wellFounded start
  obtain ⟨enough', meets'⟩ := walkEnds tcx resolves' (relaxed.storage ▸ wellFounded)
    (relaxed.storage ▸ start : cfg'.storage.Resolves item)
  refine ⟨max enough enough', fun fuel hfuel fuel' hfuel' locals locals' more verdict report h => ?_⟩
  have covers : Covers ⟨item, locals⟩ ⟨item, locals'⟩ := ⟨rfl, more⟩
  have first := meets fuel (le_trans (le_max_left _ _) hfuel) locals' .empty
  have second := meets' fuel' (le_trans (le_max_right _ _) hfuel') locals .empty
  rw [h] at first
  cases h' : analyzeItem tcx cfg' fuel' item locals .empty with
  | error f =>
    rw [h'] at second
    exact absurd (relaxed.reaches grow (fun _ _ => relaxed.stuck) covers second.2) first.1
  | ok outcome =>
    obtain ⟨verdict', report'⟩ := outcome
    rw [h'] at second
    refine ⟨verdict', report', rfl, ?_, ?_⟩
    · intro positive
      by_contra negative
      have leak : Leaks tcx cfg' ⟨item, locals⟩ := second.2.mp (by simpa using negative)
      have leak' : Leaks tcx cfg ⟨item, locals'⟩ := relaxed.reaches grow
        (fun m m' covers found => ⟨fun exempt => found.1 (relaxed.exempt covers exempt),
          relaxed.bad covers found.2⟩) covers leak
      exact absurd (first.2.mpr leak') (by simp [positive])
    · intro crate mem
      have reported' := @reported tcx cfg' fuel' ⟨item, locals⟩ _ _ h'
      have reported_ := @reported tcx cfg fuel ⟨item, locals'⟩ _ _ h
      obtain ⟨path, m, reached, names⟩ := (reported'.deps crate).mp mem
      obtain ⟨m', further, names'⟩ := relaxed.reaches grow
        (fun m m' covers (names : Names tcx m.item crate) =>
          (covers.1 ▸ names : Names tcx m'.item crate)) covers ⟨m, atReaches reached, names⟩
      obtain ⟨path', reached'⟩ := reachesAt further
      exact (reported_.deps crate).mpr ⟨path', m', reached', names'⟩

end

noncomputable def allowingSetup : Setup := {pairSetup with allowlist := ["callee"]}

theorem pairRelaxed : Relaxed pairSetup allowingSetup :=
  ⟨rfl, rfl, List.nil_subset _, List.Subset.refl _⟩

theorem pairMonotone : ∃ enough, ∀ fuel ≥ enough, ∀ fuel' ≥ enough, ∀ locals locals' : ImportantLocals,
    locals.locals ⊆ locals'.locals → ∀ verdict report,
      analyzeItem pairCrate pairSetup fuel pairCaller locals' .empty = .ok (verdict, report) →
        ∃ verdict' report',
          analyzeItem pairCrate allowingSetup fuel' pairCaller locals .empty = .ok (verdict', report') ∧
          (verdict = true → verdict' = true) ∧ report'.deps ⊆ report.deps :=
  verdictMonotone pairRelaxed (fun _ _ _ sub => sub) (fun _ => pairOrdered.resolves)
    pairOrdered.wellFounded pairCaller (pairOrdered.resolves (by simp [pairSetup]))

end Verdict
end Scrutinizer
