import Scrutinizer.TypedPrograms

/-! Programs without recursion. No call leads back to a function that it comes from, so nothing is
skipped and the verdict is exact. -/
namespace Scrutinizer
namespace Recursion

def Acyclic (tcx : TyCtxt) : Prop :=
  ∀ did, ¬ Relation.TransGen (fun caller callee => ∃ args, CallsWith tcx caller args callee) did did

section
variable {tcx : TyCtxt} {cfg : Setup} {origin : DefId}

theorem calleesCalled {did callee : DefId} (mem : callee ∈ callees tcx did) :
    ∃ args, CallsWith tcx did args callee := by
  unfold callees at mem
  split at mem
  · rename_i body has
    obtain ⟨bb, _, found⟩ := List.mem_filterMap.mp (List.mem_filter.mp mem).1
    obtain ⟨⟨args, _⟩, calls, rfl⟩ := Option.map_eq_some_iff.mp found
    exact ⟨args, body, bb, has, calls⟩
  · exact absurd mem List.not_mem_nil

theorem neverBack (acyclic : Acyclic tcx) {caller callee : DefId} {args : List Operand}
    (calls : CallsWith tcx caller args callee) : ¬ OnFirstPath tcx origin caller callee := by
  intro back
  obtain ⟨path, first, mem⟩ := back
  have onward := Relation.ReflTransGen.mono (fun _ _ edge => calleesCalled edge) _ _ (first.onward callee mem)
  exact acyclic callee (.tail' onward ⟨args, calls⟩)

theorem forwardIff (acyclic : Acyclic tcx) (n m : Frame) : ForwardCall tcx cfg origin n m ↔ Call tcx cfg n m := by
  constructor
  · exact And.left
  · intro call
    have ⟨_, _, calls, _⟩ := call
    exact ⟨call, neverBack acyclic calls⟩

end

def chainBody (next : DefId) : Body :=
  ⟨1, [Ty.unit, Ty.usize], [.calling next [.copy (.fromLocal 1)] 1, .returning], [], 0⟩

noncomputable def chainCrate : TyCtxt := {TyCtxt.plain (.listed [] List.nodup_nil) with
  loadBodyAndFacts := fun did => if did < 2 then some (chainBody (did + 1)) else none
  fnSig := fun _ => ⟨[.usize], .unit⟩}

theorem chainBodyOf {did : DefId} {body : Body} (has : functionBody chainCrate did = some body) :
    did < 2 ∧ body = chainBody (did + 1) := by
  by_cases small : did < 2
  · have loaded : chainCrate.loadBodyAndFacts did = some (chainBody (did + 1)) := if_pos small
    simp only [functionBody, TyCtxt.isMirAvailable, loaded, Option.isSome_some, if_true, TyCtxt.substitutedMir,
      itemOf] at has
    exact ⟨small, (Option.some.inj has).symm⟩
  · have unloaded : chainCrate.loadBodyAndFacts did = none := if_neg small
    have missing : chainCrate.isMirAvailable did = false := by
      simp only [TyCtxt.isMirAvailable, unloaded, Option.isSome_none]
    simp [functionBody, missing] at has

theorem chainCalls {did callee : DefId} {args : List Operand} (calls : CallsWith chainCrate did args callee) :
    did < 2 ∧ args = [.copy (.fromLocal 1)] ∧ callee = did + 1 := by
  obtain ⟨body, bb, has, at_⟩ := calls
  obtain ⟨small, rfl⟩ := chainBodyOf has
  match bb with
  | 0 => cases Option.some.inj at_; exact ⟨small, rfl, rfl⟩
  | 1 => cases at_
  | bb + 2 => cases at_

theorem chainProgram : DirectProgram chainCrate (· < 3) where
  noClosure _ _ := rfl
  resolved _ _ _ := rfl
  unresolved did inst _ missing found := by cases Option.some.inj found; exact missing
  present did _ ty mem := by
    cases List.mem_singleton.mp mem
    decide +kernel
  declared did body _ has := by
    obtain ⟨_, rfl⟩ := chainBodyOf has
    rfl
  direct did body data _ has mem := by
    obtain ⟨_, rfl⟩ := chainBodyOf has
    simp only [chainBody, List.mem_cons, List.not_mem_nil, or_false] at mem
    rcases mem with rfl | rfl
    · exact ⟨did + 1, rfl⟩
    · trivial
  called did args callee _ calls := by
    obtain ⟨small, rfl, rfl⟩ := chainCalls calls
    exact ⟨Nat.succ_lt_succ small, rfl⟩
  edges did body bb data _ has _ atBlock := by
    obtain ⟨_, rfl⟩ := chainBodyOf has
    rcases bb with _ | _ | bb
    · cases Option.some.inj atBlock
      intro target mem
      cases List.mem_singleton.mp mem
      exact List.mem_range.mpr Nat.one_lt_two
    · cases Option.some.inj atBlock
      exact fun target mem => absurd mem List.not_mem_nil
    · cases atBlock

theorem chainAcyclic : Acyclic chainCrate := by
  have rises : ∀ {did callee : DefId}, Relation.TransGen (fun caller callee =>
      ∃ args, CallsWith chainCrate caller args callee) did callee → did < callee := by
    intro did callee calls
    induction calls with
    | single call =>
      obtain ⟨_, call⟩ := call
      exact (chainCalls call).2.2 ▸ Nat.lt_succ_self _
    | tail _ call ih =>
      obtain ⟨_, call⟩ := call
      exact Nat.lt_trans ih ((chainCalls call).2.2 ▸ Nat.lt_succ_self _)
  exact fun did back => Nat.lt_irrefl did (rises back)

theorem chainStarts : ∀ did < 2, (Collector.initialPlaces chainCrate
    (Collector.functionCollector chainCrate did (chainBody (did + 1)))).isSome = true := by
  decide +kernel

noncomputable def chainPlaces (did : DefId) (small : did < 2) : PlaceMap :=
  (Collector.initialPlaces chainCrate (Collector.functionCollector chainCrate did (chainBody (did + 1)))).get
    (chainStarts did small)

theorem chainTyped : Collector.Typed chainCrate (· < 3) := by
  intro did body _ has
  obtain ⟨small, rfl⟩ := chainBodyOf has
  have plain : ∀ did small, ∀ entry ∈ (chainPlaces did small).entries, entry.2.isPresent = true := by decide +kernel
  have unitHeld : ∀ did small, (chainPlaces did small).get .returnPlace = some (.present Ty.unit) := by decide +kernel
  have passed : ∀ did small, ((CollectorDomain.new (chainPlaces did small)).constructArgs chainCrate
      (chainBody (did + 1)) did [.copy (.fromLocal 1)]).isSome = true := by decide +kernel
  have quiet : ∀ data ∈ (chainBody (did + 1)).basicBlocks, data.statements = [] := by
    simp [chainBody, BasicBlockData.calling, BasicBlockData.returning]
  have called : ∀ data ∈ (chainBody (did + 1)).basicBlocks, ∀ func args destination target unwind,
      data.terminator = .call func args destination target unwind →
        destination = .returnPlace ∧ args = [.copy (.fromLocal 1)] := by
    intro data mem func args destination target unwind terminator
    simp only [chainBody, List.mem_cons, List.not_mem_nil, or_false] at mem
    rcases mem with rfl | rfl <;> cases terminator
    exact ⟨rfl, rfl⟩
  have drops : ∀ data ∈ (chainBody (did + 1)).basicBlocks, ∀ place target unwind,
      data.terminator ≠ .drop place target unwind := by
    intro data mem place target unwind terminator
    simp only [chainBody, List.mem_cons, List.not_mem_nil, or_false] at mem
    rcases mem with rfl | rfl <;> cases terminator
  have edges : ∀ data ∈ (chainBody (did + 1)).basicBlocks, ∀ target ∈ data.terminator.edges, target < 2 := by
    simp [chainBody, BasicBlockData.calling, BasicBlockData.returning, Terminator.edges]
  have taken : Collector.Assignable chainCrate (chainBody (did + 1)) did (chainPlaces did small) .returnPlace :=
    ⟨Ty.unit, [(.returnPlace, .present Ty.unit)], unitHeld did small, rfl,
      List.forall_mem_singleton.mpr ⟨_, unitHeld did small⟩⟩
  refine ⟨chainPlaces did small, ?_⟩
  exact {
    closures := fun ty mem => absurd mem List.not_mem_nil
    starts := (Option.some_get (chainStarts did small)).symm
    present := fun p tracked held => plain did small _ (HashMap.getMem.mp held)
    nonempty := Nat.two_pos
    order := fun bb mem => List.mem_range.mp mem
    edges := edges
    rvalues := fun data mem place rvalue inside => absurd (quiet data mem ▸ inside) List.not_mem_nil
    assigned := fun data mem place rvalue inside => absurd (quiet data mem ▸ inside) List.not_mem_nil
    args := fun data mem func args destination target unwind terminator =>
      Option.isSome_iff_exists.mp ((called data mem func args destination target unwind terminator).2 ▸ passed did small)
    destinations := fun data mem func args destination target unwind terminator =>
      (called data mem func args destination target unwind terminator).1 ▸ taken
    dropped := fun data mem place target unwind terminator => absurd terminator (drops data mem place target unwind)
    result := ⟨_, unitHeld did small⟩
    resultTy := ⟨.fromTy Ty.unit, rfl⟩ }

end Recursion
end Scrutinizer
