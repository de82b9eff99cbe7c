import Scrutinizer.BorrowedStores
import Scrutinizer.FieldWrites
import Scrutinizer.Fixpoints
import Scrutinizer.Library.Traces

/-! Bodies with branches, loops and calls: what is tracked at the end covers what the places hold at
every point of every path, as far as it does so in a row of statements. -/
namespace Scrutinizer
open CollectorDomain

theorem CollectorDomain.keepsOfKept {s t : CollectorDomain} (form : s.SameForm t) (kept : s.KeptBy t) :
    Keeps s.places t.places := by
  intro p old known
  obtain ⟨new, held, sub⟩ := kept.places p old known
  obtain ⟨old', known', same⟩ := form.found held
  cases Option.some.inj (known'.symm.trans known)
  refine ⟨new, held, sub, ?_⟩
  intro ty shape
  cases old with
  | present ty' =>
    cases new with
    | present ty'' => cases Option.some.inj same; exact shape
    | erased deps => cases same
  | erased deps =>
    cases new with
    | present ty' => cases same
    | erased deps' => exact shape

namespace Collector

def BlockStep {M : Type} (body : Body) (runs : List Statement → M → M → Prop)
    (leaves : Terminator → M → M → Prop) (bb : Nat) (m m' : M) : Prop :=
  ∃ data last, body.basicBlocks[bb]? = some data ∧ runs data.statements m last ∧
    leaves data.terminator last m'

def InBlock {M : Type} (body : Body) (runs : List Statement → M → M → Prop) (bb : Nat) (m m' : M) : Prop :=
  ∃ data done rest, body.basicBlocks[bb]? = some data ∧ data.statements = done ++ rest ∧ runs done m m'

section
variable {M : Type} {tcx : TyCtxt} {c : Collector} {descend : Collector → Exec Session CollectorDomain}
  {runs : List Statement → M → M → Prop} {leaves : Terminator → M → M → Prop}
  {Rel : M → CollectorDomain → Prop}

theorem keptRule (tcx : TyCtxt) (c : Collector) (descend : Collector → Exec Session CollectorDomain)
    (base : CollectorDomain) : BodyRule tcx descend c (fun _ => True)
      (fun s => base.SameForm s ∧ base.KeptBy s) :=
  stateRule
    (fun held ok => ⟨held.1.trans (formUpdated ok).symm, held.2.trans (updateKept ok)⟩)
    (fun _ held => ⟨held.1, held.2.places, held.2.calls.trans (Finset.subset_insert _ _), held.2.unhandled⟩)
    (fun _ held => ⟨held.1, held.2.places, held.2.calls, held.2.unhandled.trans (Finset.subset_insert _ _)⟩)
    (fun held _ ok => ⟨held.1.trans (formJoined ok).symm, held.2.trans (keptLeft ok)⟩)

theorem statementsKept (descend : Collector → Exec Session CollectorDomain) {statements : List Statement}
    {a out : CollectorDomain} {s t : Session}
    (ran : statements.foldlM (applyStatementEffect tcx c) a s = (some out, t)) : a.SameForm out ∧ a.KeptBy out := by
  have rule := keptRule tcx c descend a
  have kept := Exec.wpFoldlM (fun _ state t => Leaves (fun _ => True)
      (fun s => a.SameForm s ∧ a.KeptBy s) state t)
    (fun statement rest state t before => rule.wpStatement before.1 before.2 statement)
    statements a s ⟨trivial, .refl a, .refl a⟩
  exact (Exec.wpResult kept ran).2

theorem terminatorKept {data : BasicBlockData} (mem : data ∈ c.substitutedBody.basicBlocks)
    {a out : CollectorDomain} {s t : Session}
    (ran : applyTerminatorEffect tcx descend c a data.terminator s = (some out, t)) :
    a.SameForm out ∧ a.KeptBy out := by
  have kept := (keptRule tcx c descend a).wpTerminator (s := s) trivial ⟨.refl a, .refl a⟩ mem
  exact (Exec.wpResult kept ran).2

structure Tracked (tcx : TyCtxt) (c : Collector) (runs : List Statement → M → M → Prop)
    (leaves : Terminator → M → M → Prop) (Rel : M → CollectorDomain → Prop) : Prop where
  upward : ∀ m a b, Keeps a.places b.places → Rel m a → Rel m b
  run : ∀ data ∈ c.substitutedBody.basicBlocks, ∀ done rest, data.statements = done ++ rest →
    ∀ m m' s session, Rel m s → runs done m m' →
      Exec.wp (done.foldlM (applyStatementEffect tcx c) s) (fun out _ => Rel m' out) (fun _ => True) session
  leave : ∀ data ∈ c.substitutedBody.basicBlocks, ∀ m m' s, Rel m s → leaves data.terminator m m' → Rel m' s

theorem effectParts {Before : Session → Prop} {bb : Nat} {a out : CollectorDomain}
    (effect : (analysis tcx descend c).EffectIn Before bb a out)
    {data : BasicBlockData} (here : c.substitutedBody.basicBlocks[bb]? = some data) :
    ∃ s t u after, data.statements.foldlM (applyStatementEffect tcx c) a s = (some after, t) ∧
      applyTerminatorEffect tcx descend c after data.terminator t = (some out, u) ∧ Before u := by
  obtain ⟨s, u, applied, known⟩ := effect
  obtain ⟨data', _, listed, applied⟩ := Exec.bindSome.mp applied
  obtain ⟨here', rfl⟩ := Exec.liftSome.mp listed
  cases Option.some.inj (here.symm.trans here')
  obtain ⟨after, t, statements, last⟩ := Exec.bindSome.mp applied
  exact ⟨_, t, u, after, statements, last, known⟩

theorem callEffect {state out : CollectorDomain} {s u : Session} {functionTy : Ty} {target unwind : Option Nat}
    {func : Operand} {args : List Operand} {destination : Place}
    (functionIs : func.ty tcx c.substitutedBody = .ok functionTy)
    (effect : applyTerminatorEffect tcx descend c state (.call func args destination target unwind) s = (some out, u)) :
    ∃ argTys, state.constructArgs tcx c.substitutedBody c.defId args = some argTys ∧
      processCall tcx descend c functionTy args argTys state (some destination) s = (some out, u) := by
  obtain ⟨functionTy', _, typing, last⟩ := Exec.bindSome.mp effect
  obtain ⟨is, rfl⟩ := Exec.liftSome.mp typing
  cases Except.ok.inj (functionIs.symm.trans (Exec.toOptionSome.mp is))
  obtain ⟨argTys, _, passing, last⟩ := Exec.bindSome.mp last
  obtain ⟨constructed, rfl⟩ := Exec.liftSome.mp passing
  exact ⟨argTys, constructed, last⟩

theorem dropEffect {state out : CollectorDomain} {s u : Session} {functionTy : Ty} {target : Nat}
    {unwind : Option Nat} {place : Place} {placeTy : PlaceTy} (placeIs : place.ty tcx c.substitutedBody = .ok placeTy)
    (destroys : dropCallee tcx placeTy.ty = some functionTy)
    (effect : applyTerminatorEffect tcx descend c state (.drop place target unwind) s = (some out, u)) :
    processCall tcx descend c functionTy [.copy place] ⟨[.fromTy (.ref placeTy.ty .mut)]⟩ state none s =
      (some out, u) := by
  obtain ⟨placeTy', _, typing, last⟩ := Exec.bindSome.mp effect
  obtain ⟨is, rfl⟩ := Exec.liftSome.mp typing
  cases Except.ok.inj (placeIs.symm.trans (Exec.toOptionSome.mp is))
  rw [destroys] at last
  exact last

variable (tracked : Tracked tcx c runs leaves Rel)
include tracked

theorem Tracked.inBlock {bb : Nat} {m m' : M} {a out : CollectorDomain} (described : Rel m a)
    (inside : InBlock c.substitutedBody runs bb m m') (effect : (analysis tcx descend c).Effect bb a out) :
    Rel m' out := by
  obtain ⟨data, done, rest, here, split, ran⟩ := inside
  have mem := List.mem_of_getElem? here
  obtain ⟨_, _, _, after, statements, last, _⟩ := effectParts effect.known here
  rw [split] at statements
  obtain ⟨mid, _, first, later⟩ := Exec.foldlMSplit statements
  have now := Exec.wpResult (tracked.run data mem done rest split m m' a _ described ran) first
  obtain ⟨form, kept⟩ := statementsKept descend later
  obtain ⟨form', kept'⟩ := terminatorKept mem last
  exact tracked.upward m' mid out (keepsOfKept (form.trans form') (kept.trans kept')) now

theorem Tracked.describes (bottom : CollectorDomain) : (analysis tcx descend c).Describes
    (fun s => s.SameForm bottom) KeptBy (BlockStep c.substitutedBody runs leaves) Rel := by
  constructor
  · intro m a b good good' kept described
    exact tracked.upward m a b (keepsOfKept (good.trans good'.symm) kept) described
  · intro bb m m' a out described stepped effect
    obtain ⟨data, last, here, ran, left⟩ := stepped
    have atEnd := tracked.inBlock described
      ⟨data, data.statements, [], here, (List.append_nil _).symm, ran⟩ effect
    exact tracked.leave data (List.mem_of_getElem? here) last m' out atEnd left

theorem Tracked.reaches {Before : Session → Prop}
    (backward : ∀ bb d, Exec.Backward Before ((analysis tcx descend c).apply bb d))
    (inOrder : ∀ bb ∈ tcx.reversePostorder c.substitutedBody,
      ∀ target ∈ (analysis tcx descend c).edges bb, target ∈ tcx.reversePostorder c.substitutedBody)
    (entered : 0 ∈ tcx.reversePostorder c.substitutedBody) {start m : M} {bb fuel : Nat}
    {session session' : Session} {result : CollectorDomain}
    (starts : Exec.wp (bottomValue tcx c) (fun bottom _ => Rel start bottom) (fun _ => True) session)
    (analysed : analyzeBody tcx descend fuel c session = (some result, session')) (known : Before session')
    (path : Analysis.Path (analysis tcx descend c).edges (BlockStep c.substitutedBody runs leaves) 0 start bb m) :
    ∃ state out, Rel m state ∧ (analysis tcx descend c).EffectIn Before bb state out ∧ out.SameForm result ∧
      out.KeptBy result := by
  obtain ⟨bottom, s, started, ran⟩ := Exec.bindSome.mp analysed
  have described : Rel start bottom := @Exec.wpResult _ _ (fun bottom _ => Rel start bottom) _ _ _ _ _ starts started
  obtain ⟨state, out, here, effect, good, goodResult, up⟩ := Analysis.runTraces (joining bottom)
    (tracked.describes bottom) backward (.refl bottom) inOrder entered described ran known path
  exact ⟨state, out, here, effect, good.trans goodResult.symm, up⟩

theorem Tracked.everywhere
    (inOrder : ∀ bb ∈ tcx.reversePostorder c.substitutedBody,
      ∀ target ∈ (analysis tcx descend c).edges bb, target ∈ tcx.reversePostorder c.substitutedBody)
    (entered : 0 ∈ tcx.reversePostorder c.substitutedBody) {start m final : M} {bb fuel : Nat}
    {session session' : Session} {result : CollectorDomain}
    (starts : Exec.wp (bottomValue tcx c) (fun bottom _ => Rel start bottom) (fun _ => True) session)
    (analysed : analyzeBody tcx descend fuel c session = (some result, session'))
    (path : Analysis.Path (analysis tcx descend c).edges (BlockStep c.substitutedBody runs leaves) 0 start bb m)
    (inside : InBlock c.substitutedBody runs bb m final) : Rel final result := by
  have any : ∀ bb d, Exec.Backward (fun _ => True) ((analysis tcx descend c).apply bb d) :=
    fun _ _ _ _ _ _ _ => trivial
  obtain ⟨state, out, here, effect, form, kept⟩ := tracked.reaches any inOrder entered starts analysed trivial path
  exact tracked.upward final out result (keepsOfKept form kept) (tracked.inBlock here inside effect.effect)

end
end Collector

namespace Borrows
open Collector (BlockStep InBlock analysis analyzeBody)

def Runs (body : Body) (statements : List Statement) (m m' : Machine) : Prop :=
  Faithful body m statements ∧ m.run body statements = some m'

/- A call or a drop may change any memory. What it brings there is not known under a name. -/
def Leaves (_ : Terminator) (m m' : Machine) : Prop := m'.history = m.history

theorem soundKept {body : Body} {m : Machine} {before after : PlaceMap} (keeps : Keeps before after)
    (sound : Sound body m before) : Sound body m after :=
  ⟨shapedKept keeps sound.shaped, fun place assigned mem => spreadKept keeps (sound.spread place assigned mem)⟩

section
variable {tcx : TyCtxt} {c : Collector} {descend : Collector → Exec Session CollectorDomain}
  (fragment : Fragment tcx c.defId c.substitutedBody)
  (typed : ∀ data ∈ c.substitutedBody.basicBlocks, ∀ statement ∈ data.statements, Typed c.substitutedBody statement)
include fragment typed

theorem runsTracked : Collector.Tracked tcx c (Runs c.substitutedBody) Leaves
    (fun m s => Sound c.substitutedBody m s.places) := by
  refine ⟨?_, ?_, ?_⟩
  · exact fun m a b keeps sound => soundKept keeps sound
  · intro data mem done rest split m m' s session sound ran
    have first : ∀ statement ∈ done, Typed c.substitutedBody statement :=
      fun statement inside => typed data mem statement (split ▸ List.mem_append_left rest inside)
    exact soundRun fragment first sound ran.1 ran.2
  · intro data _ m m' s sound left
    exact ⟨sound.shaped, fun place assigned mem => sound.spread place assigned (left ▸ mem)⟩

theorem pathReferentTracked {inst : Instance} {args : ArgTys} {start : Machine}
    (isFunction : c.currentFunction = .function inst args) (noClosure : tcx.isClosure c.defId = false)
    (passed : Passed c.substitutedBody args start)
    (inOrder : ∀ bb ∈ tcx.reversePostorder c.substitutedBody,
      ∀ target ∈ (analysis tcx descend c).edges bb, target ∈ tcx.reversePostorder c.substitutedBody)
    (entered : 0 ∈ tcx.reversePostorder c.substitutedBody) {fuel : Nat} {session session' : Session}
    {result : CollectorDomain} (analysed : analyzeBody tcx descend fuel c session = (some result, session'))
    {bb : Nat} {m final : Machine}
    (path : Analysis.Path (analysis tcx descend c).edges (BlockStep c.substitutedBody (Runs c.substitutedBody) Leaves)
      0 start bb m)
    (inside : InBlock c.substitutedBody (Runs c.substitutedBody) bb m final) :
    ∀ place ty deps shown, declared c.substitutedBody place = some ty → containsErased ty = true →
      result.get place = some (.erased deps) → final.UpToDate c.substitutedBody place →
        final.read c.substitutedBody place = some shown → shown ∈ deps := by
  have sound := (runsTracked fragment typed).everywhere inOrder entered
    (soundBottom fragment isFunction noClosure passed session) analysed path inside
  intro place ty deps shown at_ erased known fresh read
  obtain ⟨deps', held, mem⟩ := gaveTracked sound at_ erased (fresh ty shown at_ erased read)
  cases Option.some.inj (known.symm.trans held)
  exact mem

end

def makes (ty : Ty) (value reference target : Nat) : List Statement :=
  [.assign (.fromLocal value) (.useOperand (.constant ty)),
   .assign (.fromLocal reference) (.ref .shared (.fromLocal value)),
   .assign (.fromLocal target) (.cast .unsize (.move (.fromLocal reference)) (shared object))]

section
variable {body : Body} {ty : Ty} {value reference target : Nat} (plain : containsErased ty = false)
  (valueTy : declared body (.fromLocal value) = some ty)
include plain valueTy

theorem makesTyped (referenceTy : declared body (.fromLocal reference) = some (shared ty))
    (targetTy : declared body (.fromLocal target) = some (shared object)) :
    ∀ statement ∈ makes ty value reference target, Typed body statement := by
  simp only [makes, List.forall_mem_cons, List.not_mem_nil, false_implies, implies_true, and_true]
  exact ⟨.assign valueTy (.constant plain), .assign referenceTy (.ref valueTy),
    .assign targetTy (.unsize (.inr rfl) referenceTy plain)⟩

theorem makesFaithful {m : Machine} : Faithful body m (makes ty value reference target) := by
  refine ⟨by simp [readsOf, reads, Operand.place], fun next _ => ⟨?_, fun next _ =>
    ⟨by simp [readsOf, reads], fun _ _ => trivial⟩⟩⟩
  exact List.forall_mem_singleton.mpr (plainFresh valueTy plain)

end

def remade : List Statement :=
  [.assign (.fromLocal 5) (.useOperand (.constant (known 2))),
   .assign (.fromLocal 6) (.ref .shared (.fromLocal 5)),
   .assign (.fromLocal 3) (.cast .unsize (.move (.fromLocal 6)) (shared object))]

def choosingBody : Body :=
  {traitBody with basicBlocks := [⟨made, .other [1]⟩, ⟨[], .other [2, 3]⟩, ⟨remade, .other [1]⟩, .returning]}

def chooser : Collector := ⟨[], [], .function ⟨.item, 0, []⟩ ⟨[]⟩, choosingBody, false⟩

def afterMade : Machine := (Machine.empty.run choosingBody made).getD Machine.empty

def afterRemade : Machine := (afterMade.run choosingBody remade).getD Machine.empty

theorem roundsTyped {blocks : List BasicBlockData}
    (rounds : ∀ data ∈ blocks, data.statements = made ∨ data.statements = remade ∨ data.statements = []) :
    ∀ data ∈ blocks, ∀ statement ∈ data.statements, Typed {traitBody with basicBlocks := blocks} statement := by
  intro data mem
  rcases rounds data mem with one | another | none
  · exact one ▸ makesTyped rfl rfl rfl rfl
  · exact another ▸ makesTyped rfl rfl rfl rfl
  · exact fun statement inside => absurd (none ▸ inside) List.not_mem_nil

theorem choosingRuns : Runs choosingBody made Machine.empty afterMade ∧
    Runs choosingBody remade afterMade afterRemade :=
  ⟨⟨makesFaithful rfl rfl, rfl⟩, ⟨makesFaithful rfl rfl, rfl⟩⟩

theorem choosingTracked : ∃ result session,
    analyzeBody traitCrate (fun _ => Exec.fail) 30 chooser (Collector.startSession ⟨.item, 0, []⟩) =
      (some result, session) ∧
    afterRemade.read choosingBody (.fromLocal 3) = some (shared (known 2)) ∧
    ∀ place ty deps shown, declared choosingBody place = some ty → containsErased ty = true →
      result.get place = some (.erased deps) → afterRemade.UpToDate choosingBody place →
        afterRemade.read choosingBody place = some shown → shown ∈ deps := by
  have ends : (analyzeBody traitCrate (fun _ => Exec.fail) 30 chooser
      (Collector.startSession ⟨.item, 0, []⟩)).1.isSome = true := by decide +kernel
  have passed : Passed choosingBody ⟨[]⟩ Machine.empty := fun _ _ mem => absurd mem List.not_mem_nil
  have inOrder : ∀ bb ∈ traitCrate.reversePostorder chooser.substitutedBody,
      ∀ target ∈ (analysis traitCrate (fun _ => Exec.fail) chooser).edges bb,
        target ∈ traitCrate.reversePostorder chooser.substitutedBody := by decide +kernel
  have fragment : Fragment traitCrate chooser.defId chooser.substitutedBody := borrowingFragment _ _ _
  obtain ⟨first, second⟩ := choosingRuns
  have still : ∀ m : Machine, Runs choosingBody [] m m := fun m => ⟨trivial, rfl⟩
  let Reaches := Analysis.Path (analysis traitCrate (fun _ => Exec.fail) chooser).edges
    (BlockStep choosingBody (Runs choosingBody) Leaves) 0 Machine.empty
  have entering : Reaches 1 afterMade := Analysis.Path.here.further ⟨_, _, rfl, first, rfl⟩ (by decide)
  have staying : Reaches 2 afterMade := entering.further ⟨_, _, rfl, still _, rfl⟩ (by decide)
  have again : Reaches 1 afterRemade := staying.further ⟨_, _, rfl, second, rfl⟩ (by decide)
  have path : Reaches 3 afterRemade := again.further ⟨_, _, rfl, still _, rfl⟩ (by decide)
  exact ⟨_, _, Prod.ext (Option.some_get ends).symm rfl, rfl,
    pathReferentTracked fragment (roundsTyped (by decide)) rfl rfl passed inOrder (by decide)
      (Prod.ext (Option.some_get ends).symm rfl) path ⟨_, [], [], rfl, rfl, still _⟩⟩

end Borrows

def Machine.Runs (body : Body) (statements : List Statement) (m m' : Machine) : Prop :=
  m.Faithful body statements ∧ m.run statements = some m'

/- The machine has no calls: it leaves only by terminators that make none. -/
def Machine.Leaves (tcx : TyCtxt) (body : Body) (terminator : Terminator) (m m' : Machine) : Prop :=
  m' = m ∧ ∀ functionTy, ¬ Collector.TakesFunction tcx body terminator functionTy

theorem Sound.kept {body : Body} {m : Machine} {before after : PlaceMap} (sound : Sound body m before)
    (keeps : Keeps before after) : Sound body m after := by
  constructor
  · intro place ty at_
    obtain ⟨old, ho, shape⟩ := sound.shape place ty at_
    obtain ⟨new, hn, _, kept⟩ := keeps place old ho
    exact ⟨new, hn, kept ty shape⟩
  · exact sound.fits
  · intro place ty tracked given at_ known gave
    obtain ⟨old, ho, _⟩ := sound.shape place ty at_
    obtain ⟨new, hn, grows, _⟩ := keeps place old ho
    cases Option.some.inj (hn.symm.trans known)
    exact (sound.gave place ty old given at_ ho gave).mono grows
  · exact sound.current

section
variable {tcx : TyCtxt} {c : Collector} {descend : Collector → Exec Session CollectorDomain}
  (fragment : TupleFragment tcx c.defId c.substitutedBody)
  (has : ∀ data ∈ c.substitutedBody.basicBlocks, ∀ statement ∈ data.statements,
    statement.HasTy c.substitutedBody)
include fragment has

theorem Machine.runsTracked : Collector.Tracked tcx c (Machine.Runs c.substitutedBody)
    (Machine.Leaves tcx c.substitutedBody) (fun m s => Sound c.substitutedBody m s.places) := by
  refine ⟨?_, ?_, ?_⟩
  · exact fun m a b keeps sound => sound.kept keeps
  · intro data mem done rest split m m' s session sound ran
    have first : ∀ statement ∈ done, statement.HasTy c.substitutedBody :=
      fun statement inside => has data mem statement (split ▸ List.mem_append_left rest inside)
    exact soundRun fragment first sound ran.1 ran.2
  · intro data _ m m' s sound left
    exact left.1 ▸ sound

theorem pathHeldTracked {inst : Instance} {args : ArgTys} {values : List Ty}
    (isFunction : c.currentFunction = .function inst args) (noClosure : tcx.isClosure c.defId = false)
    (known : KnownArgs c.substitutedBody 0 args.argTys values)
    (inOrder : ∀ bb ∈ tcx.reversePostorder c.substitutedBody,
      ∀ target ∈ (Collector.analysis tcx descend c).edges bb, target ∈ tcx.reversePostorder c.substitutedBody)
    (entered : 0 ∈ tcx.reversePostorder c.substitutedBody) {fuel : Nat} {session session' : Session}
    {result : CollectorDomain}
    (analysed : Collector.analyzeBody tcx descend fuel c session = (some result, session')) {bb : Nat}
    {m final : Machine}
    (path : Analysis.Path (Collector.analysis tcx descend c).edges
      (Collector.BlockStep c.substitutedBody (Machine.Runs c.substitutedBody)
        (Machine.Leaves tcx c.substitutedBody)) 0 (Machine.called values) bb m)
    (inside : Collector.InBlock c.substitutedBody (Machine.Runs c.substitutedBody) bb m final) :
    ∀ place ty deps value, declared c.substitutedBody place = some ty → ty.isHidden = true →
      result.get place = some (.erased deps) → final.read place = some value → value ∈ deps := by
  have sound := (Machine.runsTracked fragment has).everywhere inOrder entered
    (soundBottom fragment isFunction noClosure known session) analysed path inside
  intro place ty deps value at_ hidden held read
  have gave := sound.current place ty value at_ hidden read
  obtain ⟨d, mem, same⟩ := (sound.gave place ty _ value at_ held gave).hidden [] ty (Ty.componentNil ty) hidden
  rw [Ty.componentNil, Ty.componentNil] at same
  cases Option.some.inj same
  exact mem

end

def built (source boxed : Nat) : List Statement :=
  [.assign (.fromLocal boxed) (.cast .unsize (.move (.fromLocal source)) boxDyn),
   .assign (.fromLocal 3) (.aggregate .tuple [.move (.fromLocal boxed)])]

def rebuildingBody : Body :=
  {boxBody with basicBlocks := [⟨built 1 5, .other [1]⟩, ⟨[], .other [2, 3]⟩, ⟨built 2 6, .other [1]⟩,
    ⟨[.assign (.fromLocal 4) (.useOperand (.move (.fromLocal 3)))], .other []⟩]}

def rebuilder : Collector := ⟨[], [], .function ⟨.item, 0, []⟩ boxArgs, rebuildingBody, false⟩

def afterBuilt : Machine := ((Machine.called [boxOf 1, boxOf 2]).run (built 1 5)).getD Machine.empty

def afterRebuilt : Machine := (afterBuilt.run (built 2 6)).getD Machine.empty

def afterCopied : Machine :=
  (afterRebuilt.run [.assign (.fromLocal 4) (.useOperand (.move (.fromLocal 3)))]).getD Machine.empty

theorem rebuildingTyped : ∀ data ∈ rebuildingBody.basicBlocks, ∀ statement ∈ data.statements,
    statement.HasTy rebuildingBody := by
  have first : ∀ statement ∈ built 1 5, statement.HasTy rebuildingBody := by
    simp only [built, List.forall_mem_cons, List.not_mem_nil, false_implies, implies_true, and_true]
    exact ⟨.assign rfl (.unsize (.move rfl) (.inr rfl) rfl), .assign rfl (.tuple (.cons (.move rfl) .nil))⟩
  have second : ∀ statement ∈ built 2 6, statement.HasTy rebuildingBody := by
    simp only [built, List.forall_mem_cons, List.not_mem_nil, false_implies, implies_true, and_true]
    exact ⟨.assign rfl (.unsize (.move rfl) (.inr rfl) rfl), .assign rfl (.tuple (.cons (.move rfl) .nil))⟩
  intro data mem
  simp only [rebuildingBody, List.mem_cons, List.not_mem_nil, or_false] at mem
  rcases mem with rfl | rfl | rfl | rfl
  · exact first
  · exact fun _ none => absurd none List.not_mem_nil
  · exact second
  · intro statement mem
    cases List.mem_singleton.mp mem
    exact .assign rfl (.useOperand (.move rfl))

theorem rebuildingRuns :
    Machine.Runs rebuildingBody (built 1 5) (Machine.called [boxOf 1, boxOf 2]) afterBuilt ∧
    Machine.Runs rebuildingBody (built 2 6) afterBuilt afterRebuilt ∧
    Machine.Runs rebuildingBody [.assign (.fromLocal 4) (.useOperand (.move (.fromLocal 3)))] afterRebuilt
      afterCopied := by
  have reads : ∀ (m : Machine) (base : Nat) value, m.Gave (.fromLocal base) value →
      m.read (.fromLocal base) = some value →
        ∀ place ∈ [Place.fromLocal base], m.UpToDate rebuildingBody place := by
    intro m base value gave read place mem
    cases List.mem_singleton.mp mem
    exact Machine.upToDateWhole gave read
  refine ⟨⟨⟨?_, fun next h => ⟨?_, fun _ _ => trivial⟩⟩, rfl⟩,
    ⟨⟨?_, fun next h => ⟨?_, fun _ _ => trivial⟩⟩, rfl⟩, ⟨⟨?_, fun _ _ => trivial⟩, rfl⟩⟩
  · exact reads _ 1 (boxOf 1) ⟨.fromLocal 1, boxOf 1, [], by decide, rfl, rfl⟩ rfl
  · cases Option.some.inj h
    exact reads _ 5 (boxOf 1) ⟨.fromLocal 5, boxOf 1, [], by decide, rfl, rfl⟩ rfl
  · exact reads _ 2 (boxOf 2) ⟨.fromLocal 2, boxOf 2, [], by decide, rfl, rfl⟩ rfl
  · cases Option.some.inj h
    exact reads _ 6 (boxOf 2) ⟨.fromLocal 6, boxOf 2, [], by decide, rfl, rfl⟩ rfl
  · exact reads _ 3 (.tuple [boxOf 2]) ⟨.fromLocal 3, .tuple [boxOf 2], [], by decide, rfl, rfl⟩ rfl

theorem rebuildingTracked : ∃ result session,
    Collector.analyzeBody boxCrate (fun _ => Exec.fail) 30 rebuilder (Collector.startSession ⟨.item, 0, []⟩) =
      (some result, session) ∧
    afterCopied.read ⟨4, [.field 0]⟩ = some (boxOf 2) ∧
    ∀ place ty deps value, declared rebuildingBody place = some ty → ty.isHidden = true →
      result.get place = some (.erased deps) → afterCopied.read place = some value → value ∈ deps := by
  have ends : (Collector.analyzeBody boxCrate (fun _ => Exec.fail) 30 rebuilder
      (Collector.startSession ⟨.item, 0, []⟩)).1.isSome = true := by decide +kernel
  have inOrder : ∀ bb ∈ boxCrate.reversePostorder rebuilder.substitutedBody,
      ∀ target ∈ (Collector.analysis boxCrate (fun _ => Exec.fail) rebuilder).edges bb,
        target ∈ boxCrate.reversePostorder rebuilder.substitutedBody := by decide +kernel
  have args : KnownArgs rebuildingBody 0 boxArgs.argTys [boxOf 1, boxOf 2] :=
    .cons rfl rfl ⟨rfl, rfl⟩ (by decide) (.cons rfl rfl ⟨rfl, rfl⟩ (by decide) .nil)
  have fragment : TupleFragment boxCrate rebuilder.defId rebuilder.substitutedBody :=
    plainFragment _ _ (by decide)
  obtain ⟨first, second, last⟩ := rebuildingRuns
  have still : ∀ m : Machine, Machine.Runs rebuildingBody [] m m := fun m => ⟨trivial, rfl⟩
  let Reaches := Analysis.Path (Collector.analysis boxCrate (fun _ => Exec.fail) rebuilder).edges
    (Collector.BlockStep rebuildingBody (Machine.Runs rebuildingBody) (Machine.Leaves boxCrate rebuildingBody))
    0 (Machine.called [boxOf 1, boxOf 2])
  have idle : ∀ (targets : List Nat) functionTy,
      ¬ Collector.TakesFunction boxCrate rebuildingBody (.other targets) functionTy := fun _ _ takes => takes
  have entering : Reaches 1 afterBuilt := Analysis.Path.here.further ⟨_, _, rfl, first, rfl, idle _⟩ (by decide)
  have staying : Reaches 2 afterBuilt := entering.further ⟨_, _, rfl, still _, rfl, idle _⟩ (by decide)
  have again : Reaches 1 afterRebuilt := staying.further ⟨_, _, rfl, second, rfl, idle _⟩ (by decide)
  have path : Reaches 3 afterRebuilt := again.further ⟨_, _, rfl, still _, rfl, idle _⟩ (by decide)
  exact ⟨_, _, Prod.ext (Option.some_get ends).symm rfl, rfl,
    pathHeldTracked fragment rebuildingTyped rfl rfl args inOrder (by decide)
      (Prod.ext (Option.some_get ends).symm rfl) path ⟨_, _, [], rfl, rfl, last⟩⟩

end Scrutinizer
