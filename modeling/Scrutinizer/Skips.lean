import Scrutinizer.CollectionRule
import Scrutinizer.PlainCrate

/-! Which calls a collection skips. A plausible function is skipped when the stack has its
definition with its tracked arguments. The stack does not keep generic arguments, so the
function in progress may be another instance. -/
namespace Scrutinizer

namespace Event

def Justified : Event → Prop
  | .round caller callee true => ∃ g ∈ caller.inProgress,
      g.inst = callee.inst ∧ g.trackedArgs = callee.trackedArgs
  | _ => True

def Recorded : Event → Prop
  | .processed caller plausibleFns state fns => ∀ callee ∈ plausibleFns,
      callee.stackItem ∉ caller.virtualStack → ∃ call ∈ state.calls,
        call.key = Collector.calleeKey callee ∧ ∃ f ∈ fns.fns, f.key = call.key
  | _ => True

def Collides : Event → Prop
  | .round caller callee _ =>
      (∃ g ∈ caller.inProgress, g.inst ≠ callee.inst ∧ g.inst.defId = callee.inst.defId ∧
        g.trackedArgs = callee.trackedArgs) ∧
      ¬ ∃ g ∈ caller.inProgress, g.inst = callee.inst ∧ g.trackedArgs = callee.trackedArgs
  | _ => False

instance : DecidablePred Justified := fun e => match e with
  | .round caller callee true => inferInstanceAs (Decidable (∃ g ∈ caller.inProgress,
      g.inst = callee.inst ∧ g.trackedArgs = callee.trackedArgs))
  | .round _ _ false | .unresolved _ _ | .descended _ _ _ _ | .processed _ _ _ _ => .isTrue trivial

end Event

namespace Collector

def StackInProgress (c : Collector) : Prop :=
  ∀ item, item ∈ c.virtualStack ↔ ∃ g ∈ c.inProgress, g.stackItem = item

theorem stackPush {c : Collector} (h : c.StackInProgress) : c.push.StackInProgress := by
  intro item
  have added : item ∈ c.push.virtualStack ↔ c.currentFunction.stackItem = item ∨ item ∈ c.virtualStack := by
    simp [push, or_comm, eq_comm]
  have entered : (∃ g ∈ c.push.inProgress, g.stackItem = item) ↔
      c.currentFunction.stackItem = item ∨ ∃ g ∈ c.inProgress, g.stackItem = item := by
    simp [push]
  rw [added, entered, h item]

def Logged : Event → Prop
  | .round caller callee skipped => caller.StackInProgress ∧
      skipped = decide (callee.stackItem ∈ caller.virtualStack)
  | e => e.Recorded

theorem loggedRule : LogRule StackInProgress Logged where
  start _ _ _ _ := stackPush (fun item => by simp)
  enter _ _ _ fine _ := stackPush fine
  unresolved _ _ _ := trivial
  round _ _ fine := ⟨fine, rfl⟩
  descended _ _ _ _ := trivial
  processed c s args plausibleFns state _ handled := by
    intro callee mem off
    cases handled callee mem with
    | inl on => exact absurd on off
    | inr recorded =>
      obtain ⟨call, hcall, _, key, record⟩ := recorded
      exact ⟨call, hcall, key, record⟩

theorem justifiedIff {e : Event} (logged : Logged e) : e.Justified ∧ e.Recorded ↔ ¬ e.Collides := by
  cases e with
  | unresolved | descended => exact ⟨fun _ h => h, fun _ => ⟨trivial, trivial⟩⟩
  | processed caller plausibleFns state fns => exact ⟨fun _ h => h, fun _ => ⟨trivial, logged⟩⟩
  | round caller callee skipped =>
    obtain ⟨fine, flag⟩ := logged
    have stack := fine callee.stackItem
    cases skipped with
    | false =>
      have off : callee.stackItem ∉ caller.virtualStack := of_decide_eq_false flag.symm
      constructor
      · intro _ collides
        obtain ⟨⟨g, hg, _, def_, args⟩, _⟩ := collides
        exact off (stack.mpr ⟨g, hg, by simp [PartialFunctionInfo.stackItem, def_, args]⟩)
      · exact fun _ => ⟨trivial, trivial⟩
    | true =>
      have on : callee.stackItem ∈ caller.virtualStack := of_decide_eq_true flag.symm
      constructor
      · intro ok collides
        exact collides.2 ok.1
      · intro free
        refine ⟨?_, trivial⟩
        by_contra missing
        obtain ⟨g, hg, item⟩ := stack.mp on
        obtain ⟨def_, args⟩ := VirtualStackItem.mk.inj item
        have other : g.inst ≠ callee.inst := fun same => missing ⟨g, hg, same, args⟩
        exact free ⟨⟨g, hg, other, def_, args⟩, missing⟩

theorem skipsJustifiedIff (tcx : TyCtxt) (fuel : Nat) (inst : Instance) (shallow : Bool) :
    (∀ e ∈ (collect tcx fuel inst shallow (startSession inst)).2.log, e.Justified ∧ e.Recorded) ↔
      ∀ e ∈ (collect tcx fuel inst shallow (startSession inst)).2.log, ¬ e.Collides := by
  have logged := loggedRule.collect tcx fuel inst shallow
  constructor
  · intro h e mem
    exact (justifiedIff (logged e mem)).mp (h e mem)
  · intro h e mem
    exact (justifiedIff (logged e mem)).mpr (h e mem)

def callsInstance (args : List Ty) : Body :=
  ⟨0, [Ty.unit], [⟨[], .call (.constant (.fnDef 1 args)) [] .returnPlace (some 1) none⟩,
    .returning], [], 0⟩

noncomputable def twoInstances : TyCtxt := {TyCtxt.plain (.listed [] List.nodup_nil) with
  loadBodyAndFacts := fun did =>
    if did = 0 then some (callsInstance [Ty.bool])
    else if did = 1 then some (callsInstance [Ty.usize]) else none}

theorem otherInstanceSkipped :
    ¬ (∀ e ∈ (collect twoInstances 8 ⟨.item, 0, []⟩ false (startSession ⟨.item, 0, []⟩)).2.log,
      e.Justified ∧ e.Recorded) ∧
    ∀ f ∈ (collect twoInstances 8 ⟨.item, 0, []⟩ false (startSession ⟨.item, 0, []⟩)).2.fns.fns,
      f.key ≠ .withBody ⟨.item, 1, [Ty.usize]⟩ := by
  have skipped : ¬ ∀ e ∈ (collect twoInstances 8 ⟨.item, 0, []⟩ false
      (startSession ⟨.item, 0, []⟩)).2.log, e.Justified := by decide +kernel
  refine ⟨fun h => skipped (fun e mem => (h e mem).1), ?_⟩
  decide +kernel

end Collector
end Scrutinizer
