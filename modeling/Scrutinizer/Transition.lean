import Scrutinizer.Important
import Scrutinizer.PlainCrate

/-! Which important arguments pass over to a callee. An ordinary callee gets an argument when the
operand is an important local as a whole; a closure gets all of its parameters. -/
namespace Scrutinizer
namespace ImportantLocals

/- The parameters that receive an argument. A closure that is called with two arguments gets the
components of the second one as its parameters from 2 on. -/
def receivers (tcx : TyCtxt) (args : List Operand) (callee : DefId) (idx : Nat) : List Nat :=
  if tcx.isClosure callee && decide (args.length = 2) then
    let parameters := (List.range ((tcx.numArgsInBody callee).getD 0)).map (· + 1)
    if idx = 0 then parameters.filter (fun parameter => decide (parameter = 1))
    else parameters.filter (fun parameter => decide (2 ≤ parameter))
  else [idx + 1]

def Important (self : ImportantLocals) (arg : Operand) : Prop :=
  ∃ place, arg.place = some place ∧ place.base ∈ self.locals

def Carries (tcx : TyCtxt) (self : ImportantLocals) (args : List Operand) (callee : DefId) : Prop :=
  ∀ found, self.targets tcx args callee = .ok found →
    ∀ idx arg, args[idx]? = some arg → self.Important arg →
      ∀ parameter ∈ receivers tcx args callee idx, parameter ∈ found ∧
        ∀ passed, self.transition tcx args callee = .ok passed → parameter ∈ passed.locals

/- Flowistry counts the arguments themselves among their dependents. -/
def DependentsInclude (tcx : TyCtxt) : Prop :=
  ∀ defId args, args ⊆ tcx.dependentLocals defId args

section
variable {tcx : TyCtxt} {self : ImportantLocals} {args : List Operand} {callee : DefId}

theorem targetsKept (keeps : DependentsInclude tcx) (function : tcx.isConstructor callee = false)
    {found : List Nat} (targeted : self.targets tcx args callee = .ok found)
    {passed : ImportantLocals} (ok : self.transition tcx args callee = .ok passed) {parameter : Nat}
    (mem : parameter ∈ found) : parameter ∈ passed.locals := by
  simp only [transition, function, targeted, bind, Except.bind, Bool.false_eq_true, if_false] at ok
  split at ok
  · cases Except.ok.inj ok
    exact List.mem_toFinset.mpr (keeps callee found mem)
  · cases Except.ok.inj ok
    exact List.mem_toFinset.mpr mem

theorem importantArgsIff {parameter : Nat} : parameter ∈ self.importantArgs args ↔
    ∃ idx base, args[idx]?.bind Operand.place = some (.fromLocal base) ∧ base ∈ self.locals ∧
      parameter = idx + 1 := by
  simp only [importantArgs, List.mem_filterMap, Option.bind_eq_some_iff]
  constructor
  · intro found
    obtain ⟨⟨arg, idx⟩, mem, base, ⟨place, known, whole⟩, inside⟩ := found
    have listed := List.mk_mem_zipIdx_iff_getElem?.mp mem
    split at inside
    · rename_i important
      cases Option.some.inj inside
      unfold Place.asLocal at whole
      split at whole
      · rename_i bare
        refine ⟨idx, base, ⟨arg, listed, ?_⟩, important, rfl⟩
        rw [known, ← Option.some.inj whole, Place.fromLocal, ← bare]
      · cases whole
    · cases inside
  · intro found
    obtain ⟨idx, base, ⟨arg, listed, known⟩, important, rfl⟩ := found
    refine ⟨(arg, idx), List.mk_mem_zipIdx_iff_getElem?.mpr listed, base, ⟨_, known, rfl⟩, ?_⟩
    rw [if_pos important]

theorem closureTargets (closure : tcx.isClosure callee = true) {found : List Nat}
    (ok : self.targets tcx args callee = .ok found) {idx parameter : Nat} (within : idx < args.length)
    (receives : parameter ∈ receivers tcx args callee idx) : parameter ∈ found := by
  simp only [targets, closure, if_true] at ok
  split at ok
  · rename_i two
    split at ok
    · rename_i n counted
      cases Except.ok.inj ok
      simp only [receivers, closure, two, counted, decide_true, Bool.and_self, if_true,
        Option.getD_some] at receives
      split at receives
      · exact (List.mem_filter.mp receives).1
      · exact (List.mem_filter.mp receives).1
    · contradiction
  · rename_i notTwo
    split at ok
    · rename_i one
      cases Except.ok.inj ok
      simp only [receivers, closure, notTwo, decide_false, Bool.and_false, Bool.false_eq_true,
        if_false, List.mem_singleton] at receives ⊢
      omega
    · contradiction

theorem carriesIff (keeps : DependentsInclude tcx) (self : ImportantLocals) (args : List Operand)
    (callee : DefId) (function : tcx.isConstructor callee = false) :
    self.Carries tcx args callee ↔ tcx.isClosure callee = true ∨
      ∀ arg ∈ args, ∀ place, arg.place = some place → place.base ∈ self.locals →
        place.projection = [] := by
  constructor
  · intro carries
    by_cases closure : tcx.isClosure callee = true
    · exact .inl closure
    · right
      intro arg mem place known important
      obtain ⟨idx, listed⟩ := List.mem_iff_getElem?.mp mem
      have ordinary : tcx.isClosure callee = false := by simpa using closure
      have targeted : self.targets tcx args callee = .ok (self.importantArgs args) := by
        simp [targets, ordinary]
      have receives : idx + 1 ∈ receivers tcx args callee idx := by simp [receivers, ordinary]
      have passes := (carries _ targeted idx arg listed ⟨place, known, important⟩ _ receives).1
      obtain ⟨other, base, bare, _, same⟩ := importantArgsIff.mp passes
      have here : other = idx := by omega
      rw [here, listed, Option.bind_some, known] at bare
      rw [Option.some.inj bare]
      rfl
  · intro condition found targeted idx arg listed important parameter receives
    have target : parameter ∈ found := by
      by_cases closure : tcx.isClosure callee = true
      · obtain ⟨within, _⟩ := List.getElem?_eq_some_iff.mp listed
        exact closureTargets closure targeted within receives
      · have ordinary : tcx.isClosure callee = false := by simpa using closure
        obtain ⟨place, known, inside⟩ := important
        have bare := condition.resolve_left closure arg (List.mem_of_getElem? listed) place known inside
        simp only [targets, ordinary, Bool.false_eq_true, if_false, Except.ok.injEq] at targeted
        simp only [receivers, ordinary, Bool.false_and, Bool.false_eq_true, if_false,
          List.mem_singleton] at receives
        rw [← targeted]
        refine importantArgsIff.mpr ⟨idx, place.base, ?_, inside, receives⟩
        rw [listed, Option.bind_some, known, Place.fromLocal, ← bare]
    exact ⟨target, fun passed ok => targetsKept keeps function targeted ok target⟩

end

def droppedField : List Operand := [.copy ⟨1, [.field 0]⟩]

theorem fieldLost : ¬ (⟨{1}⟩ : ImportantLocals).Carries (.plain (.listed [] List.nodup_nil))
    droppedField 5 := by
  intro carries
  have target := carries [] rfl 0 _ rfl ⟨_, rfl, Finset.mem_singleton_self 1⟩ 1 List.mem_cons_self
  exact absurd target.1 List.not_mem_nil

theorem localCarried : (⟨{1}⟩ : ImportantLocals).Carries (.plain (.listed [] List.nodup_nil))
    [.copy (.fromLocal 1)] 5 := by
  apply (carriesIff (fun _ args => List.Subset.refl args) ⟨{1}⟩ [.copy (.fromLocal 1)] 5 rfl).mpr
  right
  intro arg mem place known _
  cases List.mem_singleton.mp mem
  cases Option.some.inj known
  rfl

end ImportantLocals
end Scrutinizer
