import Scrutinizer.FieldWrites
import Scrutinizer.PartialFunctionInfo

/-! The tuple that an aggregate builds from the tracked types of its operands, and what a closure
call spreads it into. -/
namespace Scrutinizer

theorem transposeRows {α : Type} {rows : List (List α)} {n : Nat} (some_ : rows ≠ [])
    (each : ∀ row ∈ rows, row.length = n) :
    ∃ columns, transpose rows = some columns ∧ columns.length = n ∧
      ∀ (i : Nat) (column : List α), columns[i]? = some column →
        ∀ x, x ∈ column ↔ ∃ row ∈ rows, row[i]? = some x := by
  obtain ⟨first, rest, rfl⟩ := List.exists_cons_of_ne_nil some_
  have width := each first List.mem_cons_self
  obtain ⟨columns, made⟩ := @MapM.someTotal _ _
    (fun i => (first :: rest).mapM (fun row => row[i]?)) (List.range n) (by
      intro i mem
      apply MapM.someTotal
      intro row inside
      have bound : i < row.length := by rw [each row inside]; exact List.mem_range.mp mem
      exact ⟨_, List.getElem?_eq_getElem bound⟩)
  have related := MapM.someIff.mp made
  refine ⟨columns, ?_, by simpa using related.length_eq.symm, ?_⟩
  · simp only [transpose, List.head?_cons, bind, Option.bind_some, width]
    exact made
  · intro i column known x
    obtain ⟨j, listed, column_⟩ := MapM.atLeft related.flip known
    have bound := (List.getElem?_eq_some_iff.mp listed).1
    have same : j = i := by simpa [List.getElem?_range (by simpa using bound)] using listed.symm
    subst same
    have entries := MapM.someIff.mp column_
    constructor
    · exact MapM.memRight entries x
    · intro found
      obtain ⟨row, mem, there⟩ := found
      obtain ⟨y, inside, here⟩ := MapM.memLeft entries row mem
      cases Option.some.inj (there.symm.trans here)
      exact inside

def SpreadsBack (order : HashOrder Ty) (operands : List TrackedTy) : Prop :=
  ∃ spread, (tupleTrackedTy order operands).spreadTuple order = some spread ∧
    List.Forall₂ (fun (operand part : TrackedTy) => part.types = operand.types) operands spread

section
variable {order : HashOrder Ty} {operands : List TrackedTy}

theorem pickThrough (some_ : ∀ t ∈ operands, t.types.Nonempty) {i : Nat} {t : TrackedTy} {ty : Ty}
    (listed : operands[i]? = some t) (inside : ty ∈ t.types) :
    ∃ picks, List.Forall₂ (fun t (pick : Ty) => pick ∈ t.types) operands picks ∧ picks[i]? = some ty := by
  obtain ⟨picks, each⟩ := pickEach some_
  obtain ⟨pick, there, _⟩ := MapM.atLeft each listed
  have bound := (List.getElem?_eq_some_iff.mp there).1
  exact ⟨picks.set i ty, MapM.setRight each listed inside, by simp [bound]⟩

theorem mixedTuple (mixed : operands.all TrackedTy.isPresent = false) :
    ∃ tuples, tupleTrackedTy order operands = .erased tuples ∧ ∀ ty, ty ∈ tuples ↔
      ∃ picks, ty = .tuple picks ∧ List.Forall₂ (fun t (pick : Ty) => pick ∈ t.types) operands picks := by
  refine ⟨_, by rw [tupleTrackedTy, if_neg (by simp [mixed])], ?_⟩
  intro ty
  have nonempty : operands.map (TrackedTy.intoVec order) ≠ [] := by
    intro none_
    simp [List.map_eq_nil_iff.mp none_] at mixed
  simp only [List.mem_toFinset, List.mem_map, memProduct, nonempty, ne_eq, not_false_iff, true_and,
    List.forall₂_map_right_iff, TrackedTy.memIntoVec]
  constructor
  · intro made
    obtain ⟨picks, each, rfl⟩ := made
    exact ⟨picks, rfl, each.flip⟩
  · intro made
    obtain ⟨picks, rfl, each⟩ := made
    exact ⟨picks, each.flip, rfl⟩

theorem spreadMixed (mixed : operands.all TrackedTy.isPresent = false)
    (some_ : ∀ t ∈ operands, t.types.Nonempty) : SpreadsBack order operands := by
  obtain ⟨tuples, made, mem⟩ := @mixedTuple order operands mixed
  obtain ⟨picks, each⟩ := pickEach some_
  have nonempty : tuples.Nonempty := ⟨.tuple picks, (mem _).mpr ⟨picks, rfl, each⟩⟩
  obtain ⟨rows, spread⟩ := @MapM.someTotal _ _ Ty.tupleFields (order.iter tuples) (by
    intro ty listed
    obtain ⟨picks, rfl, _⟩ := (mem ty).mp ((order.mem tuples ty).mp listed)
    exact ⟨picks, rfl⟩)
  have related := MapM.someIff.mp spread
  have isRow : ∀ row, row ∈ rows ↔
      List.Forall₂ (fun t (pick : Ty) => pick ∈ t.types) operands row := by
    intro row
    constructor
    · intro inside
      obtain ⟨ty, listed, fields⟩ := MapM.memRight related row inside
      obtain ⟨picks, rfl, each⟩ := (mem ty).mp ((order.mem tuples ty).mp listed)
      cases Option.some.inj fields
      exact each
    · intro each
      have listed := (order.mem tuples _).mpr ((mem (.tuple row)).mpr ⟨row, rfl, each⟩)
      obtain ⟨row', inside, fields⟩ := MapM.memLeft related _ listed
      cases Option.some.inj fields
      exact inside
  obtain ⟨columns, transposed, width, entries⟩ := @transposeRows _ rows operands.length
    (List.ne_nil_of_mem ((isRow picks).mpr each))
    (fun row inside => ((isRow row).mp inside).length_eq.symm)
  refine ⟨columns.map (fun v => .erased v.toFinset), ?_, ?_⟩
  · rw [made, TrackedTy.spreadTuple, if_pos nonempty, spread]
    simp only [bind, Option.bind_some, transposed]
  · rw [List.forall₂_map_right_iff, List.forall₂_iff_get]
    refine ⟨width.symm, ?_⟩
    intro i bound bound'
    ext ty
    simp only [List.get_eq_getElem]
    rw [TrackedTy.types, List.mem_toFinset, entries i _ (List.getElem?_eq_getElem bound')]
    constructor
    · intro found
      obtain ⟨row, inside, there⟩ := found
      obtain ⟨pick, here, member⟩ := MapM.atLeft ((isRow row).mp inside) (List.getElem?_eq_getElem bound)
      cases Option.some.inj (there.symm.trans here)
      exact member
    · intro inside
      obtain ⟨picks, each, there⟩ := pickThrough some_ (List.getElem?_eq_getElem bound) inside
      exact ⟨picks, (isRow picks).mpr each, there⟩

theorem spreadPresent (settled : ∀ t ∈ operands, Settled t)
    (all : operands.all TrackedTy.isPresent = true) : SpreadsBack order operands := by
  obtain ⟨tys, rfl⟩ := allPresent all
  have known : ∀ ty ∈ tys, containsErased ty = false :=
    fun ty mem => settled _ (List.mem_map_of_mem mem) ty rfl
  refine ⟨tys.map TrackedTy.fromTy, by rw [tuplePresent order known]; rfl, ?_⟩
  rw [List.forall₂_map_left_iff, List.forall₂_map_right_iff, List.forall₂_same]
  intro ty mem
  rw [TrackedTy.fromTyPresent (known ty mem)]

theorem unknownTuple (unknown : .erased ∅ ∈ operands) : tupleTrackedTy order operands = .erased ∅ := by
  have mixed : operands.all TrackedTy.isPresent = false :=
    List.all_eq_false.mpr ⟨_, unknown, by simp [TrackedTy.isPresent]⟩
  obtain ⟨tuples, made, mem⟩ := @mixedTuple order operands mixed
  have none_ : tuples = ∅ := by
    apply Finset.eq_empty_iff_forall_notMem.mpr
    intro ty inside
    obtain ⟨picks, rfl, each⟩ := (mem ty).mp inside
    obtain ⟨pick, _, missing⟩ := MapM.memLeft each _ unknown
    exact absurd missing (Finset.notMem_empty pick)
  rw [made, none_]

theorem presentNotUnknown {ty : Ty} : (TrackedTy.erased ∅).types ≠ (TrackedTy.present ty).types :=
  (Finset.singleton_ne_empty ty).symm

theorem spreadUnknown : (TrackedTy.erased ∅).spreadTuple order = some [.erased ∅] := rfl

theorem unsettledLost (all : operands.all TrackedTy.isPresent = true) (back : SpreadsBack order operands) :
    ∀ t ∈ operands, Settled t := by
  obtain ⟨tys, rfl⟩ := allPresent all
  obtain ⟨spread, made, each⟩ := back
  rw [tupleTrackedTy, all, if_pos rfl] at made
  simp only [List.flatMap_map, TrackedTy.intoVec, List.flatMap_singleton'] at made
  rw [List.forall₂_map_left_iff] at each
  have kept : ∀ ty ∈ tys, containsErased ty = false := by
    intro ty mem
    cases erased : containsErased (.tuple tys) with
    | true =>
      rw [TrackedTy.fromTyErased erased, spreadUnknown] at made
      cases Option.some.inj made
      obtain ⟨part, listed, lost⟩ := MapM.memLeft each ty mem
      rw [List.mem_singleton.mp listed] at lost
      exact absurd lost presentNotUnknown
    | false =>
      rw [TrackedTy.fromTyPresent erased] at made
      cases Option.some.inj made
      rw [List.forall₂_map_right_iff, List.forall₂_same] at each
      by_contra hidden
      have lost := each ty mem
      rw [TrackedTy.fromTyErased (by simpa using hidden)] at lost
      exact absurd lost presentNotUnknown
  intro t mem ty same
  obtain ⟨ty', inside, rfl⟩ := List.mem_map.mp mem
  cases TrackedTy.present.inj same
  exact kept ty inside

theorem spreadsBackIff (some_ : operands ≠ []) : SpreadsBack order operands ↔
    (operands.length = 1 ∨ ∀ t ∈ operands, t ≠ .erased ∅) ∧
      (operands.all TrackedTy.isPresent = true → ∀ t ∈ operands, Settled t) := by
  constructor
  · intro back
    refine ⟨?_, fun all => unsettledLost all back⟩
    by_contra several
    push Not at several
    obtain ⟨more, unknown, mem, rfl⟩ := several
    obtain ⟨spread, made, each⟩ := back
    rw [unknownTuple mem, spreadUnknown] at made
    cases Option.some.inj made
    exact more each.length_eq
  · intro holds
    obtain ⟨few, settled⟩ := holds
    cases all : operands.all TrackedTy.isPresent with
    | true => exact spreadPresent (settled all) all
    | false =>
      by_cases unknown : .erased ∅ ∈ operands
      · -- a single operand, so the unknown tuple stands for it
        have single : operands.length = 1 := few.resolve_right (fun none_ => none_ _ unknown rfl)
        obtain ⟨operand, rfl⟩ := List.length_eq_one_iff.mp single
        cases List.mem_singleton.mp unknown
        exact ⟨_, by rw [unknownTuple unknown, spreadUnknown], .cons rfl .nil⟩
      · apply spreadMixed all
        intro t mem
        cases t with
        | present ty => exact Finset.singleton_nonempty ty
        | erased deps =>
          rw [Finset.nonempty_iff_ne_empty]
          rintro rfl
          exact unknown mem

end

structure TakesTuple (tcx : TyCtxt) (inst : Instance) (params : List Ty) : Prop where
  closure : tcx.isClosure inst.defId = true
  sig : ∃ parts output, ClosureParts.asClosure inst.args = some parts ∧
    parts.sig = .fnPtr [.tuple params] output

def CallFits (tcx : TyCtxt) (inst : Instance) (receiver : TrackedTy) (operands : List TrackedTy) : Prop :=
  ∃ inferred provided,
    (ArgTys.mk [receiver, tupleTrackedTy tcx.hashOrder operands]).asClosure tcx.hashOrder = some inferred ∧
      extractArgTys tcx inst = some provided ∧ inferred.argTys.length = operands.length + 1 ∧
      inferred.argTys.length = provided.argTys.length

section
variable {tcx : TyCtxt} {inst : Instance} {params : List Ty} {operands : List TrackedTy}

theorem providedLength (takes : TakesTuple tcx inst params) : ∃ provided,
    extractArgTys tcx inst = some provided ∧
      provided.argTys.length = (if containsErased (.tuple params) then 1 else params.length) + 1 := by
  obtain ⟨closure, parts, output, split, sig⟩ := takes
  have ty : tcx.instanceTy inst = .closure inst.defId inst.args := by
    rw [TyCtxt.instanceTy, if_pos closure]
  cases erased : containsErased (.tuple params) with
  | true =>
    refine ⟨⟨[.fromTy (.ref (.closure inst.defId inst.args) .not), .erased ∅]⟩, ?_, rfl⟩
    simp only [extractArgTys, ty, split, sig, TrackedTy.fromTyErased erased, spreadUnknown, bind,
      Option.bind_some]
  | false =>
    refine ⟨⟨.fromTy (.ref (.closure inst.defId inst.args) .not) :: params.map TrackedTy.fromTy⟩, ?_, ?_⟩
    · simp only [extractArgTys, ty, split, sig, TrackedTy.fromTyPresent erased, TrackedTy.spreadTuple,
        Ty.tupleFields, Option.map_some, bind, Option.bind_some]
    · simp

theorem tupleUndoneIff (takes : TakesTuple tcx inst params) (some_ : operands ≠ [])
    (fits : params.length = operands.length) (receiver : TrackedTy) :
    (SpreadsBack tcx.hashOrder operands ∧ CallFits tcx inst receiver operands) ↔
      (operands.length = 1 ∨
        (∀ t ∈ operands, t ≠ .erased ∅) ∧ containsErased (.tuple params) = false) ∧
      (operands.all TrackedTy.isPresent = true → ∀ t ∈ operands, Settled t) := by
  obtain ⟨provided, extracted, width⟩ := providedLength takes
  constructor
  · intro undone
    obtain ⟨back, inferred, provided', _, extracted', entries, even⟩ := undone
    cases Option.some.inj (extracted.symm.trans extracted')
    obtain ⟨few, settled⟩ := (spreadsBackIff some_).mp back
    refine ⟨?_, settled⟩
    cases few with
    | inl single => exact .inl single
    | inr known =>
      by_cases erased : containsErased (.tuple params) = true
      · rw [if_pos erased] at width
        exact .inl (by omega)
      · exact .inr ⟨known, by simpa using erased⟩
  · intro holds
    obtain ⟨few, settled⟩ := holds
    have back : SpreadsBack tcx.hashOrder operands :=
      (spreadsBackIff some_).mpr ⟨few.imp_right And.left, settled⟩
    refine ⟨back, ?_⟩
    obtain ⟨spread, made, each⟩ := back
    refine ⟨⟨receiver :: spread⟩, provided, ?_, extracted, ?_, ?_⟩
    · simp [ArgTys.asClosure, made]
    · simp [each.length_eq]
    · rw [width, List.length_cons, ← each.length_eq]
      cases few with
      | inl single => simp [fits, single]
      | inr known => simp [fits, known.2]

end

noncomputable def objectCrate : TyCtxt := {TyCtxt.plain (.listed [] List.nodup_nil) with
  isClosure := fun did => decide (did = 1)}

def objectClosure (params : List Ty) : Instance :=
  ⟨.item, 1, [Ty.unit, .fnPtr [.tuple params] Ty.unit, .tuple []]⟩

theorem objectTakes (params : List Ty) : TakesTuple objectCrate (objectClosure params) params :=
  ⟨rfl, _, _, rfl, rfl⟩

theorem numbersUndone : SpreadsBack objectCrate.hashOrder [.present Ty.usize, .present Ty.bool] ∧
    CallFits objectCrate (objectClosure [Ty.usize, Ty.bool]) (.present Ty.unit)
      [.present Ty.usize, .present Ty.bool] := by
  refine (tupleUndoneIff (objectTakes _) (by simp) rfl _).mpr ⟨.inr ⟨by simp, by decide +kernel⟩, ?_⟩
  intro _ t mem ty same
  subst same
  simp only [List.mem_cons, TrackedTy.present.injEq, List.not_mem_nil, or_false] at mem
  rcases mem with rfl | rfl
  · decide +kernel
  · decide +kernel

theorem unknownObjectLost : ¬ (SpreadsBack objectCrate.hashOrder [.erased ∅, .present Ty.usize] ∧
    CallFits objectCrate (objectClosure [.dynamic 9 [], Ty.usize]) (.present Ty.unit)
      [.erased ∅, .present Ty.usize]) := by
  intro undone
  obtain ⟨spread, made, each⟩ := undone.1
  rw [unknownTuple List.mem_cons_self, spreadUnknown] at made
  cases Option.some.inj made
  exact absurd each.length_eq (by decide)

end Scrutinizer
