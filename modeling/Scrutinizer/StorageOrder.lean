import Scrutinizer.Storage

/-! The order of the records. A record is inserted after everything it calls: the call of a
record refers to a key that already had a record. The index of the first record of a key is
then a measure for the walk over the calls. -/
namespace Scrutinizer

namespace FunctionInfoStorage

def Resolves (self : FunctionInfoStorage) (item : FunctionInfo) : Prop :=
  ∀ calls, item.calls = some calls → ∀ call ∈ calls, ∃ callee, self.getByCall call = some callee

def FirstRecord (self : FunctionInfoStorage) (item : FunctionInfo) : Prop :=
  self.fns.find? (fun f => decide (f.key = item.key)) = some item

def FirstCall (self : FunctionInfoStorage) (callee caller : FunctionInfo) : Prop :=
  self.FirstRecord caller ∧ ∃ calls, caller.calls = some calls ∧
    ∃ call ∈ calls, self.getByCall call = some callee

theorem getByCallSpec {self : FunctionInfoStorage} {call : FunctionCall} {callee : FunctionInfo}
    (h : self.getByCall call = some callee) :
    callee ∈ self.fns ∧ callee.key = call.key ∧ self.FirstRecord callee := by
  rw [getByCallKey] at h
  have key : callee.key = call.key := by simpa using List.find?_some h
  refine ⟨List.mem_of_find?_eq_some h, key, ?_⟩
  rw [FirstRecord, key]
  exact h

def firstIndex (fns : List FunctionInfo) (key : FunctionInfo.Key) : Nat :=
  fns.findIdx (fun f => decide (f.key = key))

def Covers (fns : List FunctionInfo) (calls : Finset FunctionCall) : Prop :=
  ∀ call ∈ calls, ∃ f ∈ fns, f.key = call.key

def Ordered (fns : List FunctionInfo) : Prop :=
  ∀ i f calls, fns[i]? = some f → f.calls = some calls → Covers (fns.take i) calls

section
variable {fns fns' : List FunctionInfo} {a b calls : Finset FunctionCall}

theorem Covers.mono (more : fns ⊆ fns') (h : Covers fns calls) : Covers fns' calls := by
  intro call mem
  obtain ⟨f, hf, key⟩ := h call mem
  exact ⟨f, more hf, key⟩

theorem Covers.union (left : Covers fns a) (right : Covers fns b) : Covers fns (a ∪ b) := by
  intro call mem
  rcases Finset.mem_union.mp mem with mem | mem
  · exact left call mem
  · exact right call mem

theorem orderedNil : Ordered [] := fun i f calls h => by simp at h

theorem Ordered.covers {f : FunctionInfo} (ordered : Ordered fns) (mem : f ∈ fns)
    (hc : f.calls = some calls) : Covers fns calls := by
  obtain ⟨i, hi⟩ := List.mem_iff_getElem?.mp mem
  exact (ordered i f calls hi hc).mono (List.take_subset i fns)

theorem Ordered.append {info : FunctionInfo} (ordered : Ordered fns)
    (covered : ∀ calls, info.calls = some calls → Covers fns calls) : Ordered (fns ++ [info]) := by
  intro i f calls hi hc
  rcases Nat.lt_trichotomy i fns.length with lt | rfl | gt
  · rw [List.getElem?_append_left lt] at hi
    rw [List.take_append_of_le_length lt.le]
    exact ordered i f calls hi hc
  · have same : info = f := by simpa using hi
    rw [List.take_append_of_le_length le_rfl, List.take_length]
    exact covered calls (same ▸ hc)
  · have none : (fns ++ [info])[i]? = none := by
      rw [List.getElem?_eq_none_iff, List.length_append, List.length_singleton]
      exact gt
    rw [none] at hi
    contradiction

theorem Ordered.insert {self : FunctionInfoStorage} {info : FunctionInfo}
    (ordered : Ordered self.fns) (covered : ∀ calls, info.calls = some calls → Covers self.fns calls) :
    Ordered (self.insert info).fns := by
  rcases self.insertCases info with ⟨h, _⟩ | ⟨h, _⟩ <;> rw [h]
  · exact ordered
  · exact ordered.append covered

theorem firstIndexLt {key : FunctionInfo.Key} {i : Nat} (h : ∃ f ∈ fns.take i, f.key = key) :
    firstIndex fns key < i ∧ firstIndex fns key < fns.length := by
  obtain ⟨f, hf, same⟩ := h
  have within : firstIndex (fns.take i) key < (fns.take i).length :=
    List.findIdx_lt_length_of_exists ⟨f, hf, by simpa using same⟩
  have agree : firstIndex fns key = firstIndex (fns.take i) key := by
    conv_lhs => rw [← List.take_append_drop i fns]
    simp only [firstIndex] at within ⊢
    rw [List.findIdx_append, if_pos within]
  rw [agree]
  rw [List.length_take] at within
  omega

theorem findAtFirstIndex {key : FunctionInfo.Key} {f : FunctionInfo}
    (h : fns.find? (fun f => decide (f.key = key)) = some f) : fns[firstIndex fns key]? = some f := by
  induction fns with
  | nil => contradiction
  | cons g rest ih =>
    rw [List.find?_cons] at h
    by_cases same : g.key = key
    · simp only [same, decide_true] at h
      simp [firstIndex, List.findIdx_cons, same, h]
    · simp only [same, decide_false] at h
      simpa [firstIndex, List.findIdx_cons, same] using ih h

theorem firstIndexDecreases {self : FunctionInfoStorage} {item : FunctionInfo}
    {call : FunctionCall} (ordered : Ordered self.fns) (first : self.FirstRecord item)
    (hc : item.calls = some calls) (mem : call ∈ calls) :
    firstIndex self.fns call.key < firstIndex self.fns item.key := by
  have found := findAtFirstIndex first
  exact (firstIndexLt (ordered _ item calls found hc call mem)).1

theorem Ordered.resolves {self : FunctionInfoStorage} {item : FunctionInfo}
    (ordered : Ordered self.fns) (mem : item ∈ self.fns) : self.Resolves item := by
  intro calls hc call hcall
  obtain ⟨f, hf, key⟩ := ordered.covers mem hc call hcall
  rw [getByCallKey, ← Option.isSome_iff_exists, List.find?_isSome]
  exact ⟨f, hf, by simpa using key⟩

theorem Ordered.wellFounded {self : FunctionInfoStorage} (ordered : Ordered self.fns) :
    WellFounded self.FirstCall := by
  refine Subrelation.wf ?_ (InvImage.wf (fun f : FunctionInfo => firstIndex self.fns f.key)
    Nat.lt_wfRel.wf)
  rintro callee caller ⟨first, calls, hc, call, mem, found⟩
  have key := (getByCallSpec found).2.1
  have lt := firstIndexDecreases ordered first hc mem
  simp only [InvImage, key]
  exact lt

end
end FunctionInfoStorage

end Scrutinizer
