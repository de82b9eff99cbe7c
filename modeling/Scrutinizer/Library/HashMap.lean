import Mathlib.Data.List.Nodup

/-! A hash map as the list of its entries, each key at most once. Equality of maps is `same`:
the order of the entries carries nothing. -/

structure HashMap (K V : Type) where
  entries : List (K × V)
  distinct : (entries.map Prod.fst).Nodup

namespace HashMap
variable {K V : Type} [DecidableEq K]

def empty : HashMap K V := ⟨[], List.nodup_nil⟩

def keys (m : HashMap K V) : List K := m.entries.map Prod.fst

def get (m : HashMap K V) (key : K) : Option V := m.entries.lookup key

def modify (m : HashMap K V) (key : K) (f : V → V) : HashMap K V where
  entries := m.entries.map (fun e => if e.1 = key then (e.1, f e.2) else e)
  distinct := by
    have same : (m.entries.map (fun e => if e.1 = key then (e.1, f e.2) else e)).map Prod.fst =
        m.entries.map Prod.fst := by
      rw [List.map_map]
      exact List.map_congr_left (fun e _ => by simp only [Function.comp]; split <;> rfl)
    rw [same]
    exact m.distinct

def insertNew (m : HashMap K V) (key : K) (value : V) (fresh : key ∉ m.keys) : HashMap K V where
  entries := m.entries ++ [(key, value)]
  distinct := by
    rw [List.map_append, List.nodup_append]
    refine ⟨m.distinct, by simp, ?_⟩
    intro a ha b hb
    simp only [List.map_cons, List.map_nil, List.mem_singleton] at hb
    rintro rfl
    exact fresh (hb ▸ ha)

/- `entry(key).and_modify(f).or_insert(value)`. -/
def modifyOrInsert (m : HashMap K V) (key : K) (f : V → V) (value : V) : HashMap K V :=
  if known : key ∈ m.keys then m.modify key f else m.insertNew key value known

def insert (m : HashMap K V) (key : K) (value : V) : HashMap K V :=
  m.modifyOrInsert key (fun _ => value) value

/- A later entry replaces an earlier one of the same key. -/
def fromIter (entries : List (K × V)) : HashMap K V :=
  entries.foldl (fun m e => m.insert e.1 e.2) empty

def same [DecidableEq V] (m n : HashMap K V) : Bool :=
  m.keys.all (fun k => decide (m.get k = n.get k)) && n.keys.all (fun k => decide (m.get k = n.get k))

theorem lookupNone {entries : List (K × V)} {key : K} :
    entries.lookup key = none ↔ key ∉ entries.map Prod.fst := by
  induction entries with
  | nil => simp
  | cons e rest ih =>
    rw [List.lookup_cons]
    by_cases h : key = e.1
    · simp [h]
    · simp only [beq_eq_false_iff_ne.mpr h, List.map_cons, List.mem_cons, h, false_or]
      exact ih

theorem getNone {m : HashMap K V} {key : K} : m.get key = none ↔ key ∉ m.keys := lookupNone

theorem getSome {m : HashMap K V} {key : K} : (∃ v, m.get key = some v) ↔ key ∈ m.keys := by
  rw [← Option.ne_none_iff_exists', Ne, getNone, not_not]

theorem getMem {m : HashMap K V} {key : K} {value : V} :
    m.get key = some value ↔ (key, value) ∈ m.entries := by
  obtain ⟨entries, distinct⟩ := m
  simp only [get]
  induction entries with
  | nil => simp
  | cons e rest ih =>
    obtain ⟨fresh, tail⟩ := List.nodup_cons.mp distinct
    rw [List.lookup_cons]
    by_cases h : key = e.1
    · subst h
      have absent : (e.1, value) ∉ rest := fun hm => fresh (List.mem_map.mpr ⟨_, hm, rfl⟩)
      simp only [beq_self_eq_true, Option.some.injEq, List.mem_cons, absent, or_false]
      constructor
      · rintro rfl; rfl
      · intro eq; rw [← eq]
    · have other : (key, value) ≠ e := by rintro rfl; exact h rfl
      simp only [beq_eq_false_iff_ne.mpr h, List.mem_cons, other, false_or]
      exact ih tail

@[simp] theorem keysModify (m : HashMap K V) (key : K) (f : V → V) :
    (m.modify key f).keys = m.keys := by
  simp only [keys, modify, List.map_map]
  exact List.map_congr_left (fun e _ => by simp only [Function.comp]; split <;> rfl)

theorem getModify (m : HashMap K V) (key : K) (f : V → V) (k : K) :
    (m.modify key f).get k = if k = key then (m.get k).map f else m.get k := by
  simp only [get, modify]
  induction m.entries with
  | nil => simp
  | cons e rest ih =>
    rw [List.map_cons, List.lookup_cons, List.lookup_cons]
    by_cases h : e.1 = key
    · by_cases hk : k = e.1
      · simp [h, hk]
      · simp only [h, if_true, beq_eq_false_iff_ne.mpr (h ▸ hk : k ≠ key)]
        exact ih
    · by_cases hk : k = e.1
      · subst hk
        simp [h]
      · simp only [if_neg h, beq_eq_false_iff_ne.mpr hk]
        exact ih

@[simp] theorem keysModifyOrInsert (m : HashMap K V) (key : K) (f : V → V) (value : V) (k : K) :
    k ∈ (m.modifyOrInsert key f value).keys ↔ k = key ∨ k ∈ m.keys := by
  unfold modifyOrInsert
  split
  · rename_i known
    rw [keysModify]
    constructor
    · exact Or.inr
    · rintro (rfl | h)
      exacts [known, h]
  · simp [keys, insertNew, or_comm]

theorem getModifyOrInsert (m : HashMap K V) (key : K) (f : V → V) (value : V) (k : K) :
    (m.modifyOrInsert key f value).get k =
      if k = key then some (((m.get key).map f).getD value) else m.get k := by
  unfold modifyOrInsert
  split
  · rename_i known
    obtain ⟨v, hv⟩ := getSome.mpr known
    rw [getModify]
    split
    · rename_i h; subst h; simp [hv]
    · rfl
  · rename_i unknown
    have hnone : m.get key = none := getNone.mpr unknown
    simp only [insertNew, get, List.lookup_append]
    by_cases h : k = key
    · subst h
      simp only [get] at hnone
      simp [hnone]
    · simp [h, List.lookup_cons, beq_eq_false_iff_ne.mpr h]

theorem getInsert (m : HashMap K V) (key : K) (value : V) (k : K) :
    (m.insert key value).get k = if k = key then some value else m.get k := by
  rw [insert, getModifyOrInsert]
  cases m.get key <;> rfl

theorem insertAllGet {entries : List (K × V)} {key : K} {value : V}
    (agree : ∀ v, (key, v) ∈ entries → v = value) : ∀ m : HashMap K V,
      m.get key = some value ∨ (key, value) ∈ entries →
        (entries.foldl (fun m e => m.insert e.1 e.2) m).get key = some value := by
  induction entries with
  | nil =>
    intro m h
    cases h with
    | inl held => exact held
    | inr mem => cases mem
  | cons e rest ih =>
    intro m h
    rw [List.foldl_cons]
    apply ih (fun v mem => agree v (List.mem_cons_of_mem _ mem))
    rw [getInsert]
    by_cases same : key = e.1
    · left
      rw [if_pos same, agree e.2 (by simp [same])]
    · rw [if_neg same]
      cases h with
      | inl held => exact .inl held
      | inr mem =>
        cases List.mem_cons.mp mem with
        | inl head => exact absurd (congrArg Prod.fst head) same
        | inr later => exact .inr later

theorem fromIterGet {entries : List (K × V)} {key : K} {value : V}
    (mem : (key, value) ∈ entries) (agree : ∀ v, (key, v) ∈ entries → v = value) :
    (fromIter entries).get key = some value :=
  insertAllGet agree empty (.inr mem)

theorem insertAllFound {entries : List (K × V)} {key : K} {value : V} : ∀ {m : HashMap K V},
    (entries.foldl (fun m e => m.insert e.1 e.2) m).get key = some value →
      (key, value) ∈ entries ∨ m.get key = some value := by
  induction entries with
  | nil => exact fun found => .inr found
  | cons e rest ih =>
    intro m found
    rw [List.foldl_cons] at found
    cases ih found with
    | inl later => exact .inl (List.mem_cons_of_mem _ later)
    | inr before =>
      rw [getInsert] at before
      split at before
      · rename_i same
        cases Option.some.inj before
        exact .inl (same ▸ List.mem_cons_self)
      · exact .inr before

theorem fromIterFound {entries : List (K × V)} {key : K} {value : V}
    (found : (fromIter entries).get key = some value) : (key, value) ∈ entries := by
  cases insertAllFound found with
  | inl mem => exact mem
  | inr empty => cases empty

end HashMap
