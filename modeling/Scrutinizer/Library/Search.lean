import Mathlib.Data.List.Basic
import Mathlib.Data.List.Infix

/-! Patterns made of letters and of runs of letters of a class, and the search for a match that
is anchored at neither end of the text. -/
namespace Search

inductive Piece (α : Type) where
  | lit (a : α)
  | many (cls : α → Bool)

section
variable {α : Type}

inductive Matches : List (Piece α) → List α → Prop where
  | nil : Matches [] []
  | lit {a : α} {pieces : List (Piece α)} {text : List α} (rest : Matches pieces text) :
      Matches (.lit a :: pieces) (a :: text)
  | many {cls : α → Bool} {pieces : List (Piece α)} {run text : List α}
      (inside : ∀ a ∈ run, cls a = true) (rest : Matches pieces text) :
      Matches (.many cls :: pieces) (run ++ text)

def Found (pieces : List (Piece α)) (text : List α) : Prop :=
  ∃ before inner after, text = before ++ inner ++ after ∧ Matches pieces inner

theorem matchesLits {word : List α} : ∀ {pieces : List (Piece α)} {text : List α},
    Matches (word.map .lit ++ pieces) text ↔ ∃ rest, text = word ++ rest ∧ Matches pieces rest := by
  induction word with
  | nil => simp
  | cons a word ih =>
    intro pieces text
    constructor
    · intro described
      cases described with
      | lit rest =>
        obtain ⟨tail, rfl, further⟩ := ih.mp rest
        exact ⟨tail, rfl, further⟩
    · intro split
      obtain ⟨tail, rfl, further⟩ := split
      exact .lit (ih.mpr ⟨tail, rfl, further⟩)

theorem matchesWord {word text : List α} : Matches (word.map .lit) text ↔ text = word := by
  have described := @matchesLits α word [] text
  rw [List.append_nil] at described
  rw [described]
  constructor
  · intro split
    obtain ⟨rest, rfl, further⟩ := split
    cases further
    exact List.append_nil word
  · intro same
    exact ⟨[], by rw [same, List.append_nil], .nil⟩

theorem matchesMany {cls : α → Bool} {pieces : List (Piece α)} {text : List α} :
    Matches (.many cls :: pieces) text ↔
      ∃ run rest, text = run ++ rest ∧ (∀ a ∈ run, cls a = true) ∧ Matches pieces rest := by
  constructor
  · intro described
    cases described with
    | many inside rest => exact ⟨_, _, rfl, inside, rest⟩
  · intro split
    obtain ⟨run, rest, rfl, inside, further⟩ := split
    exact .many inside further

theorem matchesLit {a : α} {pieces : List (Piece α)} {text : List α} :
    Matches (.lit a :: pieces) text ↔ ∃ rest, text = a :: rest ∧ Matches pieces rest := by
  constructor
  · intro described
    cases described with
    | lit rest => exact ⟨_, rfl, rest⟩
  · intro split
    obtain ⟨rest, rfl, further⟩ := split
    exact .lit further

def afterRun (cls : α → Bool) (next : List α → Bool) : List α → Bool
  | [] => next []
  | b :: text => next (b :: text) || (cls b && afterRun cls next text)

def starts [DecidableEq α] : List (Piece α) → List α → Bool
  | [], _ => true
  | .lit a :: pieces, text => match text with
      | [] => false
      | b :: rest => decide (a = b) && starts pieces rest
  | .many cls :: pieces, text => afterRun cls (starts pieces) text

def search [DecidableEq α] (pieces : List (Piece α)) (text : List α) : Bool :=
  text.tails.any (starts pieces)

theorem afterRunIff {cls : α → Bool} {next : List α → Bool} {text : List α} :
    afterRun cls next text = true ↔
      ∃ run rest, text = run ++ rest ∧ (∀ a ∈ run, cls a = true) ∧ next rest = true := by
  induction text with
  | nil => simp [afterRun]
  | cons b text ih =>
    rw [afterRun, Bool.or_eq_true, Bool.and_eq_true, ih]
    constructor
    · intro either
      cases either with
      | inl here => exact ⟨[], b :: text, rfl, by simp, here⟩
      | inr later =>
        obtain ⟨inside, run, rest, rfl, all, accepted⟩ := later
        exact ⟨b :: run, rest, rfl, by simpa using ⟨inside, all⟩, accepted⟩
    · intro split
      obtain ⟨run, rest, same, all, accepted⟩ := split
      cases run with
      | nil =>
        left
        rw [same]
        exact accepted
      | cons a run =>
        obtain ⟨rfl, rfl⟩ := List.cons.inj same
        exact .inr ⟨all b List.mem_cons_self, run, rest, rfl,
          fun a mem => all a (List.mem_cons_of_mem b mem), accepted⟩

variable [DecidableEq α]

theorem startsIff {pieces : List (Piece α)} : ∀ {text : List α}, starts pieces text = true ↔
    ∃ inner after, text = inner ++ after ∧ Matches pieces inner := by
  induction pieces with
  | nil =>
    intro text
    simp only [starts, true_iff]
    exact ⟨[], text, rfl, .nil⟩
  | cons piece pieces ih =>
    intro text
    cases piece with
    | lit a =>
      cases text with
      | nil =>
        simp only [starts, Bool.false_eq_true, false_iff]
        intro split
        obtain ⟨inner, after, same, described⟩ := split
        cases described
        cases same
      | cons b text =>
        simp only [starts, Bool.and_eq_true, decide_eq_true_eq, ih]
        constructor
        · intro both
          obtain ⟨rfl, inner, after, rfl, described⟩ := both
          exact ⟨a :: inner, after, rfl, .lit described⟩
        · intro split
          obtain ⟨inner, after, same, described⟩ := split
          cases described with
          | lit rest =>
            obtain ⟨rfl, rfl⟩ := List.cons.inj same
            exact ⟨rfl, _, after, rfl, rest⟩
    | many cls =>
      rw [starts, afterRunIff]
      constructor
      · intro split
        obtain ⟨run, rest, rfl, all, accepted⟩ := split
        obtain ⟨inner, after, rfl, described⟩ := ih.mp accepted
        exact ⟨run ++ inner, after, (List.append_assoc ..).symm, .many all described⟩
      · intro split
        obtain ⟨inner, after, rfl, described⟩ := split
        obtain ⟨run, rest, rfl, all, further⟩ := matchesMany.mp described
        exact ⟨run, rest ++ after, List.append_assoc .., all, ih.mpr ⟨rest, after, rfl, further⟩⟩

theorem searchIff {pieces : List (Piece α)} {text : List α} :
    search pieces text = true ↔ Found pieces text := by
  simp only [search, List.any_eq_true, List.mem_tails, startsIff]
  constructor
  · intro split
    obtain ⟨tail, ⟨before, rfl⟩, inner, after, rfl, described⟩ := split
    exact ⟨before, inner, after, (List.append_assoc ..).symm, described⟩
  · intro split
    obtain ⟨before, inner, after, rfl, described⟩ := split
    exact ⟨inner ++ after, ⟨before, (List.append_assoc ..).symm⟩, inner, after, rfl, described⟩

end

theorem cutFirst {α : Type} {P : α → Prop} {d d' : α} {r r' : List α} (out : ¬ P d) (out' : ¬ P d') :
    ∀ {l l' : List α}, (∀ a ∈ l, P a) → (∀ a ∈ l', P a) → l ++ d :: r = l' ++ d' :: r' →
      l = l' ∧ d = d' ∧ r = r' := by
  intro l
  induction l with
  | nil =>
    intro l' _ all' same
    cases l' with
    | nil => simpa using same
    | cons a l' =>
      have head : d = a := (List.cons.inj same).1
      exact absurd (head ▸ all' a List.mem_cons_self) out
  | cons a l ih =>
    intro l' all all' same
    cases l' with
    | nil =>
      have head : a = d' := (List.cons.inj same).1
      exact absurd (head ▸ all a List.mem_cons_self) out'
    | cons b l' =>
      obtain ⟨rfl, rest⟩ := List.cons.inj same
      obtain ⟨rfl, tail⟩ := ih (fun x mem => all x (List.mem_cons_of_mem a mem))
        (fun x mem => all' x (List.mem_cons_of_mem a mem)) rest
      exact ⟨rfl, tail⟩

theorem suffixAfter {α : Type} {d : α} {l r before word : List α} (out : d ∉ word)
    (same : before ++ word = l ++ d :: r) : word <:+ r := by
  rcases List.append_eq_append_iff.mp same with ⟨rest, _, tail⟩ | ⟨rest, _, tail⟩
  · exact absurd (by rw [tail]; simp) out
  · cases rest with
    | nil => exact absurd (by rw [← show d :: r = word from tail]; simp) out
    | cons e rest => exact ⟨rest, (List.cons.inj tail).2.symm⟩

end Search
