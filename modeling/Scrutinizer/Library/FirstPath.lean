import Mathlib.Data.List.Basic
import Mathlib.Logic.Relation

/-! The path on which a depth-first search first arrives at a node. The search goes from a node
to its successors in order; it does not enter a node that is on the stack or done. Where it
stands, each successor it has left behind has led it to every node it can lead to. -/
namespace FirstPath
variable {α : Type} (succ : α → List α)

inductive Leads (avoid : List α) : α → α → Prop where
  | here {node} (fresh : node ∉ avoid) : Leads avoid node node
  | step {node next goal} (fresh : node ∉ avoid) (edge : next ∈ succ node)
      (rest : Leads avoid next goal) : Leads avoid node goal

/- The way from `node`, which the nodes of `above` lead to, on to `goal`: by the first
successor that leads there beside the nodes passed. -/
inductive First (goal : α) : List α → α → List α → Prop where
  | done {above} : First goal above goal []
  | step {above node next before after path} (calls : succ node = before ++ next :: after)
      (fresh : next ∉ node :: above) (none : ∀ b ∈ before, ¬ Leads succ (node :: above) b goal)
      (rest : First goal (node :: above) next path) : First goal above node (next :: path)

/- A stack, the top first, on which the search left each node after it was finished with the
successors before the next one. -/
inductive Ready (root : α) (done : α → Prop) : List α → Prop where
  | root : Ready root done [root]
  | push {node above next before after} (calls : succ node = before ++ next :: after)
      (fresh : next ∉ node :: above)
      (searched : ∀ b ∈ before, ∀ v, Leads succ (node :: above) b v → done v)
      (rest : Ready root done (node :: above)) : Ready root done (next :: node :: above)

def Closed (done : α → Prop) (stack : List α) : Prop :=
  ∀ node, done node → ∀ next ∈ succ node, done next ∨ next ∈ stack

variable {succ} {root goal node : α} {avoid above stack : List α} {done done' : α → Prop}

theorem Leads.mono {more : List α} (h : Leads succ more node goal) (less : avoid ⊆ more) :
    Leads succ avoid node goal := by
  induction h with
  | here fresh => exact .here (fun mem => fresh (less mem))
  | step fresh edge _ ih => exact .step (fun mem => fresh (less mem)) edge ih

theorem Leads.fresh (h : Leads succ avoid node goal) : node ∉ avoid ∧ goal ∉ avoid := by
  induction h with
  | here fresh => exact ⟨fresh, fresh⟩
  | step fresh _ _ ih => exact ⟨fresh, ih.2⟩

theorem First.leads {path : List α} (h : First succ goal above node path) :
    node ∉ above → Leads succ above node goal := by
  induction h with
  | done => exact fun fresh => .here fresh
  | step calls fresh _ _ ih =>
    intro out
    have edge := calls ▸ List.mem_append_right _ List.mem_cons_self
    exact .step out edge ((ih fresh).mono (List.subset_cons_self _ _))

theorem First.onward {path : List α} (h : First succ goal above node path) :
    ∀ v ∈ node :: path, Relation.ReflTransGen (fun a b => b ∈ succ a) v goal := by
  induction h with
  | done =>
    intro v mem
    cases List.mem_singleton.mp mem
    exact .refl
  | @step above node next before after path calls _ _ _ ih =>
    intro v mem
    cases List.mem_cons.mp mem with
    | inr later => exact ih v later
    | inl here =>
      have edge : next ∈ succ v := here ▸ calls ▸ List.mem_append_right _ List.mem_cons_self
      exact .head edge (ih next List.mem_cons_self)

theorem First.ahead {next : α} {path : List α} (h : First succ goal above node (next :: path)) :
    goal ≠ node := by
  cases h with
  | step _ fresh _ rest =>
    intro same
    exact (rest.leads fresh).fresh.2 (same ▸ List.mem_cons_self)

theorem First.unique {path : List α} (h : First succ goal above node path) :
    ∀ {other : List α}, First succ goal above node other → other = path := by
  induction h with
  | done =>
    intro other h'
    cases other with
    | nil => rfl
    | cons next rest => exact absurd rfl h'.ahead
  | @step above node next before after path calls fresh none rest ih =>
    intro other h'
    cases h' with
    | done => exact absurd rfl (First.step calls fresh none rest).ahead
    | @step _ _ next' before' after' path' calls' fresh' none' rest' =>
      have same : next' = next := by
        rcases List.append_eq_append_iff.mp (calls.symm.trans calls') with
          ⟨between, hb, ha⟩ | ⟨between, hb, ha⟩
        · cases between with
          | nil => exact (List.cons.inj ha).1.symm
          | cons first between =>
            have head := (List.cons.inj ha).1
            have earlier : next ∈ before' := by simp [hb, head]
            exact absurd (rest.leads fresh) (none' next earlier)
        · cases between with
          | nil => exact (List.cons.inj ha).1
          | cons first between =>
            have head := (List.cons.inj ha).1
            have earlier : next' ∈ before := by simp [hb, head]
            exact absurd (rest'.leads fresh') (none next' earlier)
      subst same
      rw [ih rest']

theorem Closed.reaches (closed : Closed succ done stack) (h : Leads succ stack node goal) :
    done node → done goal := by
  induction h with
  | here _ => exact id
  | step fresh edge rest ih =>
    intro known
    cases closed _ known _ edge with
    | inl next => exact ih next
    | inr on => exact absurd on rest.fresh.1

theorem Ready.mono (ready : Ready succ root done stack) (more : ∀ node, done node → done' node) :
    Ready succ root done' stack := by
  induction ready with
  | root => exact .root
  | push calls fresh searched _ ih =>
    exact .push calls fresh (fun b mem v leads => more v (searched b mem v leads)) ih

theorem Ready.entered (ready : Ready succ root done stack) :
    ∀ node ∈ stack, node = root ∨ ∃ before, node ∈ succ before := by
  induction ready with
  | root => exact fun node mem => .inl (List.mem_singleton.mp mem)
  | push calls _ _ _ ih =>
    intro node mem
    cases List.mem_cons.mp mem with
    | inl top => exact .inr ⟨_, by rw [top, calls]; simp⟩
    | inr deeper => exact ih node deeper

theorem Ready.distinct (ready : Ready succ root done (node :: above)) : node ∉ above := by
  cases ready with
  | root => exact List.not_mem_nil
  | push _ fresh _ _ => exact fresh

theorem Ready.extends (ready : Ready succ root done stack) (new : ¬ done goal) :
    ∀ {node above path}, stack = node :: above → First succ goal above node path →
      ∃ tail, root :: tail = (node :: above).reverse ++ path ∧ First succ goal [] root tail := by
  induction ready with
  | root =>
    intro node above path same first
    cases same
    exact ⟨path, rfl, first⟩
  | push calls fresh searched _ ih =>
    intro node above path same first
    cases same
    have none : ∀ b ∈ _, ¬ Leads succ _ b goal :=
      fun b mem leads => new (searched b mem goal leads)
    obtain ⟨tail, split, path⟩ := ih rfl (.step calls fresh none first)
    exact ⟨tail, by rw [split]; simp, path⟩

theorem Ready.first (ready : Ready succ root done (goal :: above)) (new : ¬ done goal) :
    ∃ tail, root :: tail = (goal :: above).reverse ∧ First succ goal [] root tail := by
  obtain ⟨tail, split, path⟩ := ready.extends new rfl .done
  exact ⟨tail, by rw [split, List.append_nil], path⟩

end FirstPath
