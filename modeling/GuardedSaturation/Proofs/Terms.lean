import Mathlib
import GuardedSaturation.Tgd

/-! Variables and replacement: how the variables of a term, an atom, a set or a rule change
when variables are replaced, and when two replacements cannot be told apart. -/
namespace GuardedSaturation

namespace Term

/-- A property of the arguments is a property of the function term. -/
@[elab_as_elim, induction_eliminator]
theorem induct {motive : Term → Prop} (var : ∀ x, motive (.var x)) (const : ∀ c, motive (.const c))
    (app : ∀ f args, (∀ t ∈ args, motive t) → motive (.app f args)) : ∀ t, motive t :=
  @Term.rec motive (fun ts => ∀ t ∈ ts, motive t) var const app (by simp)
    (fun t ts first rest => by simpa using ⟨first, rest⟩)

@[simp] theorem vars_var (x : Variable) : (var x).vars = [x] := by simp [vars]

@[simp] theorem vars_const (c : String) : (const c).vars = [] := by simp [vars]

@[simp] theorem vars_app (f : String) (args : List Term) : (app f args).vars = args.flatMap vars := by
  simp [vars, varsAll_eq_flatMap]

@[simp] theorem subst_var (g : Variable → Term) (x : Variable) : (var x).subst g = g x := by simp [subst]

@[simp] theorem subst_const (g : Variable → Term) (c : String) : (const c).subst g = const c := by
  simp [subst]

@[simp] theorem subst_app (g : Variable → Term) (f : String) (args : List Term) :
    (app f args).subst g = app f (args.map (subst g)) := by
  simp [subst, substAll_eq_map]

theorem subst_congr {g h : Variable → Term} {t : Term} (same : ∀ x ∈ t.vars, g x = h x) :
    t.subst g = t.subst h := by
  induction t with
  | var x => simpa using same x
  | const c => simp
  | app f args ih =>
    simp only [subst_app, app.injEq, true_and]
    apply List.map_congr_left
    intro t member
    apply ih t member
    intro x inside
    apply same x
    simpa using ⟨t, member, inside⟩

theorem subst_subst (g h : Variable → Term) (t : Term) :
    (t.subst g).subst h = t.subst (fun x => (g x).subst h) := by
  induction t with
  | var x => simp
  | const c => simp
  | app f args ih => simpa using ih

@[simp] theorem subst_self (t : Term) : t.subst var = t := by
  induction t with
  | var x => simp
  | const c => simp
  | app f args ih =>
    rw [subst_app, List.map_congr_left ih]
    simp

theorem mem_vars_subst {g : Variable → Term} {t : Term} {y : Variable} :
    y ∈ (t.subst g).vars ↔ ∃ x ∈ t.vars, y ∈ (g x).vars := by
  induction t with
  | var x => simp
  | const c => simp
  | app f args ih =>
    simp only [subst_app, vars_app, List.mem_flatMap, List.mem_map, exists_exists_and_eq_and]
    constructor
    · rintro ⟨t, member, inside⟩
      obtain ⟨x, present, inside⟩ := (ih t member).mp inside
      exact ⟨x, ⟨t, member, present⟩, inside⟩
    · rintro ⟨x, ⟨t, member, present⟩, inside⟩
      exact ⟨t, member, (ih t member).mpr ⟨x, present, inside⟩⟩

@[simp] theorem mentions_iff {t : Term} {x : Variable} : t.mentions x = true ↔ x ∈ t.vars := by
  simp [mentions]

theorem isFunction_subst {g : Variable → Term} {t : Term} (plain : t.isFunction = false)
    (images : ∀ x ∈ t.vars, (g x).isFunction = false) : (t.subst g).isFunction = false := by
  cases t with
  | var x => simpa using images x
  | const c => simp [isFunction]
  | app f args => simp [isFunction] at plain

theorem plain_cases {t : Term} (plain : t.isFunction = false) :
    (∃ x, t = .var x) ∨ ∃ c, t = .const c := by
  cases t with
  | var x => exact .inl ⟨x, rfl⟩
  | const c => exact .inr ⟨c, rfl⟩
  | app f args => simp [isFunction] at plain

theorem size_lt_of_mem {f : String} {args : List Term} {t : Term} (member : t ∈ args) : t.size < (app f args).size := by
  have : t.size ≤ sizeAll args := by
    induction args with
    | nil => simp at member
    | cons s args ih =>
      rw [sizeAll]
      rcases List.mem_cons.mp member with rfl | member
      · exact Nat.le_add_right _ _
      · exact (ih member).trans (Nat.le_add_left _ _)
  rw [size]
  omega

end Term

namespace Atom

@[simp] theorem predicate_subst (g : Variable → Term) (a : Atom) : (a.subst g).predicate = a.predicate := rfl

@[simp] theorem args_subst (g : Variable → Term) (a : Atom) :
    (a.subst g).args = a.args.map (Term.subst g) := by
  simp [subst, Term.substAll_eq_map]

theorem eq_iff {a b : Atom} : a = b ↔ a.predicate = b.predicate ∧ a.args = b.args := by
  cases a; cases b; simp

theorem subst_congr {g h : Variable → Term} {a : Atom} (same : ∀ x ∈ a.vars, g x = h x) :
    a.subst g = a.subst h := by
  refine eq_iff.mpr ⟨rfl, ?_⟩
  rw [args_subst, args_subst]
  apply List.map_congr_left
  intro t member
  apply Term.subst_congr
  intro x inside
  apply same x
  exact mem_vars.mpr ⟨t, member, inside⟩

theorem subst_subst (g h : Variable → Term) (a : Atom) :
    (a.subst g).subst h = a.subst (fun x => (g x).subst h) := by
  simp [eq_iff, Term.subst_subst]

@[simp] theorem subst_self (a : Atom) : a.subst .var = a := by
  refine eq_iff.mpr ⟨rfl, ?_⟩
  rw [args_subst, List.map_congr_left (fun t _ => Term.subst_self t)]
  simp

theorem mem_vars_subst {g : Variable → Term} {a : Atom} {y : Variable} :
    y ∈ (a.subst g).vars ↔ ∃ x ∈ a.vars, y ∈ (g x).vars := by
  simp only [mem_vars, args_subst, List.mem_map, exists_exists_and_eq_and, Term.mem_vars_subst]
  constructor
  · rintro ⟨t, member, x, inside, image⟩
    exact ⟨x, ⟨t, member, inside⟩, image⟩
  · rintro ⟨x, ⟨t, member, inside⟩, image⟩
    exact ⟨t, member, x, inside, image⟩

theorem mem_vars_rename {g : Variable → Variable} {a : Atom} {y : Variable} :
    y ∈ (a.subst (fun x => .var (g x))).vars ↔ ∃ x ∈ a.vars, g x = y := by
  simp only [mem_vars_subst, Term.vars_var, List.mem_singleton, eq_comm]

@[simp] theorem mentions_iff {a : Atom} {x : Variable} : a.mentions x = true ↔ x ∈ a.vars := by
  simp [mentions, Term.varsAll_eq_flatMap]

theorem isFunctional_eq_false {a : Atom} :
    a.isFunctional = false ↔ ∀ t ∈ a.args, t.isFunction = false := by
  simp [isFunctional]

theorem var_mem_args {a : Atom} (plain : a.isFunctional = false) {x : Variable} :
    .var x ∈ a.args ↔ x ∈ a.vars := by
  rw [mem_vars]
  constructor
  · exact fun member => ⟨.var x, member, by simp⟩
  · rintro ⟨t, member, inside⟩
    rcases Term.plain_cases (isFunctional_eq_false.mp plain t member) with ⟨y, rfl⟩ | ⟨c, rfl⟩
    · simp only [Term.vars_var, List.mem_singleton] at inside
      rwa [inside]
    · simp at inside

theorem isFunctional_subst {g : Variable → Term} {a : Atom} (plain : a.isFunctional = false)
    (images : ∀ x ∈ a.vars, (g x).isFunction = false) : (a.subst g).isFunctional = false := by
  rw [isFunctional_eq_false] at plain ⊢
  simp only [args_subst, List.mem_map, forall_exists_index, and_imp, forall_apply_eq_imp_iff₂]
  intro t member
  exact Term.isFunction_subst (plain t member) (fun x inside => images x (mem_vars.mpr ⟨t, member, inside⟩))

end Atom

namespace AtomSet

theorem isFunctional_eq_false {s : AtomSet} :
    s.isFunctional = false ↔ ∀ a ∈ s, a.isFunctional = false := by
  simp [isFunctional, SortedSet.any, SortedSet.mem_toList]

theorem mem_vars_of_mem {s : AtomSet} {a : Atom} {x : Variable} (member : a ∈ s) (inside : x ∈ a.vars) :
    x ∈ s.vars := mem_vars.mpr ⟨a, member, inside⟩

theorem mem_vars_subst {g : Variable → Term} {s : AtomSet} {y : Variable} :
    y ∈ (s.subst g).vars ↔ ∃ x ∈ s.vars, y ∈ (g x).vars := by
  simp only [mem_vars, mem_subst]
  constructor
  · rintro ⟨_, ⟨a, member, rfl⟩, inside⟩
    obtain ⟨x, inside, image⟩ := Atom.mem_vars_subst.mp inside
    exact ⟨x, ⟨a, member, inside⟩, image⟩
  · rintro ⟨x, ⟨a, member, inside⟩, image⟩
    exact ⟨a.subst g, ⟨a, member, rfl⟩, Atom.mem_vars_subst.mpr ⟨x, inside, image⟩⟩

theorem mem_vars_rename {g : Variable → Variable} {s : AtomSet} {y : Variable} :
    y ∈ (s.subst (fun x => .var (g x))).vars ↔ ∃ x ∈ s.vars, g x = y := by
  simp only [mem_vars_subst, Term.vars_var, List.mem_singleton, eq_comm]

theorem mem_vars_union {s t : AtomSet} {x : Variable} : x ∈ (s ∪ t).vars ↔ x ∈ s.vars ∨ x ∈ t.vars := by
  simp only [mem_vars, SortedSet.mem_union, or_and_right, exists_or]

theorem subst_congr {g h : Variable → Term} {s : AtomSet} (same : ∀ x ∈ s.vars, g x = h x) :
    s.subst g = s.subst h := by
  ext a
  simp only [mem_subst]
  constructor <;> rintro ⟨b, member, rfl⟩ <;> refine ⟨b, member, ?_⟩
  · exact (Atom.subst_congr (fun x inside => same x (mem_vars_of_mem member inside))).symm
  · exact Atom.subst_congr (fun x inside => same x (mem_vars_of_mem member inside))

theorem subst_subst (g h : Variable → Term) (s : AtomSet) :
    (s.subst g).subst h = s.subst (fun x => (g x).subst h) := by
  ext a
  simp only [mem_subst, exists_exists_and_eq_and, Atom.subst_subst]

@[simp] theorem subst_self (s : AtomSet) : s.subst .var = s := by
  ext a
  simp

end AtomSet

namespace Tgd

theorem subst_subst (g h : Variable → Term) (t : Tgd) :
    (t.subst g).subst h = t.subst (fun x => (g x).subst h) := by
  rw [subst, subst, subst, AtomSet.subst_subst, AtomSet.subst_subst]

@[simp] theorem subst_self (t : Tgd) : t.subst .var = t := by
  rw [subst, AtomSet.subst_self, AtomSet.subst_self]

@[simp] theorem body_subst (g : Variable → Term) (t : Tgd) : (t.subst g).body = t.body.subst g := rfl

@[simp] theorem head_subst (g : Variable → Term) (t : Tgd) : (t.subst g).head = t.head.subst g := rfl

@[simp] theorem mem_vars {t : Tgd} {x : Variable} : x ∈ t.vars ↔ x ∈ t.body.vars ∨ x ∈ t.head.vars := by
  simp only [vars, List.mem_append, mem_existentials, universals]
  tauto

theorem mem_vars_subst {g : Variable → Term} {t : Tgd} {y : Variable} :
    y ∈ (t.subst g).vars ↔ ∃ x ∈ t.vars, y ∈ (g x).vars := by
  simp only [mem_vars, body_subst, head_subst, AtomSet.mem_vars_subst, or_and_right, exists_or]

theorem mem_vars_rename {g : Variable → Variable} {t : Tgd} {y : Variable} :
    y ∈ (t.subst (fun x => .var (g x))).vars ↔ ∃ x ∈ t.vars, g x = y := by
  simp only [mem_vars_subst, Term.vars_var, List.mem_singleton, eq_comm]

theorem mem_vars_of_body {t : Tgd} {x : Variable} (inside : x ∈ t.body.vars) : x ∈ t.vars :=
  mem_vars.mpr (.inl inside)

theorem mem_vars_of_head {t : Tgd} {x : Variable} (inside : x ∈ t.head.vars) : x ∈ t.vars :=
  mem_vars.mpr (.inr inside)

theorem mem_vars_of_mem {t : Tgd} {a : Atom} {x : Variable} (member : a ∈ t.body ∨ a ∈ t.head) (inside : x ∈ a.vars) :
    x ∈ t.vars :=
  mem_vars.mpr (member.imp (AtomSet.mem_vars_of_mem · inside) (AtomSet.mem_vars_of_mem · inside))

theorem isFull_eq_true {t : Tgd} : t.isFull = true ↔ ∀ x ∈ t.head.vars, x ∈ t.body.vars := by
  simp [isFull, universals]

theorem isFunctionFree_eq_true {t : Tgd} :
    t.isFunctionFree = true ↔
      (∀ a ∈ t.body, a.isFunctional = false) ∧ ∀ a ∈ t.head, a.isFunctional = false := by
  simp [isFunctionFree, AtomSet.isFunctional_eq_false]

theorem isFunctionFree_subst {g : Variable → Term} {t : Tgd} (free : t.isFunctionFree = true)
    (images : ∀ x, (g x).isFunction = false) : (t.subst g).isFunctionFree = true := by
  rw [isFunctionFree_eq_true] at free ⊢
  constructor <;> intro a member <;> obtain ⟨b, present, rfl⟩ := AtomSet.mem_subst.mp member
  · exact Atom.isFunctional_subst (free.1 b present) (fun x _ => images x)
  · exact Atom.isFunctional_subst (free.2 b present) (fun x _ => images x)

theorem isFull_subst {g : Variable → Term} {t : Tgd} (full : t.isFull = true) : (t.subst g).isFull = true := by
  rw [isFull_eq_true] at full ⊢
  intro y inside
  obtain ⟨x, inside, image⟩ := AtomSet.mem_vars_subst.mp inside
  exact AtomSet.mem_vars_subst.mpr ⟨x, full x inside, image⟩

end Tgd
end GuardedSaturation
