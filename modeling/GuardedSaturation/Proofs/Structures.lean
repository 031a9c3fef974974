import Mathlib
import GuardedSaturation.Proofs.Terms

/-! First-order structures and what it means that one satisfies a rule. Head variables that
the body lacks are read existentially. -/
namespace GuardedSaturation

universe u

/-- A domain with a meaning for constants, and for functions of each name and number of arguments. -/
structure Interpretation where
  Domain : Type u
  inhabited : Nonempty Domain
  const : String → Domain
  app : String → List Domain → Domain

/-- A first-order structure: an interpretation, and the facts that hold in it. -/
structure Structure extends Interpretation.{u} where
  holds : String × List Domain → Prop

namespace Interpretation
variable (M : Interpretation.{u})

abbrev Assignment := Variable → M.Domain

abbrev Fact := String × List M.Domain

mutual
def value (v : M.Assignment) : Term → M.Domain
  | .var x => v x
  | .const c => M.const c
  | .app f args => M.app f (values v args)

def values (v : M.Assignment) : List Term → List M.Domain
  | [] => []
  | t :: ts => value v t :: values v ts
end

def fact (v : M.Assignment) (a : Atom) : M.Fact := (a.predicate, M.values v a.args)

variable {M}

theorem values_eq_map (v : M.Assignment) (ts : List Term) : M.values v ts = ts.map (M.value v) := by
  induction ts with
  | nil => rfl
  | cons t ts ih => rw [values, ih, List.map_cons]

@[simp] theorem value_var (v : M.Assignment) (x : Variable) : M.value v (.var x) = v x := by simp [value]

@[simp] theorem value_const (v : M.Assignment) (c : String) : M.value v (.const c) = M.const c := by
  simp [value]

@[simp] theorem value_app (v : M.Assignment) (f : String) (args : List Term) :
    M.value v (.app f args) = M.app f (args.map (M.value v)) := by
  simp [value, values_eq_map]

theorem value_congr {v w : M.Assignment} {t : Term} (same : ∀ x ∈ t.vars, v x = w x) :
    M.value v t = M.value w t := by
  induction t with
  | var x => simpa using same x
  | const c => simp
  | app f args ih =>
    rw [value_app, value_app]
    refine congrArg (M.app f) (List.map_congr_left (fun t member => ih t member (fun x inside => same x ?_)))
    simpa using ⟨t, member, inside⟩

theorem value_subst (v : M.Assignment) (g : Variable → Term) (t : Term) :
    M.value v (t.subst g) = M.value (fun x => M.value v (g x)) t := by
  induction t with
  | var x => simp
  | const c => simp
  | app f args ih =>
    rw [Term.subst_app, value_app, value_app, List.map_map]
    exact congrArg (M.app f) (List.map_congr_left ih)

theorem fact_eq_iff {v w : M.Assignment} {a b : Atom} :
    M.fact v a = M.fact w b ↔ a.predicate = b.predicate ∧ M.values v a.args = M.values w b.args := by
  simp [fact]

theorem fact_congr {v w : M.Assignment} {a : Atom} (same : ∀ x ∈ a.vars, v x = w x) :
    M.fact v a = M.fact w a := by
  refine fact_eq_iff.mpr ⟨rfl, ?_⟩
  rw [values_eq_map, values_eq_map]
  exact List.map_congr_left (fun t member =>
    value_congr (fun x inside => same x (Atom.mem_vars.mpr ⟨t, member, inside⟩)))

theorem fact_subst (v : M.Assignment) (g : Variable → Term) (a : Atom) :
    M.fact v (a.subst g) = M.fact (fun x => M.value v (g x)) a := by
  refine fact_eq_iff.mpr ⟨rfl, ?_⟩
  rw [values_eq_map, values_eq_map, Atom.args_subst, List.map_map]
  exact List.map_congr_left (fun t _ => value_subst v g t)

/-- Terms over themselves: an assignment is a replacement, and a term has the value that
the replacement makes of it. -/
abbrev free : Interpretation where
  Domain := Term
  inhabited := ⟨.const ""⟩
  const := .const
  app := .app

theorem value_free (g : Variable → Term) (t : Term) : free.value g t = t.subst g := by
  induction t with
  | var x => simp
  | const c => simp
  | app f args ih => rw [value_app, Term.subst_app, List.map_congr_left ih]

theorem fact_free (g : Variable → Term) (a : Atom) : free.fact g a = (a.predicate, (a.subst g).args) := by
  rw [fact, values_eq_map, Atom.args_subst, List.map_congr_left (fun t _ => value_free g t)]

end Interpretation

namespace Structure
variable (M : Structure.{u})

def Satisfies (v : M.Assignment) (a : Atom) : Prop := M.holds (M.fact v a)

def SatisfiesAll (v : M.Assignment) (s : AtomSet) : Prop := ∀ a ∈ s, M.Satisfies v a

/-- Whenever the body holds, the head holds for some choice of the existential variables. -/
def Models (t : Tgd) : Prop :=
  ∀ v : M.Assignment, M.SatisfiesAll v t.body →
    ∃ w : M.Assignment, (∀ x ∈ t.universals, w x = v x) ∧ M.SatisfiesAll w t.head

variable {M}

theorem satisfies_congr {v w : M.Assignment} {a : Atom} (same : ∀ x ∈ a.vars, v x = w x) :
    M.Satisfies v a ↔ M.Satisfies w a := by
  rw [Satisfies, Satisfies, Interpretation.fact_congr same]

theorem satisfies_subst {v : M.Assignment} {g : Variable → Term} {a : Atom} :
    M.Satisfies v (a.subst g) ↔ M.Satisfies (fun x => M.value v (g x)) a := by
  rw [Satisfies, Satisfies, Interpretation.fact_subst]

theorem satisfiesAll_congr {v w : M.Assignment} {s : AtomSet} (same : ∀ x ∈ s.vars, v x = w x) :
    M.SatisfiesAll v s ↔ M.SatisfiesAll w s := by
  apply forall₂_congr
  intro a member
  apply satisfies_congr
  intro x inside
  apply same x
  exact AtomSet.mem_vars_of_mem member inside

theorem satisfiesAll_subst {v : M.Assignment} {g : Variable → Term} {s : AtomSet} :
    M.SatisfiesAll v (s.subst g) ↔ M.SatisfiesAll (fun x => M.value v (g x)) s := by
  constructor
  · intro all a member
    exact satisfies_subst.mp (all _ (AtomSet.mem_subst.mpr ⟨a, member, rfl⟩))
  · intro all a member
    obtain ⟨b, present, rfl⟩ := AtomSet.mem_subst.mp member
    exact satisfies_subst.mpr (all b present)

theorem satisfiesAll_union {v : M.Assignment} {s t : AtomSet} :
    M.SatisfiesAll v (s ∪ t) ↔ M.SatisfiesAll v s ∧ M.SatisfiesAll v t := by
  simp only [SatisfiesAll, SortedSet.mem_union, or_imp, forall_and]

theorem SatisfiesAll.mono {v : M.Assignment} {s t : AtomSet} (within : s ⊆ t)
    (all : M.SatisfiesAll v t) : M.SatisfiesAll v s :=
  fun a member => all a (within a member)

theorem Models.of_full {t : Tgd} (models : M.Models t) (full : t.isFull = true) {v : M.Assignment}
    (body : M.SatisfiesAll v t.body) : M.SatisfiesAll v t.head := by
  obtain ⟨w, same, head⟩ := models v body
  exact (satisfiesAll_congr (fun x inside => same x (Tgd.isFull_eq_true.mp full x inside))).mp head

end Structure
end GuardedSaturation
