import Mathlib
import GuardedSaturation.Proofs.Renaming

/-! Renaming a rule away from another one. The new names are the first of their stem that the other rule leaves free, so
none is used twice and none occurs in the other rule; and the rule keeps its shape, whatever names it had itself. -/
namespace GuardedSaturation

theorem filter_range_eq (p : Nat → Prop) [DecidablePred p] (n : Nat) :
    (List.range n).filter p = (List.range (Nat.count p n)).map (Nat.nth p) := by
  induction n with
  | zero => simp
  | succ n ih =>
    rw [List.range_succ, List.filter_append, ih, Nat.count_succ]
    by_cases free : p n
    · simp [free, List.range_succ, Nat.nth_count free]
    · simp [free]

/-- The stream of all free variables of a stem, as far as it is used. -/
theorem freshVariables_eq (stem : String) (n : Nat) (taken : List Variable) :
    freshVariables stem n taken =
      (List.range n).map (fun i => .indexed stem (Nat.nth (fun k => Variable.indexed stem k ∉ taken) i)) := by
  let free (k : Nat) : Prop := Variable.indexed stem k ∉ taken
  have stream : freshVariables stem n taken =
      (List.range (min n (Nat.count free (n + taken.length)))).map (fun i => .indexed stem (Nat.nth free i)) := by
    rw [freshVariables, List.filter_map]
    change (((List.range (n + taken.length)).filter (fun k => decide (free k))).map _).take n = _
    rw [filter_range_eq free, List.map_map, ← List.map_take, List.take_range]
    rfl
  have enough : min n (Nat.count free (n + taken.length)) = n := by
    simpa [freshVariables_length] using (congrArg List.length stream).symm
  rw [stream, enough]

namespace Tgd
variable {t : Tgd} {g : Variable → Variable}

theorem nameApart_eq_nth (stem : String) (other : Tgd) {x : Variable} (inside : x ∈ t.vars) :
    t.nameApart stem other x = .indexed stem (Nat.nth (fun n => Variable.indexed stem n ∉ other.vars) (t.vars.idxOf x)) := by
  obtain ⟨bound, name⟩ := nameApart_eq stem other inside
  rw [name]
  simp only [freshVariables_eq, List.getElem_map, List.getElem_range]

theorem size_rename {s : AtomSet} (within : ∀ x ∈ s.vars, x ∈ t.vars) (apart : Set.InjOn g {x | x ∈ t.vars}) :
    (s.subst (fun x => .var (g x))).size = s.size :=
  (AtomSet.perm_rename (apart.mono within)).length_eq.trans (List.length_map _)

/-- The renaming away from another rule binds exactly the variables of a rule. They go to different names, each to the
next one of the stem that the other rule leaves free; so the new names stand nowhere in the other rule, not in its
function terms either. The rule renamed is the rule with all variables replaced at once: it has as many atoms, and its
universal and its existential variables are the new names of those that it had. -/
theorem renamingApart_exact (t other : Tgd) (stem : String) :
    ∃ name : Variable → Variable,
      (∀ x, (t.renamingApart stem other).get? x = if x ∈ t.vars then some (.var (name x)) else none) ∧
      Set.InjOn name {x | x ∈ t.vars} ∧
      (∀ x ∈ t.vars,
        name x = .indexed stem (Nat.nth (fun n => Variable.indexed stem n ∉ other.vars) (t.vars.idxOf x)) ∧
        ∀ a, a ∈ other.body ∨ a ∈ other.head → ∀ s ∈ a.args, name x ∉ s.vars) ∧
      t.renameApart stem other = t.subst (fun x => .var (name x)) ∧
      (t.renameApart stem other).body.size = t.body.size ∧
      (t.renameApart stem other).head.size = t.head.size ∧
      (t.renameApart stem other).universals.Perm (t.universals.map name) ∧
      (t.renameApart stem other).existentials.Perm (t.existentials.map name) := by
  have apart := nameApart_injOn stem t other
  refine ⟨t.nameApart stem other, get?_renamingApart t stem other, apart, fun x inside => ⟨nameApart_eq_nth stem other inside, ?_⟩,
    renameApart_eq, ?_⟩
  · intro a member s argument mentioned
    exact nameApart_not_mem inside (mem_vars_of_mem member (Atom.mem_vars.mpr ⟨s, argument, mentioned⟩))
  · rw [renameApart_eq]
    exact ⟨size_rename (fun _ => mem_vars_of_body) apart, size_rename (fun _ => mem_vars_of_head) apart,
      universals_rename apart, existentials_rename apart⟩

/-- The rule uses names of the stem itself, and the other rule uses one inside a function term. -/
example : (Tgd.ofLists [⟨"p", [.var "z1", .var "z0"]⟩] [⟨"q", [.var "z0", .var "y"]⟩]).renameApart "z"
      (.ofLists [⟨"p", [.app "f" [.var "z1"], .var "x"]⟩] []) =
    .ofLists [⟨"p", [.var "z0", .var "z2"]⟩] [⟨"q", [.var "z2", .var "z3"]⟩] := by decide +kernel

end Tgd
end GuardedSaturation
