import Mathlib
import GuardedSaturation.Rule
import GuardedSaturation.Proofs.Terms

/-! Guards: when a rule has one, and that replacements of variables keep it. -/
namespace GuardedSaturation
namespace Tgd

/-- Some body atom has all the variables of the body. -/
def Guarded (t : Tgd) : Prop := ∃ a ∈ t.body, ∀ x ∈ t.body.vars, x ∈ a.vars

variable {t : Tgd}

theorem mem_guardCandidates {a : Atom} :
    a ∈ t.guardCandidates ↔ a ∈ t.body ∧ ∀ x ∈ t.body.vars, x ∈ a.vars := by
  simp [guardCandidates, universals, SortedSet.mem_toList]

theorem guarded_iff : t.Guarded ↔ t.guardCandidates ≠ [] := by
  rw [ne_eq, List.eq_nil_iff_forall_not_mem, not_forall]
  simp only [not_not, mem_guardCandidates, Guarded]

theorem guard?_isSome : t.guard?.isSome = true ↔ t.Guarded := by
  rw [guarded_iff, guard?]
  cases t.guardCandidates <;> simp

theorem Guarded.exists_guard (guarded : t.Guarded) : ∃ a, t.guard = .ok a := by
  obtain ⟨a, found⟩ := Option.isSome_iff_exists.mp (guard?_isSome.mpr guarded)
  exact ⟨a, by simp [guard, found]⟩

theorem Guarded.subst (guarded : t.Guarded) (g : Variable → Term) : (t.subst g).Guarded := by
  obtain ⟨a, member, covers⟩ := guarded
  refine ⟨a.subst g, AtomSet.mem_subst.mpr ⟨a, member, rfl⟩, fun y inside => ?_⟩
  obtain ⟨x, inside, image⟩ := AtomSet.mem_vars_subst.mp inside
  exact Atom.mem_vars_subst.mpr ⟨x, covers x inside, image⟩

theorem Guarded.congr {s : Tgd} (guarded : t.Guarded) (same : s.body = t.body) : s.Guarded := by
  rwa [Guarded, same]

end Tgd

namespace Rule

theorem build_of_guarded {t : Tgd} (guarded : t.Guarded) (discipline : Discipline) (o : AtomOrder) :
    ∃ r o', build discipline o t = .ok (r, o') ∧ r.tgd = t := by
  obtain ⟨a, found⟩ := guarded.exists_guard
  cases discipline <;> simp [build, found, bind, Except.bind, pure, Except.pure]

end Rule
end GuardedSaturation
