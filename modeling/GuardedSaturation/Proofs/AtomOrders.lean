import Mathlib
import GuardedSaturation.Proofs.Calculus

/-! The order on atoms is a total preorder, whatever weights the symbols have. So some atoms of a list are
maximal, and every rule of a selecting algorithm has a selected atom. -/
namespace GuardedSaturation
open Std

/-- The orders of three things taken in pairs, the first to the second, the second to the third and the first to the
third, fit together. -/
structure Fit (p q r : Ordering) : Prop where
  left : p = .eq → r = q
  right : q = .eq → r = p
  both : p = q → r = q

namespace Fit
variable {p q r p' q' r' : Ordering}

theorem of_compare {α : Type} [Ord α] [TransOrd α] (a b c : α) : Fit (compare a b) (compare b c) (compare a c) := by
  refine ⟨fun same => TransCmp.congr_left same, fun same => (TransCmp.congr_right same).symm, fun same => ?_⟩
  cases first : compare a b <;> rw [first] at same
  · exact (TransCmp.lt_trans first same.symm).trans same
  · exact (TransCmp.eq_trans first same.symm).trans same
  · exact (TransCmp.gt_trans first same.symm).trans same

theorem lex (first : Fit p q r) (second : Fit p' q' r') : Fit (p.then p') (q.then q') (r.then r') := by
  obtain ⟨left, right, both⟩ := first
  obtain ⟨left', right', both'⟩ := second
  constructor <;> cases p <;> cases q <;> cases r <;> simp_all [Ordering.then]

theorem isLE (fit : Fit p q r) (first : p.isLE = true) (second : q.isLE = true) : r.isLE = true := by
  obtain ⟨left, right, both⟩ := fit
  cases p <;> cases q <;> simp_all

end Fit

namespace Term
variable (weight : Symbol → Nat)

mutual
theorem compareBy_swap : (s t : Term) → compareBy weight s t = (compareBy weight t s).swap
  | .var x, t | .const x, t => by
    cases t <;> simp [compareBy, ← OrientedOrd.eq_swap]
  | .app f ss, t => by
    cases t with
    | app g ts => simp only [compareBy, Ordering.swap_then, ← OrientedOrd.eq_swap, ← compareAllBy_swap ss ts]
    | _ => simp [compareBy]

theorem compareAllBy_swap : (ss ts : List Term) → compareAllBy weight ss ts = (compareAllBy weight ts ss).swap
  | [], ts => by cases ts <;> simp [compareAllBy]
  | s :: ss, ts => by
    cases ts with
    | nil => simp [compareAllBy]
    | cons t ts => simp only [compareAllBy, Ordering.swap_then, ← compareBy_swap s t, ← compareAllBy_swap ss ts]
end

mutual
theorem compareBy_fit : (s t u : Term) → Fit (compareBy weight s t) (compareBy weight t u) (compareBy weight s u)
  | .var x, t, u | .const x, t, u => by
    cases t <;> cases u <;> simp only [compareBy] <;>
      first | exact .of_compare _ _ _ | constructor <;> grind
  | .app f ss, t, u => by
    cases t <;> cases u <;> simp only [compareBy] <;>
      first | exact .lex (.of_compare _ _ _) (compareAllBy_fit ss _ _) | constructor <;> grind

theorem compareAllBy_fit : (ss ts us : List Term) →
    Fit (compareAllBy weight ss ts) (compareAllBy weight ts us) (compareAllBy weight ss us)
  | [], ts, us => by
    cases ts <;> cases us <;> constructor <;> simp [compareAllBy]
  | s :: ss, ts, us => by
    cases ts <;> cases us <;> simp only [compareAllBy] <;>
      first | exact .lex (compareBy_fit s _ _) (compareAllBy_fit ss _ _) | constructor <;> grind
end

end Term

namespace AtomOrder
variable {o : AtomOrder}

instance : TransCmp o.compareNoted :=
  have : TransCmp (fun a b : Atom => Term.compareAllBy o.weight a.args b.args) :=
    { eq_swap := Term.compareAllBy_swap o.weight _ _
      isLE_trans := (Term.compareAllBy_fit o.weight _ _ _).isLE }
  inferInstanceAs (TransCmp (compareLex (compareOn o.topWeight) (compareLex (compareOn (fun a => o.predicates.keys.idxOf a.symbol))
    (compareLex (compareOn o.topPosition) (fun a b => Term.compareAllBy o.weight a.args b.args)))))

/-- Some atom of a list is not exceeded by any other. -/
theorem exists_greatest {atoms : List Atom} (some : atoms ≠ []) : ∃ a ∈ atoms, ∀ b ∈ atoms, o.compareNoted a b ≠ .lt := by
  induction atoms with
  | nil => contradiction
  | cons a atoms ih =>
    by_cases only : atoms = []
    · exact ⟨a, List.mem_cons_self, by simp [only, compareNoted_self]⟩
    · obtain ⟨b, member, greatest⟩ := ih only
      cases order : o.compareNoted b a with
      | lt =>
        refine ⟨a, List.mem_cons_self, List.forall_mem_cons.mpr ⟨by simp [compareNoted_self], fun c inside before => ?_⟩⟩
        exact greatest c inside (TransCmp.lt_trans order before)
      | eq | gt =>
        exact ⟨b, List.mem_cons_of_mem a member, List.forall_mem_cons.mpr ⟨by simp [order], greatest⟩⟩

theorem maximal_ne_nil {atoms : List Atom} (some : atoms ≠ []) : (o.maximal atoms).1 ≠ [] := by
  obtain ⟨a, member, greatest⟩ := exists_greatest (o := o.noteAll atoms) some
  exact List.ne_nil_of_mem (List.mem_filter.mpr ⟨member, by simpa using greatest⟩)

end AtomOrder

namespace Selection
variable {t : Tgd}

/-- A guarded rule has eligible atoms. -/
theorem eligible_ne_nil (guarded : t.Guarded) (side : (eligible t).side = .body) : (eligible t).atoms ≠ [] := by
  unfold eligible at *
  split at side
  · next functional =>
    rw [if_pos functional]
    obtain ⟨a, member, kind⟩ := List.any_eq_true.mp functional
    exact List.ne_nil_of_mem (List.mem_filter.mpr ⟨member, kind⟩)
  · next plain =>
    split at side
    · cases side
    · next plain' =>
      rw [if_neg plain, if_neg plain']
      exact Tgd.guarded_iff.mp guarded

end Selection

/-- A rule on the right has a selected atom. -/
theorem Rule.Built.exists_selected {algorithm : Algorithm} {r : Rule} (built : r.Built algorithm)
    (selecting : algorithm ≠ .existential) (guarded : r.tgd.Guarded) (side : (Selection.eligible r.tgd).side = .body) :
    ∃ selection, r.selection? = some selection ∧ ∃ a ∈ selection.atoms, a ∈ (Selection.eligible r.tgd).atoms := by
  have eligible := Selection.eligible_ne_nil guarded side
  have select (atoms : List Atom) (within : ∀ a ∈ atoms, a ∈ (Selection.eligible r.tgd).atoms) (some : atoms ≠ [])
      (found : r.selection? = .some ⟨atoms, (Selection.eligible r.tgd).side⟩) :
      ∃ selection, r.selection? = .some selection ∧ ∃ a ∈ selection.atoms, a ∈ (Selection.eligible r.tgd).atoms := by
    obtain ⟨a, selected⟩ := List.exists_mem_of_ne_nil _ some
    exact ⟨_, found, a, selected, within a selected⟩
  obtain whole | ⟨o, maximal⟩ := built.selection_eq selecting
  · exact select _ (fun _ member => member) eligible whole
  · exact select _ (fun _ member => AtomOrder.mem_of_mem_maximal member) (AtomOrder.maximal_ne_nil eligible) maximal

end GuardedSaturation
