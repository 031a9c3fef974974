import GuardedSaturation.Term

/-! The structural order on terms: variables, then constants, then function terms, which
go by name, number of arguments and arguments from left to right. It is a linear order. -/
namespace GuardedSaturation.Term
open Std

mutual
protected def compare : Term → Term → Ordering
  | .var x, .var y => Ord.compare x y
  | .var _, _ => .lt
  | .const _, .var _ => .gt
  | .const c, .const d => Ord.compare c d
  | .const _, .app .. => .lt
  | .app f ss, .app g ts =>
      (Ord.compare f g).then ((Ord.compare ss.length ts.length).then (compareAll ss ts))
  | .app .., _ => .gt

def compareAll : List Term → List Term → Ordering
  | [], [] => .eq
  | [], _ :: _ => .lt
  | _ :: _, [] => .gt
  | s :: ss, t :: ts => (Term.compare s t).then (compareAll ss ts)
end

instance : Ord Term := ⟨Term.compare⟩

mutual
theorem compare_self : (s : Term) → Term.compare s s = .eq
  | .var _ | .const _ => by simp [Term.compare]
  | .app _ ss => by simp [Term.compare, compareAll_self ss]

theorem compareAll_self : (ss : List Term) → compareAll ss ss = .eq
  | [] => by simp [compareAll]
  | s :: ss => by simp [compareAll, compare_self s, compareAll_self ss]
end

mutual
theorem eq_of_compare : (s t : Term) → Term.compare s t = .eq → s = t
  | .var _, t | .const _, t => by cases t <;> simp [Term.compare]
  | .app _ ss, t => by
    cases t with
    | app _ ts =>
      simp only [Term.compare, Ordering.then_eq_eq, LawfulEqOrd.compare_eq_iff_eq, app.injEq]
      exact fun ⟨name, _, args⟩ => ⟨name, eq_of_compareAll ss ts args⟩
    | _ => simp [Term.compare]

theorem eq_of_compareAll : (ss ts : List Term) → compareAll ss ts = .eq → ss = ts
  | [], ts => by cases ts <;> simp [compareAll]
  | s :: ss, ts => by
    cases ts with
    | nil => simp [compareAll]
    | cons t ts =>
      simp only [compareAll, Ordering.then_eq_eq, List.cons.injEq]
      exact fun ⟨head, tail⟩ => ⟨eq_of_compare s t head, eq_of_compareAll ss ts tail⟩
end

mutual
theorem compare_swap : (s t : Term) → Term.compare s t = (Term.compare t s).swap
  | .var x, t | .const x, t => by
    cases t <;> simp [Term.compare, ← OrientedOrd.eq_swap]
  | .app f ss, t => by
    cases t with
    | app g ts =>
      simp only [Term.compare, Ordering.swap_then, ← OrientedOrd.eq_swap, ← compareAll_swap ss ts]
    | _ => simp [Term.compare]

theorem compareAll_swap : (ss ts : List Term) → compareAll ss ts = (compareAll ts ss).swap
  | [], ts => by cases ts <;> simp [compareAll]
  | s :: ss, ts => by
    cases ts with
    | nil => simp [compareAll]
    | cons t ts =>
      simp only [compareAll, Ordering.swap_then, ← compare_swap s t, ← compareAll_swap ss ts]
end

/-- Lexicographic combination keeps transitivity, given that ties of the first part are equalities. -/
theorem then_lt_trans {α : Type} [Ord α] [TransOrd α] [LawfulEqOrd α] {a b c : α} {p q r : Ordering}
    (tail : p = .lt → q = .lt → r = .lt)
    (ab : (Ord.compare a b).then p = .lt) (bc : (Ord.compare b c).then q = .lt) :
    (Ord.compare a c).then r = .lt := by
  simp only [Ordering.then_eq_lt, LawfulEqOrd.compare_eq_iff_eq] at *
  rcases ab with ab | ⟨rfl, ab⟩ <;> rcases bc with bc | ⟨rfl, bc⟩
  · exact .inl (TransCmp.lt_trans ab bc)
  · exact .inl ab
  · exact .inl bc
  · exact .inr ⟨rfl, tail ab bc⟩

mutual
theorem compare_lt_trans : (s t u : Term) →
    Term.compare s t = .lt → Term.compare t u = .lt → Term.compare s u = .lt
  | .var x, t, u => by
    cases t <;> cases u <;> simp [Term.compare]
    exact TransCmp.lt_trans
  | .const x, t, u => by
    cases t <;> cases u <;> simp [Term.compare]
    exact TransCmp.lt_trans
  | .app f ss, t, u => by
    cases t <;> cases u <;> simp only [Term.compare, reduceCtorEq, false_implies, implies_true]
    exact then_lt_trans (then_lt_trans (compareAll_lt_trans ss _ _))

theorem compareAll_lt_trans : (ss ts us : List Term) →
    compareAll ss ts = .lt → compareAll ts us = .lt → compareAll ss us = .lt
  | [], ts, us => by cases ts <;> cases us <;> simp [compareAll]
  | s :: ss, ts, us => by
    cases ts <;> cases us <;> simp only [compareAll, reduceCtorEq, false_implies, implies_true]
    next t ts u us =>
    simp only [Ordering.then_eq_lt]
    rintro (st | ⟨st, tail⟩) (tu | ⟨tu, tail'⟩)
    · exact .inl (compare_lt_trans s t u st tu)
    · exact .inl (eq_of_compare _ _ tu ▸ st)
    · exact .inl (eq_of_compare _ _ st ▸ tu)
    · exact .inr ⟨eq_of_compare _ _ st ▸ tu, compareAll_lt_trans ss ts us tail tail'⟩
end

instance : LawfulEqOrd Term where
  compare_self := compare_self _
  eq_of_compare := eq_of_compare _ _

instance : TransOrd Term where
  eq_swap := compare_swap _ _
  isLE_trans {s t u} st tu := by
    simp only [Ordering.isLE_iff_eq_lt_or_eq_eq] at *
    rcases st with st | st <;> rcases tu with tu | tu
    · exact .inl (compare_lt_trans s t u st tu)
    · exact .inl (eq_of_compare _ _ tu ▸ st)
    · exact .inl (eq_of_compare _ _ st ▸ tu)
    · exact .inr (eq_of_compare _ _ st ▸ tu)

instance : DecidableEq Term := fun _ _ => decidable_of_iff _ LawfulEqOrd.compare_eq_iff_eq

end GuardedSaturation.Term
