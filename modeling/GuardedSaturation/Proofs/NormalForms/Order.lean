import Mathlib
import GuardedSaturation.Proofs.NormalForms

/-! The order in which the atoms of a rule are ranked is linear: by predicate, by shape, and by names. Among
names with one stem those with smaller numbers come first. -/
namespace GuardedSaturation
open Std

theorem transCmp_on {α β : Type} (cmp : β → β → Ordering) [TransCmp cmp] (f : α → β) :
    TransCmp (fun a b => cmp (f a) (f b)) where
  eq_swap {a b} := @OrientedCmp.eq_swap _ cmp _ (f a) (f b)
  isLE_trans {a b c} := @TransCmp.isLE_trans _ cmp _ (f a) (f b) (f c)

instance : LawfulEqOrd Quantifier where
  compare_self {k} := by cases k <;> rfl
  eq_of_compare {k l} := by cases k <;> cases l <;> decide

instance : TransOrd Quantifier where
  eq_swap {k l} := by cases k <;> cases l <;> rfl
  isLE_trans {k l m} := by cases k <;> cases l <;> cases m <;> decide

namespace Shape

mutual
theorem compare_self : (s : Shape) → Shape.compare s s = .eq
  | .const _ | .numbered _ _ | .fresh _ _ => by simp [Shape.compare]
  | .app _ ss => by simp [Shape.compare, compareAll_self ss]

theorem compareAll_self : (ss : List Shape) → compareAll ss ss = .eq
  | [] => by simp [compareAll]
  | s :: ss => by simp [compareAll, compare_self s, compareAll_self ss]
end

mutual
theorem eq_of_compare : (s t : Shape) → Shape.compare s t = .eq → s = t
  | .const _, t | .numbered _ _, t | .fresh _ _, t => by
    cases t <;> simp +contextual [Shape.compare, Ordering.then_eq_eq]
  | .app _ ss, t => by
    cases t with
    | app _ ts =>
      simp only [Shape.compare, Ordering.then_eq_eq, LawfulEqOrd.compare_eq_iff_eq, app.injEq]
      exact fun ⟨name, _, args⟩ => ⟨name, eq_of_compareAll ss ts args⟩
    | _ => simp [Shape.compare]

theorem eq_of_compareAll : (ss ts : List Shape) → compareAll ss ts = .eq → ss = ts
  | [], ts => by cases ts <;> simp [compareAll]
  | s :: ss, ts => by
    cases ts with
    | nil => simp [compareAll]
    | cons t ts =>
      simp only [compareAll, Ordering.then_eq_eq, List.cons.injEq]
      exact fun ⟨head, tail⟩ => ⟨eq_of_compare s t head, eq_of_compareAll ss ts tail⟩
end

mutual
theorem compare_swap : (s t : Shape) → Shape.compare s t = (Shape.compare t s).swap
  | .const _, t | .numbered _ _, t | .fresh _ _, t => by
    cases t <;> simp [Shape.compare, Ordering.swap_then, ← OrientedOrd.eq_swap]
  | .app f ss, t => by
    cases t with
    | app g ts =>
      simp only [Shape.compare, Ordering.swap_then, ← OrientedOrd.eq_swap, ← compareAll_swap ss ts]
    | _ => simp [Shape.compare]

theorem compareAll_swap : (ss ts : List Shape) → compareAll ss ts = (compareAll ts ss).swap
  | [], ts => by cases ts <;> simp [compareAll]
  | s :: ss, ts => by
    cases ts with
    | nil => simp [compareAll]
    | cons t ts =>
      simp only [compareAll, Ordering.swap_then, ← compare_swap s t, ← compareAll_swap ss ts]
end

mutual
theorem compare_lt_trans : (s t u : Shape) →
    Shape.compare s t = .lt → Shape.compare t u = .lt → Shape.compare s u = .lt
  | .const _, t, u => by
    cases t <;> cases u <;> simp [Shape.compare]
    exact TransCmp.lt_trans
  | .numbered _ _, t, u | .fresh _ _, t, u => by
    cases t <;> cases u <;> simp only [Shape.compare, reduceCtorEq, false_implies, implies_true]
    exact Term.then_lt_trans TransCmp.lt_trans
  | .app f ss, t, u => by
    cases t <;> cases u <;> simp only [Shape.compare, reduceCtorEq, false_implies, implies_true]
    exact Term.then_lt_trans (Term.then_lt_trans (compareAll_lt_trans ss _ _))

theorem compareAll_lt_trans : (ss ts us : List Shape) →
    compareAll ss ts = .lt → compareAll ts us = .lt → compareAll ss us = .lt
  | [], ts, us => by cases ts <;> cases us <;> simp [compareAll]
  | s :: ss, ts, us => by
    cases ts <;> cases us <;> simp only [compareAll, reduceCtorEq, false_implies, implies_true]
    next t ts u us =>
    simp only [Ordering.then_eq_lt]
    rintro (st | ⟨st, tail⟩) (tu | ⟨tu, tail'⟩)
    · exact .inl (compare_lt_trans s t u st tu)
    · exact .inl (eq_of_compare _ _ tu ▸ st)
    · exact .inl (eq_of_compare _ _ st ▸ tu)
    · exact .inr ⟨eq_of_compare _ _ st ▸ tu, compareAll_lt_trans ss ts us tail tail'⟩
end

instance : LawfulEqCmp compareAll where
  compare_self := compareAll_self _
  eq_of_compare := eq_of_compareAll _ _

instance : TransCmp compareAll where
  eq_swap := compareAll_swap _ _
  isLE_trans {ss ts us} first second := by
    simp only [Ordering.isLE_iff_eq_lt_or_eq_eq] at *
    rcases first with first | first <;> rcases second with second | second
    · exact .inl (compareAll_lt_trans ss ts us first second)
    · exact .inl (eq_of_compareAll _ _ second ▸ first)
    · exact .inl (eq_of_compareAll _ _ first ▸ second)
    · exact .inr (eq_of_compareAll _ _ first ▸ second)

end Shape

section Names

theorem digitChar_lt {m n : Nat} (before : m < n) (bound : n < 10) : m.digitChar < n.digitChar := by
  have all : ∀ n : Fin 10, ∀ m : Fin n, Nat.digitChar m < Nat.digitChar n := by decide
  exact all ⟨n, bound⟩ ⟨m, before⟩

theorem append_lt_append {l m : List Char} (x y : List Char) (same : l.length = m.length) (before : l < m) :
    l ++ x < m ++ y := by
  induction l generalizing m with
  | nil =>
    rw [List.eq_nil_of_length_eq_zero same.symm] at before
    simp at before
  | cons c l ih =>
    cases m with
    | nil => simp at same
    | cons d m =>
      rw [List.cons_lt_cons_iff] at before
      refine List.cons_lt_cons_iff.mpr (before.imp id (fun ⟨first, later⟩ => ⟨first, ?_⟩))
      exact ih (by simpa using same) later

/-- Smaller numbers have fewer digits, or as many and smaller ones. -/
theorem toDigits_before {m n : Nat} (before : m < n) :
    (Nat.toDigits 10 m).length < (Nat.toDigits 10 n).length ∨
      (Nat.toDigits 10 m).length = (Nat.toDigits 10 n).length ∧ Nat.toDigits 10 m < Nat.toDigits 10 n := by
  induction n using Nat.strong_induction_on generalizing m with
  | _ n ih =>
    by_cases short : n < 10
    · rw [Nat.toDigits_of_lt_base short, Nat.toDigits_of_lt_base (before.trans short)]
      exact .inr ⟨rfl, List.cons_lt_cons_iff.mpr (.inl (digitChar_lt before short))⟩
    · rw [Nat.toDigits_of_base_le (n := n) (by norm_num) (Nat.le_of_not_lt short)]
      by_cases small : m < 10
      · left
        rw [Nat.toDigits_of_lt_base small, List.length_append]
        simpa using Nat.length_toDigits_pos
      · rw [Nat.toDigits_of_base_le (n := m) (by norm_num) (Nat.le_of_not_lt small)]
        obtain prefixes | same : m / 10 < n / 10 ∨ m / 10 = n / 10 := by omega
        · obtain fewer | ⟨same, smaller⟩ := ih (n / 10) (by omega) prefixes
          · exact .inl (by simpa using fewer)
          · exact .inr ⟨by simp [same], append_lt_append _ _ same smaller⟩
        · rw [same]
          refine .inr ⟨by simp, List.append_left_lt (List.cons_lt_cons_iff.mpr (.inl ?_))⟩
          exact digitChar_lt (by omega) (by omega)

theorem utf8Len_of_digits {cs : List Char} (digits : ∀ c ∈ cs, c.isDigit = true) : String.utf8Len cs = cs.length := by
  induction cs with
  | nil => rfl
  | cons c cs ih =>
    obtain ⟨here, later⟩ := List.forall_mem_cons.mp digits
    have one : c.utf8Size = 1 := by
      simp only [Char.isDigit, Bool.and_eq_true, decide_eq_true_eq] at here
      have ascii : '9'.val ≤ 127 := by decide
      exact Char.utf8Size_eq_one_iff.mpr (UInt32.le_trans here.2 ascii)
    simp [String.utf8Len, ih later, one]

namespace Tgd

instance : TransCmp compareNames := inferInstanceAs (TransCmp (compareLex (compareOn String.utf8ByteSize) compare))

instance : LawfulEqCmp compareNames where
  compare_self {x} := by simp [compareNames]
  eq_of_compare {x y} same := by
    simp only [compareNames, Ordering.then_eq_eq, LawfulEqOrd.compare_eq_iff_eq] at same
    exact same.2

theorem compareNames_indexed (stem : String) {m n : Nat} (before : m < n) :
    compareNames (.indexed stem m) (.indexed stem n) = .lt := by
  have size (n : Nat) : (Variable.indexed stem n).utf8ByteSize = stem.utf8ByteSize + (Nat.toDigits 10 n).length := by
    have digits : n.repr.utf8ByteSize = (Nat.toDigits 10 n).length := by
      rw [Nat.repr, String.utf8ByteSize_ofList]
      exact utf8Len_of_digits (fun c inside => Nat.isDigit_of_mem_toDigits (by norm_num) (by norm_num) inside)
    rw [Variable.indexed, String.utf8ByteSize_append, ← digits]
    rfl
  rw [compareNames, Ordering.then_eq_lt, size, size]
  obtain fewer | ⟨same, smaller⟩ := toDigits_before before
  · exact .inl (Nat.compare_eq_lt.mpr (by omega))
  · refine .inr ⟨Nat.compare_eq_eq.mpr (by omega), ?_⟩
    have less : Variable.indexed stem m < Variable.indexed stem n := by
      rw [Variable.indexed, Variable.indexed, String.lt_iff_toList_lt, String.toList_append, String.toList_append]
      apply List.append_left_lt
      rwa [Nat.toString_eq_repr, Nat.toString_eq_repr, Nat.toList_repr, Nat.toList_repr]
    exact if_pos less

end Tgd
end Names

namespace Shape
variable {leaf leaf' : Variable → Shape} {ss ts : List Term}

theorem ofTerms_eq_map (leaf : Variable → Shape) (ts : List Term) : ofTerms leaf ts = ts.map (ofTerm leaf) := by
  induction ts with
  | nil => rfl
  | cons t ts ih => simp [ofTerms, ih]

theorem ofTerm_subst (leaf : Variable → Shape) (g : Variable → Variable) (t : Term) :
    ofTerm leaf (t.subst (fun x => .var (g x))) = ofTerm (fun x => leaf (g x)) t := by
  induction t with
  | var x => simp [ofTerm]
  | const c => simp [ofTerm]
  | app f args ih => simpa [ofTerm, ofTerms_eq_map] using ih

theorem ofTerm_congr {t : Term} (same : ∀ x ∈ t.vars, leaf x = leaf' x) : ofTerm leaf t = ofTerm leaf' t := by
  induction t with
  | var x => simpa [ofTerm] using same
  | const c => rfl
  | app f args ih =>
    simp only [Term.vars_app, List.mem_flatMap, forall_exists_index, and_imp] at same
    simp only [ofTerm, ofTerms_eq_map, app.injEq, true_and]
    exact List.map_congr_left (fun t member => ih t member (fun x inside => same x t member inside))

/-- What a variable shows is no constant and no function term. -/
def IsLeaf : Shape → Prop
  | .numbered .. | .fresh .. => True
  | .const .. | .app .. => False

theorem exists_var_of_ofTerm {x : Variable} {t : Term} (first : (leaf x).IsLeaf) (same : leaf x = ofTerm leaf' t) :
    ∃ y, t = .var y ∧ leaf x = leaf' y := by
  cases t with
  | var y => exact ⟨y, rfl, same⟩
  | const c =>
    rw [same] at first
    exact first.elim
  | app f args =>
    rw [same] at first
    exact first.elim

/-- Of terms that show the same, the variables do. -/
theorem exists_of_ofTerm (leaves : ∀ x, (leaf x).IsLeaf) (leaves' : ∀ x, (leaf' x).IsLeaf) {s t : Term}
    (same : ofTerm leaf s = ofTerm leaf' t) {x : Variable} (inside : x ∈ s.vars) : ∃ y ∈ t.vars, leaf x = leaf' y := by
  induction s generalizing t with
  | var z =>
    obtain ⟨y, rfl, same⟩ := exists_var_of_ofTerm (leaves z) same
    rw [Term.vars_var, List.mem_singleton] at inside
    exact ⟨y, by simp, inside ▸ same⟩
  | const c => simp at inside
  | app f ss ih =>
    obtain ⟨s, member, inside⟩ := by simpa using inside
    cases t with
    | var y =>
      obtain ⟨z, impossible, -⟩ := exists_var_of_ofTerm (leaves' y) same.symm
      cases impossible
    | const d => simp [ofTerm] at same
    | app g ts =>
      simp only [ofTerm, ofTerms_eq_map, app.injEq] at same
      have shown : ofTerm leaf s ∈ ts.map (ofTerm leaf') := same.2 ▸ List.mem_map_of_mem member
      obtain ⟨t, member', same⟩ := List.mem_map.mp shown
      obtain ⟨y, inside, equal⟩ := ih s member same.symm inside
      exact ⟨y, by simpa using ⟨t, member', inside⟩, equal⟩

/-- Terms that show the same become equal where variables that show the same do. -/
theorem subst_eq_of_ofTerm (leaves : ∀ x, (leaf x).IsLeaf) (leaves' : ∀ x, (leaf' x).IsLeaf) {g h : Variable → Term}
    {s t : Term} (same : ofTerm leaf s = ofTerm leaf' t)
    (images : ∀ x ∈ s.vars, ∀ y ∈ t.vars, leaf x = leaf' y → g x = h y) : s.subst g = t.subst h := by
  induction s generalizing t with
  | var x =>
    obtain ⟨y, rfl, same⟩ := exists_var_of_ofTerm (leaves x) same
    simpa using images x (by simp) y (by simp) same
  | const c =>
    cases t with
    | var y =>
      obtain ⟨z, impossible, -⟩ := exists_var_of_ofTerm (leaves' y) same.symm
      cases impossible
    | const d => simpa [ofTerm] using same
    | app g ts => simp [ofTerm] at same
  | app f ss ih =>
    cases t with
    | var y =>
      obtain ⟨z, impossible, -⟩ := exists_var_of_ofTerm (leaves' y) same.symm
      cases impossible
    | const d => simp [ofTerm] at same
    | app g ts =>
      simp only [ofTerm, ofTerms_eq_map, app.injEq] at same
      obtain ⟨rfl, same⟩ := same
      have lengths : ss.length = ts.length := by simpa using congrArg List.length same
      rw [Term.subst_app, Term.subst_app]
      congr 1
      apply List.ext_getElem (by simpa using lengths)
      intro i first second
      rw [List.length_map] at first second
      rw [List.getElem_map, List.getElem_map]
      apply ih _ (List.getElem_mem first)
      · have := List.getElem_of_eq same (i := i) (by simpa using first)
        rwa [List.getElem_map, List.getElem_map] at this
      · intro x inside y inside'
        refine images x ?_ y ?_
        · simpa using ⟨_, List.getElem_mem first, inside⟩
        · simpa using ⟨_, List.getElem_mem second, inside'⟩

end Shape

namespace Tgd
variable {t : Tgd} {order : List Variable} {a b c : Atom} {rest : List Atom}

/-- What a variable of an atom shows. -/
def showing (t : Tgd) (order : List Variable) (a : Atom) (x : Variable) : Shape :=
  if x ∈ order then .numbered (t.quantifier x) (t.rank order x)
  else .fresh (t.quantifier x) ((unranked order a).idxOf x)

theorem shapes_eq (t : Tgd) (order : List Variable) (a : Atom) :
    t.shapes order a = Shape.ofTerms (t.showing order a) a.args := rfl

theorem showing_isLeaf (t : Tgd) (order : List Variable) (a : Atom) (x : Variable) : (t.showing order a x).IsLeaf := by
  unfold showing
  split <;> trivial

theorem mem_unranked {x : Variable} : x ∈ unranked order a ↔ x ∈ a.vars ∧ x ∉ order := by simp [unranked]

theorem showing_inj {x y : Variable} (inside : x ∈ a.vars) (same : t.showing order a x = t.showing order a y) : x = y := by
  unfold showing at same
  split at same
  · next ranked =>
    split at same
    · simp only [Shape.numbered.injEq] at same
      exact rank_inj ranked same.1 same.2
    · cases same
  · next unranked =>
    split at same
    · cases same
    · simp only [Shape.fresh.injEq] at same
      exact (List.idxOf_inj (mem_unranked.mpr ⟨inside, unranked⟩)).mp same.2

instance : TransCmp (t.compareAtoms order) :=
  have := transCmp_on Shape.compareAll (t.shapes order)
  have := transCmp_on (List.compareLex compareNames) (unranked order)
  inferInstanceAs (TransCmp (compareLex (compareOn Atom.symbol) (compareLex
    (fun a b => Shape.compareAll (t.shapes order a) (t.shapes order b))
    (fun a b => List.compareLex compareNames (unranked order a) (unranked order b)))))

/-- Atoms that show the same become equal where variables that show the same do. -/
theorem subst_eq_of_shapes {order' : List Variable} {t' : Tgd} {g h : Variable → Term} (symbol : a.symbol = b.symbol)
    (same : t.shapes order a = t'.shapes order' b)
    (images : ∀ x ∈ a.vars, ∀ y ∈ b.vars, t.showing order a x = t'.showing order' b y → g x = h y) :
    a.subst g = b.subst h := by
  have : (Term.app "" a.args).subst g = (Term.app "" b.args).subst h := by
    apply Shape.subst_eq_of_ofTerm (t.showing_isLeaf order a) (t'.showing_isLeaf order' b)
    · rw [shapes_eq, shapes_eq] at same
      simpa [Shape.ofTerm] using same
    · intro x inside y inside'
      exact images x (Atom.mem_vars.mpr (by simpa using inside)) y (Atom.mem_vars.mpr (by simpa using inside'))
  refine Atom.eq_iff.mpr ⟨congrArg Symbol.name symbol, ?_⟩
  rw [Atom.args_subst, Atom.args_subst]
  simpa using this

/-- Atoms differ in what they show, or in the names that have no number yet. -/
theorem eq_of_compareAtoms (same : t.compareAtoms order a b = .eq) : a = b := by
  simp only [compareAtoms, Ordering.then_eq_eq, LawfulEqCmp.compare_eq_iff_eq] at same
  obtain ⟨symbol, shapes, names⟩ := same
  rw [← Atom.subst_self a, ← Atom.subst_self b]
  refine subst_eq_of_shapes symbol shapes (fun x inside y _ equal => ?_)
  have showing : t.showing order b y = t.showing order a y := by rw [Tgd.showing, Tgd.showing, names]
  rw [showing_inj inside (equal.trans showing)]

theorem leastAtom_lt (member : b ∈ a :: rest) (other : b ≠ t.leastAtom order a rest) :
    t.compareAtoms order (t.leastAtom order a rest) b = .lt := by
  have le : (t.compareAtoms order (t.leastAtom order a rest) b).isLE := by
    have choice (rest : List Atom) (least : Atom) : ∀ b ∈ least :: rest, (t.compareAtoms order
        (rest.foldl (fun least b => if t.compareAtoms order b least = .lt then b else least) least) b).isLE := by
      induction rest generalizing least with
      | nil => simp [ReflCmp.compare_self]
      | cons c rest ih =>
        rw [List.foldl_cons]
        split
        · next less =>
          obtain ⟨first, later⟩ := List.forall_mem_cons.mp (ih c)
          refine List.forall_mem_cons.mpr ⟨TransCmp.isLE_trans first (by simp [less]), ?_⟩
          exact List.forall_mem_cons.mpr ⟨first, later⟩
        · next notLess =>
          obtain ⟨first, later⟩ := List.forall_mem_cons.mp (ih least)
          refine List.forall_mem_cons.mpr ⟨first, List.forall_mem_cons.mpr ⟨TransCmp.isLE_trans first ?_, later⟩⟩
          rw [@OrientedCmp.eq_swap _ (t.compareAtoms order)]
          revert notLess
          cases t.compareAtoms order c least <;> simp
    exact choice rest a b member
  obtain less | same := Ordering.isLE_iff_eq_lt_or_eq_eq.mp le
  · exact less
  · exact absurd (eq_of_compareAtoms same).symm other

/-- The atom that comes before all others is the least one. -/
theorem leastAtom_eq (member : c ∈ a :: rest) (first : ∀ b ∈ a :: rest, b ≠ c → t.compareAtoms order c b = .lt) :
    t.leastAtom order a rest = c := by
  by_contra other
  have before := first _ (t.leastAtom_mem order a rest) other
  have after := leastAtom_lt member (Ne.symm other)
  rw [@OrientedCmp.eq_swap _ (t.compareAtoms order), after] at before
  cases before

theorem rankAtoms_nodup (t : Tgd) (n : Nat) {order : List Variable} (distinct : order.Nodup) (atoms : List Atom) :
    (t.rankAtoms n order atoms).Nodup := by
  induction n generalizing order atoms with
  | zero => simpa [rankAtoms] using distinct
  | succ n ih =>
    cases atoms with
    | nil => simpa [rankAtoms] using distinct
    | cons a rest =>
      rw [rankAtoms]
      apply ih
      refine List.nodup_append.mpr ⟨distinct, (nodup_eraseDups _).filter _, ?_⟩
      intro x before y new same
      have := List.of_mem_filter new
      simp [← same, before] at this

theorem variableOrder_nodup (t : Tgd) (mode : NamingMode) : (t.variableOrder mode).Nodup := by
  cases mode with
  | naive => exact t.vars_nodup
  | sorted => exact rankAtoms_nodup t _ (rankAtoms_nodup t _ List.nodup_nil _) _

/-- A variable is ranked below the number of variables of its kind. -/
theorem rank_lt (t : Tgd) (mode : NamingMode) {x : Variable} (inside : x ∈ t.vars) {kind : List Variable}
    (same : ∀ y ∈ t.vars, t.quantifier y = t.quantifier x → y ∈ kind) :
    t.rank (t.variableOrder mode) x < kind.length := by
  have ordered := (t.mem_variableOrder mode).mpr inside
  refine (List.idxOf_lt_length_of_mem (List.mem_filter.mpr ⟨ordered, by simp⟩)).trans_le ?_
  apply List.Subperm.length_le
  apply List.subperm_of_subset ((variableOrder_nodup t mode).filter _)
  intro y member
  obtain ⟨ordered, kinds⟩ := List.mem_filter.mp member
  exact same y ((t.mem_variableOrder mode).mp ordered) (by simpa using kinds)

end Tgd

end GuardedSaturation
