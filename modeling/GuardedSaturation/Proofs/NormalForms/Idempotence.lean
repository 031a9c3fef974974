import Mathlib
import GuardedSaturation.Proofs.NormalForms.Order

/-! A normal form is its own normal form. Atoms show the same under their new names, so they are taken in the same
order again: where only names decide, the atom that was taken first got the smaller numbers. -/
namespace GuardedSaturation
open Std

section Lists
variable {α β : Type} [DecidableEq α] [DecidableEq β] {g : α → β}

theorem eraseDups_map : (l : List α) → Set.InjOn g {x | x ∈ l} → (l.map g).eraseDups = l.eraseDups.map g
  | [], _ => by simp
  | a :: l, apart => by
    have others : l.filter ((fun b => !b == g a) ∘ g) = l.filter (fun b => !b == a) := by
      apply List.filter_congr
      intro b member
      rw [Function.comp_apply, Bool.not_inj_iff, Bool.eq_iff_iff, beq_iff_eq, beq_iff_eq]
      exact apart.eq_iff (List.mem_cons_of_mem a member) List.mem_cons_self
    have fewer : (l.filter (fun b => !b == a)).length ≤ l.length := List.length_filter_le _ _
    rw [List.map_cons, List.eraseDups_cons, List.eraseDups_cons, List.map_cons, List.filter_map, others]
    rw [eraseDups_map (l.filter (fun b => !b == a)) (apart.mono (fun x inside => ?_))]
    exact List.mem_cons_of_mem a (List.mem_of_mem_filter inside)
termination_by l => l.length

theorem idxOf_map {l : List α} {x : α} (apart : ∀ y ∈ l, g y = g x → y = x) : (l.map g).idxOf (g x) = l.idxOf x := by
  induction l with
  | nil => rfl
  | cons y l ih =>
    obtain ⟨here, later⟩ := List.forall_mem_cons.mp apart
    by_cases same : y = x
    · rw [same, List.map_cons, List.idxOf_cons_self, List.idxOf_cons_self]
    · rw [List.map_cons, List.idxOf_cons_ne _ (mt here same), List.idxOf_cons_ne _ same, ih later]

/-- Lists of one length differ at a first place. -/
theorem exists_first_difference {l m : List α} (lengths : l.length = m.length) (differ : l ≠ m) :
    ∃ before x y after after', l = before ++ x :: after ∧ m = before ++ y :: after' ∧ x ≠ y := by
  induction l generalizing m with
  | nil => exact absurd (List.eq_nil_of_length_eq_zero lengths.symm).symm differ
  | cons x l ih =>
    cases m with
    | nil => simp at lengths
    | cons y m =>
      by_cases same : x = y
      · subst same
        obtain ⟨before, z, w, after, after', rfl, rfl, apart⟩ :=
          ih (by simpa using lengths) (fun same => differ (by rw [same]))
        exact ⟨x :: before, z, w, after, after', rfl, rfl, apart⟩
      · exact ⟨[], x, y, l, m, rfl, rfl, same⟩

omit [DecidableEq α] in
theorem compareLex_append {cmp : α → α → Ordering} [ReflCmp cmp] (before l m : List α) :
    List.compareLex cmp (before ++ l) (before ++ m) = List.compareLex cmp l m := by
  induction before with
  | nil => rfl
  | cons x before ih =>
    rw [List.cons_append, List.cons_append, List.compareLex_cons_cons, @ReflCmp.compare_self _ cmp, ih]
    rfl

theorem perm_erase_map {l : List α} {l' : List β} {a : α} (member : a ∈ l) (perm : l'.Perm (l.map g)) :
    (l'.erase (g a)).Perm ((l.erase a).map g) := by
  apply List.Perm.cons_inv (a := g a)
  refine (List.perm_cons_erase (perm.mem_iff.mpr (List.mem_map_of_mem member))).symm.trans (perm.trans ?_)
  exact (List.perm_cons_erase member).map g

end Lists

theorem Term.vars_rename (g : Variable → Variable) (t : Term) : (t.subst (fun x => .var (g x))).vars = t.vars.map g := by
  induction t with
  | var x => simp
  | const c => simp
  | app f args ih => simpa [List.map_flatMap, List.flatMap_map] using List.flatMap_congr ih

theorem Atom.vars_rename {g : Variable → Variable} {a : Atom} (apart : Set.InjOn g {x | x ∈ a.vars}) :
    (a.subst (fun x => .var (g x))).vars = a.vars.map g := by
  have occurrences : Term.varsAll (a.subst (fun x => .var (g x))).args = (Term.varsAll a.args).map g := by
    simp only [Term.varsAll_eq_flatMap, args_subst, List.flatMap_map, List.map_flatMap, Term.vars_rename]
  rw [vars, occurrences, eraseDups_map _ (by simpa [vars] using apart), vars]

namespace Tgd
variable {t t' : Tgd} {g : Variable → Variable} {order : List Variable} {a b : Atom} {x y : Variable}

/-- A renaming keeps the variables of a rule apart and their kinds. -/
structure Renames (g : Variable → Variable) (t t' : Tgd) : Prop where
  apart : Set.InjOn g {x | x ∈ t.vars}
  kinds : ∀ x ∈ t.vars, t'.quantifier (g x) = t.quantifier x

namespace Renames

theorem unranked (renames : Renames g t t') (ordered : ∀ x ∈ order, x ∈ t.vars) (within : ∀ x ∈ a.vars, x ∈ t.vars) :
    Tgd.unranked (order.map g) (a.subst (fun x => .var (g x))) = (Tgd.unranked order a).map g := by
  rw [Tgd.unranked, Tgd.unranked, Atom.vars_rename (renames.apart.mono within), List.filter_map]
  congr 1
  apply List.filter_congr
  intro x inside
  simp only [Function.comp_apply, List.mem_map, decide_eq_decide, not_iff_not]
  constructor
  · intro found
    obtain ⟨y, member, same⟩ := found
    exact renames.apart (ordered y member) (within x inside) same ▸ member
  · intro member
    exact ⟨x, member, rfl⟩

theorem rank (renames : Renames g t t') (ordered : ∀ x ∈ order, x ∈ t.vars) (inside : x ∈ t.vars) :
    t'.rank (order.map g) (g x) = t.rank order x := by
  have kinds : order.filter ((fun y => decide (t'.quantifier y = t'.quantifier (g x))) ∘ g) =
      order.filter (fun y => t.quantifier y = t.quantifier x) := by
    apply List.filter_congr
    intro y member
    simp only [Function.comp_apply, renames.kinds y (ordered y member), renames.kinds x inside]
  rw [Tgd.rank, Tgd.rank, List.filter_map, kinds, idxOf_map]
  intro y member same
  exact renames.apart (ordered y (List.mem_of_mem_filter member)) inside same

theorem showing (renames : Renames g t t') (ordered : ∀ x ∈ order, x ∈ t.vars) (within : ∀ x ∈ a.vars, x ∈ t.vars)
    (inside : x ∈ t.vars) :
    t'.showing (order.map g) (a.subst (fun x => .var (g x))) (g x) = t.showing order a x := by
  have ranked : g x ∈ order.map g ↔ x ∈ order := by
    rw [List.mem_map]
    constructor
    · intro found
      obtain ⟨y, member, same⟩ := found
      exact renames.apart (ordered y member) inside same ▸ member
    · intro member
      exact ⟨x, member, rfl⟩
  have place : ((Tgd.unranked order a).map g).idxOf (g x) = (Tgd.unranked order a).idxOf x := by
    apply idxOf_map
    intro y member same
    exact renames.apart (within y (mem_unranked.mp member).1) inside same
  rw [Tgd.showing, Tgd.showing, renames.kinds x inside, renames.rank ordered inside, renames.unranked ordered within, place]
  exact if_congr ranked rfl rfl

theorem shapes (renames : Renames g t t') (ordered : ∀ x ∈ order, x ∈ t.vars) (within : ∀ x ∈ a.vars, x ∈ t.vars) :
    t'.shapes (order.map g) (a.subst (fun x => .var (g x))) = t.shapes order a := by
  simp only [shapes_eq, Shape.ofTerms_eq_map, Atom.args_subst, List.map_map]
  apply List.map_congr_left
  intro s member
  rw [Function.comp_apply, Shape.ofTerm_subst]
  apply Shape.ofTerm_congr
  intro x inside
  exact renames.showing ordered within (within x (Atom.mem_vars.mpr ⟨s, member, inside⟩))

end Renames

/-- How atoms compare with the names set aside. -/
def compareShapes (t : Tgd) (order : List Variable) (a b : Atom) : Ordering :=
  (compare a.symbol b.symbol).then (Shape.compareAll (t.shapes order a) (t.shapes order b))

theorem compareShapes_eq_eq : t.compareShapes order a b = .eq ↔ a.symbol = b.symbol ∧ t.shapes order a = t.shapes order b := by
  simp only [compareShapes, Ordering.then_eq_eq, LawfulEqCmp.compare_eq_iff_eq]

theorem compareAtoms_eq_lt : t.compareAtoms order a b = .lt ↔ t.compareShapes order a b = .lt ∨
    t.compareShapes order a b = .eq ∧
      List.compareLex compareNames (Tgd.unranked order a) (Tgd.unranked order b) = .lt := by
  rw [compareAtoms, ← Ordering.then_assoc, Ordering.then_eq_lt]
  rfl

theorem Renames.compareShapes (renames : Renames g t t') (ordered : ∀ x ∈ order, x ∈ t.vars)
    (within : ∀ x ∈ a.vars, x ∈ t.vars) (within' : ∀ x ∈ b.vars, x ∈ t.vars) :
    t'.compareShapes (order.map g) (a.subst (fun x => .var (g x))) (b.subst (fun x => .var (g x))) =
      t.compareShapes order a b := by
  rw [Tgd.compareShapes, Tgd.compareShapes, Atom.symbol_subst, Atom.symbol_subst, renames.shapes ordered within,
    renames.shapes ordered within']

theorem unranked_nodup (order : List Variable) (a : Atom) : (unranked order a).Nodup := (nodup_eraseDups _).filter _

/-- Of atoms that show the same, the second has a variable of the same kind for each that the first has without number. -/
theorem kind_of_shapes (same : t.shapes order a = t.shapes order b) (i : Nat) (bound : i < (unranked order a).length) :
    ∃ bound' : i < (unranked order b).length, t.quantifier (unranked order a)[i] = t.quantifier (unranked order b)[i] := by
  obtain ⟨inside, fresh⟩ := mem_unranked.mp (List.getElem_mem bound)
  have shown : t.showing order a (unranked order a)[i] = .fresh (t.quantifier (unranked order a)[i]) i := by
    rw [showing, if_neg fresh, (unranked_nodup order a).idxOf_getElem]
  have whole : Shape.ofTerm (t.showing order a) (.app "" a.args) = Shape.ofTerm (t.showing order b) (.app "" b.args) := by
    rw [shapes_eq, shapes_eq] at same
    simpa [Shape.ofTerm] using same
  obtain ⟨y, inside', equal⟩ := Shape.exists_of_ofTerm (t.showing_isLeaf order a) (t.showing_isLeaf order b) whole
    (x := (unranked order a)[i]) (by simpa using Atom.mem_vars.mp inside)
  rw [shown, showing] at equal
  split at equal
  · cases equal
  · next fresh' =>
    simp only [Shape.fresh.injEq] at equal
    obtain ⟨kind, place⟩ := equal
    have member : y ∈ unranked order b := mem_unranked.mpr ⟨Atom.mem_vars.mpr (by simpa using inside'), fresh'⟩
    have bound' : i < (unranked order b).length := place ▸ List.idxOf_lt_length_iff.mpr member
    have found : (unranked order b)[i] = y := by
      simp only [place, List.getElem_idxOf]
    exact ⟨bound', found ▸ kind⟩

theorem length_of_shapes (same : t.shapes order a = t.shapes order b) :
    (unranked order a).length ≤ (unranked order b).length := by
  by_contra more
  obtain ⟨bound, -⟩ := kind_of_shapes same _ (Nat.lt_of_not_le more)
  exact lt_irrefl _ bound

theorem kinds_of_shapes (same : t.shapes order a = t.shapes order b) :
    (unranked order a).map t.quantifier = (unranked order b).map t.quantifier := by
  apply List.ext_getElem
  · rw [List.length_map, List.length_map]
    exact Nat.le_antisymm (length_of_shapes same) (length_of_shapes same.symm)
  · intro i first second
    obtain ⟨bound, kind⟩ := kind_of_shapes same i (by simpa using first)
    simpa using kind

theorem rank_before {before after : List Variable} (distinct : (before ++ x :: after).Nodup) (later : y ∉ before)
    (apart : x ≠ y) (kind : t.quantifier x = t.quantifier y) :
    t.rank (before ++ x :: after) x < t.rank (before ++ x :: after) y := by
  have first : x ∉ before := fun member => (List.disjoint_of_nodup_append distinct) member List.mem_cons_self
  rw [rank, rank, kind, List.filter_append, List.filter_cons_of_pos (by simpa using kind)]
  rw [List.idxOf_append_of_notMem (fun member => first (List.mem_of_mem_filter member)),
    List.idxOf_append_of_notMem (fun member => later (List.mem_of_mem_filter member))]
  simp [apart]

/-- Names of one kind come in the order of the ranks. -/
structure Ordered (g : Variable → Variable) (t : Tgd) (all : List Variable) : Prop where
  distinct : all.Nodup
  names : ∀ x ∈ t.vars, ∀ y ∈ t.vars, t.quantifier x = t.quantifier y → t.rank all x < t.rank all y →
    compareNames (g x) (g y) = .lt

/-- Atoms of one shape that show different variables first differ in two of one kind. -/
theorem exists_first_unlike (same : t.shapes order a = t.shapes order b)
    (differ : Tgd.unranked order a ≠ Tgd.unranked order b) :
    ∃ common x y after after', Tgd.unranked order a = common ++ x :: after ∧
      Tgd.unranked order b = common ++ y :: after' ∧ x ≠ y ∧ t.quantifier x = t.quantifier y ∧ y ∉ order ++ common := by
  have kinds := kinds_of_shapes same
  have lengths : (Tgd.unranked order a).length = (Tgd.unranked order b).length := by
    simpa using congrArg List.length kinds
  obtain ⟨common, x, y, after, after', first, second, apart⟩ := exists_first_difference lengths differ
  refine ⟨common, x, y, after, after', first, second, apart, ?_, fun old => ?_⟩
  · rw [first, second, List.map_append, List.map_append] at kinds
    have := List.append_cancel_left kinds
    simp only [List.map_cons, List.cons.injEq] at this
    exact this.1
  · have distinct := unranked_nodup order b
    have member : y ∈ Tgd.unranked order b := second ▸ List.mem_append_right common List.mem_cons_self
    obtain old | old := List.mem_append.mp old
    · exact (mem_unranked.mp member).2 old
    · rw [second] at distinct
      exact List.disjoint_of_nodup_append distinct old List.mem_cons_self

/-- Of atoms that show the same, the one whose variables got the next numbers comes first by its new names. -/
theorem Renames.names_lt (renames : Renames g t t') {all : List Variable} (names : Ordered g t all)
    (ordered : ∀ x ∈ order, x ∈ t.vars) (within : ∀ x ∈ a.vars, x ∈ t.vars) (within' : ∀ x ∈ b.vars, x ∈ t.vars)
    (next : order ++ Tgd.unranked order a <+: all) (same : t.shapes order a = t.shapes order b)
    (differ : Tgd.unranked order a ≠ Tgd.unranked order b) :
    List.compareLex compareNames (Tgd.unranked (order.map g) (a.subst (fun x => .var (g x))))
      (Tgd.unranked (order.map g) (b.subst (fun x => .var (g x)))) = .lt := by
  rw [renames.unranked ordered within, renames.unranked ordered within']
  -- The names differ first where the variables do, and there `x` got the smaller number.
  obtain ⟨common, x, y, after, after', first, second, apart, kind, later⟩ := exists_first_unlike same differ
  have inside : x ∈ a.vars := (mem_unranked.mp (first ▸ List.mem_append_right common List.mem_cons_self)).1
  have inside' : y ∈ b.vars := (mem_unranked.mp (second ▸ List.mem_append_right common List.mem_cons_self)).1
  obtain ⟨more, split⟩ := next
  have position : all = (order ++ common) ++ x :: (after ++ more) := by
    rw [← split, first]
    simp
  have less : compareNames (g x) (g y) = .lt := by
    apply names.names x (within x inside) y (within' y inside') kind
    rw [position]
    exact rank_before (position ▸ names.distinct) later apart kind
  rw [first, second, List.map_append, List.map_append, compareLex_append, List.map_cons, List.map_cons,
    List.compareLex_cons_cons, less]
  rfl

/-- An atom that shows no more than another one comes before it once its variables got the next numbers. -/
theorem Renames.compareAtoms_lt (renames : Renames g t t') {all : List Variable} (names : Ordered g t all)
    (ordered : ∀ x ∈ order, x ∈ t.vars) (within : ∀ x ∈ a.vars, x ∈ t.vars) (within' : ∀ x ∈ b.vars, x ∈ t.vars)
    (next : order ++ Tgd.unranked order a <+: all) (shows : (t.compareShapes order a b).isLE) (apart : a ≠ b) :
    t'.compareAtoms (order.map g) (a.subst (fun x => .var (g x))) (b.subst (fun x => .var (g x))) = .lt := by
  rw [compareAtoms_eq_lt, renames.compareShapes ordered within within']
  obtain less | same := Ordering.isLE_iff_eq_lt_or_eq_eq.mp shows
  · exact .inl less
  · obtain ⟨symbol, shapes⟩ := compareShapes_eq_eq.mp same
    refine .inr ⟨same, renames.names_lt names ordered within within' next shapes (fun names => apart ?_)⟩
    have equal : t.compareAtoms order a b = .eq := by
      rw [compareAtoms, symbol, shapes, names]
      simp only [ReflCmp.compare_self, Ordering.then_eq_eq, and_self]
    exact eq_of_compareAtoms equal

/-- The least atom shows the least. -/
theorem leastAtom_shows {rest : List Atom} (member : b ∈ a :: rest) :
    (t.compareShapes order (t.leastAtom order a rest) b).isLE := by
  rw [Ordering.isLE_iff_eq_lt_or_eq_eq]
  by_cases same : b = t.leastAtom order a rest
  · exact .inr (compareShapes_eq_eq.mpr ⟨congrArg Atom.symbol same.symm, congrArg _ same.symm⟩)
  · exact (compareAtoms_eq_lt.mp (leastAtom_lt member same)).imp id And.left

/-- An atom that shows the least is the least of the renamed atoms if its variables got the next numbers. -/
theorem Renames.leastAtom_eq (renames : Renames g t t') {all : List Variable} (names : Ordered g t all)
    (ordered : ∀ x ∈ order, x ∈ t.vars) {atoms : List Atom} (within : ∀ a ∈ atoms, ∀ x ∈ a.vars, x ∈ t.vars)
    (member : a ∈ atoms) (shows : ∀ b ∈ atoms, (t.compareShapes order a b).isLE)
    (next : order ++ Tgd.unranked order a <+: all) {a' : Atom} {rest' : List Atom}
    (perm : (a' :: rest').Perm (atoms.map (Atom.subst (fun x => .var (g x))))) :
    t'.leastAtom (order.map g) a' rest' = a.subst (fun x => .var (g x)) := by
  apply Tgd.leastAtom_eq (perm.mem_iff.mpr (List.mem_map_of_mem member))
  intro b' member' other
  obtain ⟨b, present, rfl⟩ := List.mem_map.mp (perm.mem_iff.mp member')
  apply renames.compareAtoms_lt names ordered (within _ member) (within b present) next (shows b present)
  exact fun same => other (same ▸ rfl)

theorem prefix_rankAtoms (t : Tgd) (n : Nat) (order : List Variable) (atoms : List Atom) :
    order <+: t.rankAtoms n order atoms := by
  induction n generalizing order atoms with
  | zero => simp [rankAtoms]
  | succ n ih =>
    cases atoms with
    | nil => simp [rankAtoms]
    | cons a rest => exact (List.prefix_append order _).trans (ih _ _)

/-- The renamed atoms, listed in any order, are taken in the order that they were taken in before. -/
theorem Renames.rankAtoms (renames : Renames g t t') {all : List Variable} (names : Ordered g t all) (n : Nat)
    {atoms atoms' : List Atom} (ordered : ∀ x ∈ order, x ∈ t.vars) (within : ∀ a ∈ atoms, ∀ x ∈ a.vars, x ∈ t.vars)
    (beginning : t.rankAtoms n order atoms <+: all) (perm : atoms'.Perm (atoms.map (Atom.subst (fun x => .var (g x))))) :
    t'.rankAtoms n (order.map g) atoms' = (t.rankAtoms n order atoms).map g := by
  induction n generalizing order atoms atoms' with
  | zero => simp [Tgd.rankAtoms]
  | succ n ih =>
    cases atoms with
    | nil =>
      rw [List.map_nil, List.perm_nil] at perm
      simp [perm, Tgd.rankAtoms]
    | cons a rest =>
      cases atoms' with
      | nil => simp at perm
      | cons a' rest' =>
        have member := t.leastAtom_mem order a rest
        let least := t.leastAtom order a rest
        have next : order ++ Tgd.unranked order least <+: all := (t.prefix_rankAtoms n _ _).trans beginning
        have same : t'.leastAtom (order.map g) a' rest' = least.subst (fun x => .var (g x)) :=
          renames.leastAtom_eq names ordered within member (fun b => leastAtom_shows) next perm
        rw [Tgd.rankAtoms, Tgd.rankAtoms, same, renames.unranked ordered (within _ member), ← List.map_append]
        apply ih
        · intro x inside
          obtain old | new := List.mem_append.mp inside
          · exact ordered x old
          · exact within _ member x (mem_unranked.mp new).1
        · exact fun b present => within b (List.mem_of_mem_erase present)
        · exact beginning
        · exact perm_erase_map member perm

/-- The variables in the order in which the head atoms are taken. -/
def headOrder (t : Tgd) : List Variable := t.rankAtoms t.head.size [] t.head.toList

theorem mem_headOrder {x : Variable} : x ∈ t.headOrder ↔ x ∈ t.head.vars := by
  rw [headOrder, mem_rankAtoms _ _ _ _ (by rfl)]
  simp [AtomSet.mem_vars, SortedSet.mem_toList]

theorem sortedOrder_eq (t : Tgd) : t.sortedOrder = t.rankAtoms t.body.size t.headOrder t.body.toList := rfl

/-- Variables that are replaced by different ones are renamed. -/
theorem renames_subst (apart : Set.InjOn g {x | x ∈ t.vars}) : Renames g t (t.subst (fun x => .var (g x))) := by
  refine ⟨apart, fun x inside => ?_⟩
  have universal : g x ∈ (t.subst (fun x => .var (g x))).universals ↔ x ∈ t.universals := by
    rw [universals, body_subst, AtomSet.mem_vars_subst]
    constructor
    · intro found
      obtain ⟨y, member, image⟩ := found
      rw [Term.vars_var, List.mem_singleton] at image
      exact apart (mem_vars_of_body member) inside image.symm ▸ member
    · intro member
      exact ⟨x, member, by simp⟩
  rw [quantifier, quantifier]
  exact if_congr universal rfl rfl

theorem headOrder_subst (apart : Set.InjOn g {x | x ∈ t.vars}) {all : List Variable} (names : Ordered g t all)
    (beginning : t.headOrder <+: all) : (t.subst (fun x => .var (g x))).headOrder = t.headOrder.map g := by
  have heads := AtomSet.perm_rename (apart.mono (fun x inside => mem_vars_of_head inside))
  have size : (t.subst (fun x => .var (g x))).head.size = t.head.size := heads.length_eq.trans (List.length_map _)
  rw [headOrder, size]
  apply (renames_subst apart).rankAtoms names t.head.size (by simp) ?_ beginning heads
  exact fun a member x inside => mem_vars_of_mem (.inr member) inside

theorem sortedOrder_subst (apart : Set.InjOn g {x | x ∈ t.vars}) (names : Ordered g t t.sortedOrder) :
    (t.subst (fun x => .var (g x))).sortedOrder = t.sortedOrder.map g := by
  have bodies := AtomSet.perm_rename (apart.mono (fun x inside => mem_vars_of_body inside))
  have size : (t.subst (fun x => .var (g x))).body.size = t.body.size := bodies.length_eq.trans (List.length_map _)
  rw [sortedOrder_eq, sortedOrder_eq, headOrder_subst apart names (prefix_rankAtoms t _ _ _), size]
  apply (renames_subst apart).rankAtoms names t.body.size ?_ ?_ (List.prefix_refl _) bodies
  · exact fun x inside => mem_vars_of_head (mem_headOrder.mp inside)
  · exact fun a member x inside => mem_vars_of_mem (.inl member) inside

theorem ordered_nameBy (naming : Naming) {all : List Variable} (distinct : all.Nodup) :
    Ordered (t.nameBy naming all) t all := by
  refine ⟨distinct, fun x _ y _ kind before => ?_⟩
  unfold nameBy
  rw [← kind]
  cases t.quantifier x with
  | universal => exact compareNames_indexed _ before
  | existential => exact compareNames_indexed _ before

section Idempotence
variable {naming : Naming}

theorem nameBy_congr {order' : List Variable} (kind : t.quantifier x = t'.quantifier y)
    (rank : t.rank order x = t'.rank order' y) : t.nameBy naming order x = t'.nameBy naming order' y := by
  rw [nameBy, nameBy, kind, rank]

theorem Renames.nameBy (renames : Renames g t t') (ordered : ∀ x ∈ order, x ∈ t.vars) (inside : x ∈ t.vars) :
    t'.nameBy naming (order.map g) (g x) = t.nameBy naming order x :=
  nameBy_congr (renames.kinds x inside) (renames.rank ordered inside)

/-- Where the renamed variables are in the same order, the normal form is the same. -/
theorem normalForm_subst (apart : Set.InjOn g {x | x ∈ t.vars}) (sorted : naming.mode = .sorted)
    (same : (t.subst (fun x => .var (g x))).sortedOrder = t.sortedOrder.map g) :
    (t.subst (fun x => .var (g x))).normalForm naming = t.normalForm naming := by
  rw [normalForm_eq, normalForm_eq, subst_subst]
  refine subst_congr (fun x inside => ?_)
  rw [Term.subst_var, normalName_eq, normalName_eq, sorted, variableOrder, variableOrder, same]
  exact congrArg Term.var ((renames_subst apart).nameBy (fun y => (t.mem_variableOrder .sorted).mp) inside)

theorem sortedOrder_normalForm (apart : naming.Apart) (sorted : naming.mode = .sorted) (t : Tgd) :
    (t.normalForm naming).sortedOrder = t.sortedOrder.map (t.normalName naming) := by
  apply sortedOrder_subst (normalName_injOn apart)
  rw [normalName_eq, sorted]
  exact ordered_nameBy naming (variableOrder_nodup t .sorted)

/-- The normal form of a normal form is the normal form itself. -/
theorem normalForm_normalForm (apart : naming.Apart) (sorted : naming.mode = .sorted) (t : Tgd) :
    (t.normalForm naming).normalForm naming = t.normalForm naming :=
  normalForm_subst (normalName_injOn apart) sorted (sortedOrder_normalForm apart sorted t)

theorem canonical_canonical (t : Tgd) : t.canonical.canonical = t.canonical :=
  normalForm_normalForm Naming.apart_default rfl t

/-- Variables of one kind get the names with the numbers up to their own number. -/
theorem normalName_perm (apart : naming.Apart) {xs : List Variable} (distinct : xs.Nodup) (inside : ∀ x ∈ xs, x ∈ t.vars)
    {stem : String} (names : ∀ x ∈ xs, ∃ n < xs.length, t.normalName naming x = .indexed stem n) :
    (xs.map (t.normalName naming)).Perm ((List.range xs.length).map (.indexed stem)) := by
  have distinct := distinct.map_on (fun x member y member' => normalName_injOn apart (inside x member) (inside y member'))
  refine (List.subperm_of_subset distinct (fun y image => ?_)).perm_of_length_le (by simp)
  obtain ⟨x, member, rfl⟩ := List.mem_map.mp image
  obtain ⟨n, bound, name⟩ := names x member
  exact name ▸ List.mem_map_of_mem (List.mem_range.mpr bound)

theorem quantifier_eq_universal {x : Variable} : t.quantifier x = .universal ↔ x ∈ t.universals := by simp [quantifier]

/-- A normal form is its own normal form, and comes from a renaming that keeps variables apart and gives the universal
and the existential ones the names of their kinds without gaps. -/
theorem normalForm_idempotent (naming : Naming) (apart : naming.Apart) (sorted : naming.mode = .sorted) (t : Tgd) :
    (t.normalForm naming).normalForm naming = t.normalForm naming ∧
      ∃ g : Variable → Variable, Set.InjOn g {x | x ∈ t.vars} ∧ t.normalForm naming = t.subst (fun x => .var (g x)) ∧
        (t.universals.map g).Perm ((List.range t.universals.length).map (.indexed naming.universalStem)) ∧
        (t.existentials.map g).Perm ((List.range t.existentials.length).map (.indexed naming.existentialStem)) := by
  refine ⟨normalForm_normalForm apart sorted t, t.normalName naming, normalName_injOn apart, normalForm_eq naming t, ?_, ?_⟩
  · refine normalName_perm apart t.universals_nodup (fun x => mem_vars_of_body) (fun x universal => ?_)
    have kind : t.quantifier x = .universal := quantifier_eq_universal.mpr universal
    refine ⟨t.rank (t.variableOrder naming.mode) x, ?_, by rw [normalName, kind]⟩
    exact rank_lt t _ (mem_vars_of_body universal) (fun y _ same => quantifier_eq_universal.mp (same.trans kind))
  · have existential {x : Variable} (member : x ∈ t.existentials) : x ∈ t.vars ∧ t.quantifier x = .existential := by
      obtain ⟨inside, absent⟩ := mem_existentials.mp member
      exact ⟨mem_vars_of_head inside, by rw [quantifier, if_neg absent]⟩
    refine normalName_perm apart t.existentials_nodup (fun x member => (existential member).1) (fun x member => ?_)
    obtain ⟨inside, kind⟩ := existential member
    refine ⟨t.rank (t.variableOrder naming.mode) x, ?_, by rw [normalName, kind]⟩
    refine rank_lt t _ inside (fun y inside same => ?_)
    have absent : y ∉ t.universals := by
      rw [← quantifier_eq_universal, same, kind]
      simp
    exact mem_existentials.mpr ⟨(mem_vars.mp inside).resolve_left absent, absent⟩

/-- Two head atoms show the same at first; the names decide between them, and again between those of the normal form. -/
theorem normalForm_idempotent_tied :
    ∃ (naming : Naming) (t s : Tgd), naming = ⟨"x_", "y_", .sorted⟩ ∧
      t = .ofLists [⟨"r", [.var "d", .app "f" [.var "b", .const "c"]]⟩] [⟨"q", [.var "d", .var "w"]⟩, ⟨"q", [.var "b", .var "z"]⟩] ∧
      s = .ofLists [⟨"r", [.var "x_1", .app "f" [.var "x_0", .const "c"]]⟩]
        [⟨"q", [.var "x_0", .var "y_0"]⟩, ⟨"q", [.var "x_1", .var "y_1"]⟩] ∧
      naming.Apart ∧ naming.mode = .sorted ∧ t.normalForm naming = s ∧ s.normalForm naming = s ∧
      ∃ g : Variable → Variable, Set.InjOn g {x | x ∈ t.vars} ∧ s = t.subst (fun x => .var (g x)) ∧
        (t.universals.map g).Perm ["x_0", "x_1"] ∧ (t.existentials.map g).Perm ["y_0", "y_1"] := by
  let naming : Naming := ⟨"x_", "y_", .sorted⟩
  let t : Tgd := .ofLists [⟨"r", [.var "d", .app "f" [.var "b", .const "c"]]⟩] [⟨"q", [.var "d", .var "w"]⟩, ⟨"q", [.var "b", .var "z"]⟩]
  have apart : naming.Apart := by
    intro m n same
    have := congrArg (·.toList.head?) same
    simp [Variable.indexed, naming] at this
  obtain ⟨idempotent, g, injective, image, universals, existentials⟩ := normalForm_idempotent naming apart rfl t
  have invented : (List.range t.existentials.length).map (Variable.indexed "y_") = ["y_0", "y_1"] := by decide +kernel
  refine ⟨naming, t, t.normalForm naming, rfl, rfl, ?_, apart, rfl, rfl, idempotent, g, injective, image, universals, ?_⟩
  · decide +kernel
  · exact invented ▸ existentials

end Idempotence

end Tgd
end GuardedSaturation
