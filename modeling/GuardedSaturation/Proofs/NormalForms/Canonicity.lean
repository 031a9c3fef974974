import Mathlib
import GuardedSaturation.Proofs.NormalForms.Idempotence

/-! How far normal forms stand for rules up to renaming. Rules of one normal form are renamings of each other. A rule has
one normal form with all its renamings exactly if names never matter: each time an atom is taken, the others that show the
same are images of it, under renamings of the rule onto itself that leave the variables ranked so far where they are. -/
namespace GuardedSaturation
open Std

namespace Tgd
variable {s t t' : Tgd} {g h : Variable → Variable} {order : List Variable} {atoms rest : List Atom} {a b : Atom}
  {x y : Variable} {naming : Naming}

section Ranks

theorem rank_early {all : List Variable} (beginning : order <+: all) (inside : x ∈ order) :
    t.rank all x = t.rank order x := by
  obtain ⟨more, rfl⟩ := beginning
  rw [rank, rank, List.filter_append]
  exact List.idxOf_append_of_mem (List.mem_filter.mpr ⟨inside, by simp⟩)

/-- A variable is ranked by the number of variables of its kind before it. -/
theorem rank_eq_count {before after : List Variable} (first : x ∉ before) :
    t.rank (before ++ x :: after) x = (before.map t.quantifier).count (t.quantifier x) := by
  rw [rank, List.filter_append, List.filter_cons_of_pos (by simp),
    List.idxOf_append_of_notMem (fun member => first (List.mem_of_mem_filter member)), List.idxOf_cons_self, Nat.add_zero,
    List.count_eq_countP, List.countP_map, List.countP_eq_length_filter]
  rfl

theorem nameBy_early {all : List Variable} (beginning : order <+: all) (inside : x ∈ order) :
    t.nameBy naming all x = t.nameBy naming order x := nameBy_congr rfl (rank_early beginning inside)

/-- Variables that show the same get the same names, each with those of its atom ranked next. -/
theorem nameBy_of_showing (shapes : t.shapes order a = t.shapes order b) (inside : x ∈ a.vars) (inside' : y ∈ b.vars)
    (same : t.showing order a x = t.showing order b y) :
    t.nameBy naming (order ++ unranked order a) x = t.nameBy naming (order ++ unranked order b) y := by
  unfold showing at same
  split at same <;> split at same
  · next ranked ranked' =>
    simp only [Shape.numbered.injEq] at same
    rw [rank_inj ranked same.1 same.2, nameBy_early (List.prefix_append _ _) ranked',
      nameBy_early (List.prefix_append _ _) ranked']
  · cases same
  · cases same
  · next fresh fresh' =>
    simp only [Shape.fresh.injEq] at same
    obtain ⟨kind, place⟩ := same
    have position {c : Atom} {z : Variable} (inside : z ∈ c.vars) (fresh : z ∉ order) :
        ∃ before after, unranked order c = before ++ z :: after ∧ z ∉ before ∧ (unranked order c).idxOf z = before.length := by
      obtain ⟨before, after, split⟩ := List.append_of_mem (mem_unranked.mpr ⟨inside, fresh⟩)
      have first : z ∉ before := fun member =>
        List.disjoint_of_nodup_append (split ▸ unranked_nodup order c) member List.mem_cons_self
      exact ⟨before, after, split, first, by rw [split, List.idxOf_append_of_notMem first, List.idxOf_cons_self, Nat.add_zero]⟩
    obtain ⟨before, after, split, first, index⟩ := position inside fresh
    obtain ⟨before', after', split', first', index'⟩ := position inside' fresh'
    have kinds := kinds_of_shapes shapes
    rw [split, split', List.map_append, List.map_append] at kinds
    obtain ⟨kinds, -⟩ := List.append_inj kinds (by rw [List.length_map, List.length_map, ← index, ← index', place])
    apply nameBy_congr kind
    rw [split, split', ← List.append_assoc, ← List.append_assoc, rank_eq_count (by simp [fresh, first]),
      rank_eq_count (by simp [fresh', first']), List.map_append, List.map_append, kinds, kind]

end Ranks

/-- Rules that become the same under names that keep their variables apart are renamings of each other. -/
theorem exists_renaming (apart : Set.InjOn g {x | x ∈ t.vars}) (apart' : Set.InjOn h {x | x ∈ s.vars})
    (same : t.subst (fun x => .var (g x)) = s.subst (fun x => .var (h x))) :
    ∃ f : Variable → Variable, Set.InjOn f {x | x ∈ t.vars} ∧ t.subst (fun x => .var (f x)) = s ∧
      ∀ x ∈ t.vars, f x ∈ s.vars ∧ h (f x) = g x := by
  have image {x : Variable} (inside : x ∈ t.vars) : ∃ y ∈ s.vars, h y = g x := by
    have named : g x ∈ (t.subst (fun x => .var (g x))).vars := mem_vars_rename.mpr ⟨x, inside, rfl⟩
    rw [same] at named
    exact mem_vars_rename.mp named
  let f (x : Variable) : Variable := Function.invFunOn h {x | x ∈ s.vars} (g x)
  have found (x : Variable) (inside : x ∈ t.vars) : f x ∈ s.vars ∧ h (f x) = g x :=
    ⟨Function.invFunOn_mem (image inside), Function.invFunOn_eq (image inside)⟩
  refine ⟨f, ?_, ?_, found⟩
  · intro x inside y inside' equal
    apply apart inside inside'
    rw [← (found x inside).2, ← (found y inside').2, equal]
  · calc t.subst (fun x => .var (f x)) = (t.subst (fun x => .var (g x))).subst
          (fun y => .var (Function.invFunOn h {x | x ∈ s.vars} y)) := by simp only [subst_subst, Term.subst_var, f]
      _ = s.subst (fun x => .var (Function.invFunOn h {x | x ∈ s.vars} (h x))) := by
        rw [same]
        simp only [subst_subst, Term.subst_var]
      _ = s.subst .var := subst_congr (fun x inside => by rw [apart'.leftInvOn_invFunOn inside])
      _ = s := subst_self s

/-- The variables ranked so far and the atoms left, each time that an atom of the head or, after it, of the body is taken. -/
inductive Stage (t : Tgd) : List Variable → List Atom → Prop
  | head : Stage t [] t.head.toList
  | body : Stage t t.headOrder t.body.toList
  | next {order : List Variable} {a : Atom} {rest : List Atom} (stage : Stage t order (a :: rest)) :
      Stage t (order ++ unranked order (t.leastAtom order a rest)) ((a :: rest).erase (t.leastAtom order a rest))

namespace Stage

/-- The atoms left are those of one part of the rule, except some whose variables are all ranked. -/
theorem part (stage : Stage t order atoms) :
    ∃ part : AtomSet, (part = t.head ∨ part = t.body) ∧ atoms.Nodup ∧ (∀ a ∈ atoms, a ∈ part) ∧
      ∀ a ∈ part, a ∉ atoms → ∀ x ∈ a.vars, x ∈ order := by
  induction stage with
  | head => exact ⟨t.head, .inl rfl, t.head.nodup, fun a member => member, fun a member absent => absurd member absent⟩
  | body => exact ⟨t.body, .inr rfl, t.body.nodup, fun a member => member, fun a member absent => absurd member absent⟩
  | @next order a rest stage ih =>
    obtain ⟨part, kind, distinct, within, taken⟩ := ih
    refine ⟨part, kind, distinct.erase _, fun b member => within b (List.mem_of_mem_erase member), ?_⟩
    intro b member absent x inside
    by_cases old : x ∈ order
    · exact List.mem_append_left _ old
    · have least : b = t.leastAtom order a rest := by
        by_contra other
        apply absent
        rw [List.mem_erase_of_ne other]
        by_contra gone
        exact old (taken b member gone x inside)
      exact List.mem_append_right _ (mem_unranked.mpr ⟨least ▸ inside, old⟩)

theorem within (stage : Stage t order atoms) (member : a ∈ atoms) : ∀ x ∈ a.vars, x ∈ t.vars := by
  obtain ⟨part, rfl | rfl, -, within, -⟩ := stage.part
  · exact fun x => mem_vars_of_mem (.inr (within a member))
  · exact fun x => mem_vars_of_mem (.inl (within a member))

theorem beginning (stage : Stage t order atoms) : order <+: t.sortedOrder := by
  have rest : t.rankAtoms atoms.length order atoms = t.headOrder ∨ t.rankAtoms atoms.length order atoms = t.sortedOrder := by
    induction stage with
    | head => exact .inl rfl
    | body => exact .inr rfl
    | @next order a rest stage ih =>
      rw [List.length_erase_of_mem (t.leastAtom_mem order a rest)]
      exact ih
  have first := t.prefix_rankAtoms atoms.length order atoms
  obtain rest | rest := rest
  · exact (rest ▸ first).trans (t.prefix_rankAtoms _ _ _)
  · exact rest ▸ first

theorem distinct (stage : Stage t order atoms) : order.Nodup :=
  stage.beginning.sublist.nodup (variableOrder_nodup t .sorted)

theorem ordered (stage : Stage t order atoms) : ∀ x ∈ order, x ∈ t.vars :=
  fun _ inside => (t.mem_variableOrder .sorted).mp (stage.beginning.subset inside)

end Stage

/-- The replacement maps a rule onto itself and leaves some of its variables where they are. -/
structure Fixes (g : Variable → Variable) (t : Tgd) (order : List Variable) : Prop where
  apart : Set.InjOn g {x | x ∈ t.vars}
  onto : t.subst (fun x => .var (g x)) = t
  fixed : ∀ x ∈ order, g x = x

namespace Fixes

theorem maps (fixes : Fixes g t order) (inside : x ∈ t.vars) : g x ∈ t.vars := by
  rw [← fixes.onto]
  exact mem_vars_rename.mpr ⟨x, inside, rfl⟩

/-- The atoms left when its variables are ranked are mapped among themselves. -/
theorem perm (fixes : Fixes g t order) (stage : Stage t order atoms) :
    (atoms.map (Atom.subst (fun x => .var (g x)))).Perm atoms := by
  obtain ⟨part, kind, distinct, left, taken⟩ := stage.part
  have onto : part.subst (fun x => .var (g x)) = part := by
    obtain rfl | rfl := kind
    · exact congrArg Tgd.head fixes.onto
    · exact congrArg Tgd.body fixes.onto
  have within {c : Atom} (member : c ∈ part) : ∀ x ∈ c.vars, x ∈ t.vars := by
    obtain rfl | rfl := kind
    · exact fun x => mem_vars_of_mem (.inr member)
    · exact fun x => mem_vars_of_mem (.inl member)
  refine (List.subperm_of_subset (distinct.map_on ?_) ?_).perm_of_length_le (by simp)
  · exact fun a member b member' => Atom.eq_of_rename fixes.apart (stage.within member) (stage.within member')
  · intro c image
    obtain ⟨b, member, rfl⟩ := List.mem_map.mp image
    have member' : b.subst (fun x => .var (g x)) ∈ part := onto ▸ AtomSet.mem_subst.mpr ⟨b, left b member, rfl⟩
    by_contra gone
    -- An image that is gone has its variables ranked, so it is its own image.
    have same : (b.subst (fun x => .var (g x))).subst (fun x => .var (g x)) = b.subst (fun x => .var (g x)) := by
      conv_rhs => rw [← Atom.subst_self (b.subst (fun x => .var (g x)))]
      exact Atom.subst_congr (fun x inside => by rw [fixes.fixed x (taken _ member' gone x inside)])
    apply gone
    rwa [Atom.eq_of_rename fixes.apart (within member') (stage.within member) same]

end Fixes

/-- Names never matter: of the atoms that show the least, each is the image of the one that is taken. -/
def Symmetric (t : Tgd) : Prop :=
  ∀ order a rest, Stage t order (a :: rest) → ∀ b ∈ a :: rest,
    b.symbol = (t.leastAtom order a rest).symbol → t.shapes order b = t.shapes order (t.leastAtom order a rest) →
    ∃ g, Fixes g t order ∧ (t.leastAtom order a rest).subst (fun x => .var (g x)) = b

instance : TransCmp (t.compareShapes order) :=
  have := transCmp_on Shape.compareAll (t.shapes order)
  inferInstanceAs (TransCmp (compareLex (compareOn Atom.symbol) (fun a b => Shape.compareAll (t.shapes order a) (t.shapes order b))))

namespace Symmetric

/-- Where a renamed rule takes another atom, that is the image of the one taken before under a renaming that agrees with
the given one on the variables ranked so far. -/
theorem exchanged (symmetric : t.Symmetric) (stage : Stage t order (a :: rest)) (apart : Set.InjOn h {x | x ∈ t.vars})
    (image : t.subst (fun x => .var (h x)) = t') {a' : Atom} {rest' : List Atom}
    (perm : (a' :: rest').Perm ((a :: rest).map (Atom.subst (fun x => .var (h x))))) :
    ∃ f : Variable → Variable, Set.InjOn f {x | x ∈ t.vars} ∧ t.subst (fun x => .var (f x)) = t' ∧
      order.map f = order.map h ∧
      t'.leastAtom (order.map h) a' rest' = (t.leastAtom order a rest).subst (fun x => .var (f x)) ∧
      (a' :: rest').Perm ((a :: rest).map (Atom.subst (fun x => .var (f x)))) := by
  have renames : Renames h t t' := image ▸ renames_subst apart
  have member := t.leastAtom_mem order a rest
  obtain ⟨b, present, least⟩ := List.mem_map.mp (perm.mem_iff.mp (t'.leastAtom_mem (order.map h) a' rest'))
  have tied : t.compareShapes order b (t.leastAtom order a rest) = .eq := by
    refine OrientedCmp.isLE_antisymm ?_ (leastAtom_shows present)
    rw [← renames.compareShapes stage.ordered (stage.within present) (stage.within member), least]
    exact leastAtom_shows (perm.mem_iff.mpr (List.mem_map_of_mem member))
  obtain ⟨symbol, shapes⟩ := compareShapes_eq_eq.mp tied
  obtain ⟨g, fixes, exchange⟩ := symmetric order a rest stage b present symbol shapes
  have twice (c : Atom) : (c.subst (fun x => .var (g x))).subst (fun x => .var (h x)) = c.subst (fun x => .var (h (g x))) := by
    simp only [Atom.subst_subst, Term.subst_var]
  refine ⟨fun x => h (g x), ?_, ?_, ?_, ?_, ?_⟩
  · exact apart.comp fixes.apart (fun x inside => fixes.maps inside)
  · rw [← image]
    conv_rhs => rw [← fixes.onto, subst_subst]
    simp only [Term.subst_var]
  · exact List.map_congr_left (fun x inside => congrArg h (fixes.fixed x inside))
  · rw [← twice, exchange, least]
  · refine perm.trans ((fixes.perm stage).symm.map _ |>.trans ?_)
    rw [List.map_map]
    exact List.Perm.of_eq (List.map_congr_left (fun c _ => twice c))

theorem rankAtoms (symmetric : t.Symmetric) (n : Nat) (stage : Stage t order atoms) (apart : Set.InjOn h {x | x ∈ t.vars})
    (image : t.subst (fun x => .var (h x)) = t') {atoms' : List Atom}
    (perm : atoms'.Perm (atoms.map (Atom.subst (fun x => .var (h x))))) :
    ∃ f : Variable → Variable, Set.InjOn f {x | x ∈ t.vars} ∧ t.subst (fun x => .var (f x)) = t' ∧
      t'.rankAtoms n (order.map h) atoms' = (t.rankAtoms n order atoms).map f := by
  induction n generalizing order atoms atoms' h with
  | zero => exact ⟨h, apart, image, by simp [Tgd.rankAtoms]⟩
  | succ n ih =>
    cases atoms with
    | nil =>
      rw [List.map_nil, List.perm_nil] at perm
      exact ⟨h, apart, image, by simp [perm, Tgd.rankAtoms]⟩
    | cons a rest =>
      cases atoms' with
      | nil => simp at perm
      | cons a' rest' =>
        have member := t.leastAtom_mem order a rest
        obtain ⟨f, apart, image, order', least, perm⟩ := symmetric.exchanged stage apart image perm
        have renames : Renames f t t' := image ▸ renames_subst apart
        obtain ⟨k, apart, image, ranked⟩ := ih stage.next apart image (perm_erase_map member perm)
        refine ⟨k, apart, image, ?_⟩
        rw [Tgd.rankAtoms, Tgd.rankAtoms, ← ranked, least, ← order', renames.unranked stage.ordered (stage.within member),
          List.map_append]

/-- All renamings of a rule in which names never matter have its normal form. -/
theorem normalForm_subst (symmetric : t.Symmetric) (sorted : naming.mode = .sorted) (apart : Set.InjOn h {x | x ∈ t.vars}) :
    (t.subst (fun x => .var (h x))).normalForm naming = t.normalForm naming := by
  generalize image : t.subst (fun x => .var (h x)) = t'
  have heads := AtomSet.perm_rename (apart.mono (fun x inside => mem_vars_of_head inside))
  rw [← head_subst, image] at heads
  obtain ⟨f, apart, image, heads'⟩ := symmetric.rankAtoms t'.head.size .head apart image heads
  have bodies := AtomSet.perm_rename (apart.mono (fun x inside => mem_vars_of_body inside))
  rw [← body_subst, image] at bodies
  obtain ⟨k, apart, image, order⟩ := symmetric.rankAtoms t'.body.size .body apart image bodies
  have headSize : t'.head.size = t.head.size := heads.length_eq.trans (List.length_map _)
  have bodySize : t'.body.size = t.body.size := bodies.length_eq.trans (List.length_map _)
  rw [← image]
  apply Tgd.normalForm_subst apart sorted
  rw [image, sortedOrder_eq, sortedOrder_eq, ← bodySize, ← order, headOrder, headOrder, ← headSize, ← heads', List.map_nil]

end Symmetric

/-- Names never matter in a rule whose head and body each have one atom at most of a predicate. -/
theorem symmetric_of_symbols (heads : Set.InjOn Atom.symbol {a | a ∈ t.head}) (bodies : Set.InjOn Atom.symbol {a | a ∈ t.body}) :
    t.Symmetric := by
  intro order a rest stage b present symbol _
  have member := t.leastAtom_mem order a rest
  obtain ⟨part, kind, -, within, -⟩ := stage.part
  have alone : t.leastAtom order a rest = b := by
    obtain rfl | rfl := kind
    · exact heads (within _ member) (within b present) symbol.symm
    · exact bodies (within _ member) (within b present) symbol.symm
  exact ⟨id, ⟨Set.injOn_id _, t.subst_self, fun _ _ => rfl⟩, (Atom.subst_self _).trans alone⟩

/-- If the variables ranked up to a stage have the first names, a renamed rule comes to the same stage. -/
theorem Stage.subst (stage : Stage t order atoms) (apart : Set.InjOn g {x | x ∈ t.vars}) {all : List Variable}
    (names : Ordered g t all) (beginning : order <+: all) :
    ∃ atoms', Stage (t.subst (fun x => .var (g x))) (order.map g) atoms' ∧
      atoms'.Perm (atoms.map (Atom.subst (fun x => .var (g x)))) := by
  induction stage with
  | head => exact ⟨_, .head, AtomSet.perm_rename (apart.mono (fun x inside => mem_vars_of_head inside))⟩
  | body =>
    rw [← headOrder_subst apart names beginning]
    exact ⟨_, .body, AtomSet.perm_rename (apart.mono (fun x inside => mem_vars_of_body inside))⟩
  | @next order a rest stage ih =>
    have renames := renames_subst apart
    have member := t.leastAtom_mem order a rest
    obtain ⟨atoms', stage', perm⟩ := ih ((List.prefix_append _ _).trans beginning)
    cases atoms' with
    | nil => simp at perm
    | cons a' rest' =>
      have least := renames.leastAtom_eq names stage.ordered (fun b => stage.within) member (fun b => leastAtom_shows)
        beginning perm
      have next := stage'.next
      rw [least, renames.unranked stage.ordered (stage.within member), ← List.map_append] at next
      exact ⟨_, next, perm_erase_map member perm⟩

theorem mem_append_unranked (order : List Variable) (inside : x ∈ a.vars) : x ∈ order ++ unranked order a := by
  rw [List.mem_append, mem_unranked]
  tauto

/-- Any atom that shows the least is the one taken, under some names. -/
theorem Stage.exists_taken (stage : Stage t order atoms) (member : b ∈ atoms)
    (shows : ∀ c ∈ atoms, (t.compareShapes order b c).isLE) :
    ∃ g : Variable → Variable, Set.InjOn g {x | x ∈ t.vars} ∧
      (order ++ unranked order b).map g <+: (t.subst (fun x => .var (g x))).sortedOrder := by
  let first := order ++ unranked order b
  let all := first ++ t.vars.filter (· ∉ first)
  have distinct : first.Nodup := by
    refine List.nodup_append.mpr ⟨stage.distinct, unranked_nodup order b, ?_⟩
    rintro x old y new rfl
    exact (mem_unranked.mp new).2 old
  have distinct : all.Nodup := by
    refine List.nodup_append.mpr ⟨distinct, t.vars_nodup.filter _, ?_⟩
    rintro x old y new rfl
    simpa [old] using List.of_mem_filter new
  have apart : Set.InjOn (t.nameBy {} all) {x | x ∈ t.vars} := by
    refine nameBy_injOn Naming.apart_default (fun x inside => ?_)
    by_cases early : x ∈ first <;> simp [all, early, inside]
  have names : Ordered (t.nameBy {} all) t all := ordered_nameBy {} distinct
  have renames := renames_subst apart
  obtain ⟨atoms', stage', perm⟩ := stage.subst apart names ((List.prefix_append _ _).trans (List.prefix_append _ _))
  refine ⟨t.nameBy {} all, apart, ?_⟩
  cases atoms' with
  | nil => simp [List.eq_nil_of_map_eq_nil (List.nil_perm.mp perm)] at member
  | cons a' rest' =>
    have least := renames.leastAtom_eq names stage.ordered (fun c => stage.within) member shows (List.prefix_append _ _) perm
    have next := stage'.next.beginning
    rwa [least, renames.unranked stage.ordered (stage.within member), ← List.map_append] at next

/-- If all renamings of a rule have its normal form, names never matter: for the other atom of a tie there is a renaming
that takes it, and from the equal normal forms one gets the exchange. -/
theorem symmetric_of_normalForm
    (canonical : ∀ g : Variable → Variable, Set.InjOn g {x | x ∈ t.vars} →
      (t.subst (fun x => .var (g x))).normalForm {} = t.normalForm {}) : t.Symmetric := by
  intro order a rest stage b present symbol shapes
  have member := t.leastAtom_mem order a rest
  have shows (c : Atom) (inside : c ∈ a :: rest) : (t.compareShapes order b c).isLE := by
    rw [compareShapes, symbol, shapes]
    exact leastAtom_shows inside
  obtain ⟨g, apart, beginning⟩ := stage.exists_taken present shows
  have renames := renames_subst apart
  let name (x : Variable) : Variable := (t.subst (fun x => .var (g x))).normalName {} (g x)
  have apart' : Set.InjOn name {x | x ∈ t.vars} := by
    refine (normalName_injOn Naming.apart_default).comp apart (fun x inside => ?_)
    exact mem_vars_rename.mpr ⟨x, inside, rfl⟩
  have same : t.subst (fun x => .var (t.normalName {} x)) = t.subst (fun x => .var (name x)) := by
    rw [← normalForm_eq, ← canonical g apart, normalForm_eq, subst_subst]
    simp only [Term.subst_var, name]
  obtain ⟨f, injective, onto, found⟩ := exists_renaming (normalName_injOn Naming.apart_default) apart' same
  -- The variables ranked with either atom have the names that their places among these give them.
  have old {x : Variable} (early : x ∈ order ++ unranked order (t.leastAtom order a rest)) :
      t.normalName {} x = t.nameBy {} (order ++ unranked order (t.leastAtom order a rest)) x :=
    nameBy_early stage.next.beginning early
  have ranked (x : Variable) (early : x ∈ order ++ unranked order b) : x ∈ t.vars := by
    obtain early | new := List.mem_append.mp early
    · exact stage.ordered x early
    · exact stage.within present x (mem_unranked.mp new).1
  have new {x : Variable} (early : x ∈ order ++ unranked order b) : name x = t.nameBy {} (order ++ unranked order b) x :=
    (nameBy_early beginning (List.mem_map_of_mem early)).trans (renames.nameBy ranked (ranked x early))
  have equal : (t.leastAtom order a rest).subst (fun x => .var (t.normalName {} x)) = b.subst (fun x => .var (name x)) := by
    apply subst_eq_of_shapes symbol.symm shapes.symm
    intro x inside y inside' showing
    rw [old (mem_append_unranked order inside), new (mem_append_unranked order inside'),
      nameBy_of_showing shapes.symm inside inside' showing]
  refine ⟨f, ⟨injective, onto, fun x early => ?_⟩, ?_⟩
  · apply apart' (found x (stage.ordered x early)).1 (stage.ordered x early)
    rw [(found x (stage.ordered x early)).2, old (List.mem_append_left _ early), new (List.mem_append_left _ early),
      nameBy_early (List.prefix_append _ _) early, nameBy_early (List.prefix_append _ _) early]
  · apply Atom.eq_of_rename apart' ?_ (stage.within present)
    · rw [← equal, Atom.subst_subst]
      refine Atom.subst_congr (fun x inside => ?_)
      rw [Term.subst_var, (found x (stage.within member x inside)).2]
    · intro y inside
      obtain ⟨x, old, rfl⟩ := Atom.mem_vars_rename.mp inside
      exact (found x (stage.within member x old)).1

/-- Rules of one normal form are renamings of each other. The other way round, a rule has one normal form with all its
renamings exactly if names never matter between the atoms that are taken. -/
theorem normalForm_canonical_iff (t : Tgd) :
    (∀ s : Tgd, s.normalForm {} = t.normalForm {} →
        ∃ g : Variable → Variable, Set.InjOn g {x | x ∈ t.vars} ∧ t.subst (fun x => .var (g x)) = s) ∧
      ((∀ g : Variable → Variable, Set.InjOn g {x | x ∈ t.vars} →
          (t.subst (fun x => .var (g x))).normalForm {} = t.normalForm {}) ↔ t.Symmetric) := by
  refine ⟨fun s same => ?_, symmetric_of_normalForm, fun symmetric g apart => symmetric.normalForm_subst rfl apart⟩
  obtain ⟨g, apart, onto, -⟩ :=
    exists_renaming (normalName_injOn Naming.apart_default) (normalName_injOn Naming.apart_default) same.symm
  exact ⟨g, apart, onto⟩

/-- Where it matters which of two atoms is taken first, exchanging their variables changes the normal form. -/
theorem normalForm_exchanged :
    ∃ (t : Tgd) (g : Variable → Variable), Function.Injective g ∧
      t = .ofLists [⟨"a", [.var "x"]⟩, ⟨"a", [.var "y"]⟩, ⟨"r", [.var "x", .var "y"]⟩] [⟨"p", []⟩] ∧
      t.subst (fun x => .var (g x)) =
        .ofLists [⟨"a", [.var "y"]⟩, ⟨"a", [.var "x"]⟩, ⟨"r", [.var "y", .var "x"]⟩] [⟨"p", []⟩] ∧
      t.normalForm {} = .ofLists [⟨"a", [.var "u0"]⟩, ⟨"a", [.var "u1"]⟩, ⟨"r", [.var "u0", .var "u1"]⟩] [⟨"p", []⟩] ∧
      (t.subst (fun x => .var (g x))).normalForm {} ≠ t.normalForm {} := by
  let t : Tgd := .ofLists [⟨"a", [.var "x"]⟩, ⟨"a", [.var "y"]⟩, ⟨"r", [.var "x", .var "y"]⟩] [⟨"p", []⟩]
  have image : t.subst (fun x => .var (Equiv.swap "x" "y" x)) =
      .ofLists [⟨"a", [.var "y"]⟩, ⟨"a", [.var "x"]⟩, ⟨"r", [.var "y", .var "x"]⟩] [⟨"p", []⟩] := by decide +kernel
  refine ⟨t, Equiv.swap "x" "y", (Equiv.swap "x" "y").injective, rfl, image, by decide +kernel, ?_⟩
  rw [image]
  decide +kernel

end Tgd
end GuardedSaturation
