import Mathlib
import GuardedSaturation.Proofs.Unification.Exactness
import GuardedSaturation.Proofs.Unification.Variables
import GuardedSaturation.Proofs.Shapes.Skolem

/-! Positional joins. One substitution is led through the pairs of two lists of atoms, and its solutions are exactly the
replacements that make the atoms of each pair equal. A pair is taken as long as no function terms are nested in it or in
the bindings; what it nests in the pairs before it goes unnoticed, so that the order of the pairs matters. -/
namespace GuardedSaturation
open Interpretation (value_free)

namespace Term
variable {g : Variable → Term} {t : Term}

/-- A replacement takes no function term out of another. -/
theorem flat_of_subst (flat : (t.subst g).isNested = false) : t.isNested = false := by
  cases t with
  | var x => rfl
  | const c => rfl
  | app f args =>
    rw [subst_app, isNested_app] at flat
    refine isNested_app.mpr (fun s member => ?_)
    have plain := flat _ (List.mem_map_of_mem member)
    cases s with
    | app g ts => simp [isFunction] at plain
    | var x => rfl
    | const c => rfl

theorem flat_image (flat : (t.subst g).isNested = false) {y : Variable} (inside : y ∈ t.vars) : (g y).isNested = false := by
  cases t with
  | var x =>
    obtain rfl : y = x := by simpa using inside
    simpa using flat
  | const c => simp at inside
  | app f args => exact isNested_of_plain (image_plain rfl (flat_of_subst flat) flat inside)

end Term

namespace Atom
variable {g : Variable → Term} {a : Atom}

theorem flat_of_subst (flat : (a.subst g).hasNested = false) : a.hasNested = false := by
  rw [hasNested_eq_false] at flat ⊢
  intro t member
  apply Term.flat_of_subst (flat (t.subst g) _)
  rw [args_subst]
  exact List.mem_map_of_mem member

theorem flat_image (flat : (a.subst g).hasNested = false) {y : Variable} (inside : y ∈ a.vars) : (g y).isNested = false := by
  obtain ⟨t, member, inside⟩ := mem_vars.mp inside
  apply Term.flat_image (hasNested_eq_false.mp flat (t.subst g) _) inside
  rw [args_subst]
  exact List.mem_map_of_mem member

end Atom

namespace Unifier
open Substitution
variable {σ σ' : Substitution} {τ : Variable → Term} {before after pairs : List (Atom × Atom)} {p : Atom × Atom}
  {left right : List Atom}

def Equalizes (τ : Variable → Term) (pairs : List (Atom × Atom)) : Prop := ∀ p ∈ pairs, p.1.subst τ = p.2.subst τ

def FlatOn (τ : Variable → Term) (pairs : List (Atom × Atom)) : Prop := ∀ p ∈ pairs, (p.1.subst τ).hasNested = false

def Mentioned (pairs : List (Atom × Atom)) (y : Variable) : Prop := ∃ p ∈ pairs, y ∈ p.1.vars ∨ y ∈ p.2.vars

/-- Behind some pairs there is room for another one: a replacement makes the atoms of all these pairs equal and nests no
function terms in the last pair or for any variable. -/
def Admits (before : List (Atom × Atom)) (p : Atom × Atom) : Prop :=
  ∃ τ, Equalizes τ (before ++ [p]) ∧ (p.1.subst τ).hasNested = false ∧
    ∀ y, Mentioned (before ++ [p]) y → (τ y).isNested = false

theorem equalizes_snoc : Equalizes τ (before ++ [p]) ↔ Equalizes τ before ∧ p.1.subst τ = p.2.subst τ := by
  simp only [Equalizes, List.forall_mem_append, List.forall_mem_singleton]

/-- The substitution behind some pairs: its solutions are what makes the atoms of these pairs equal. -/
structure Joined (σ : Substitution) (pairs : List (Atom × Atom)) : Prop where
  normal : Normal σ
  solves_iff : ∀ τ, Solves .free τ σ ↔ Equalizes τ pairs
  confined : Confined (Mentioned pairs) σ
  flat : ∀ x, (σ.image x).isNested = false

theorem joined_empty : Joined ∅ [] where
  normal := normal_empty
  solves_iff τ := ⟨fun _ _ member => absurd member List.not_mem_nil, fun _ => solves_empty (M := .free) τ⟩
  confined := confined_empty _
  flat _ := rfl

namespace Joined

theorem equalizes (joined : Joined σ pairs) : Equalizes σ.image pairs := (joined.solves_iff _).mp joined.normal.solves_image

theorem instance_of (joined : Joined σ pairs) (equal : Equalizes τ pairs) (y : Variable) : τ y = (σ.image y).subst τ := by
  rw [← value_free]
  exact (((joined.solves_iff τ).mpr equal).value_image y).symm

/-- What equalizes the pairs without nesting shows that the substitution does not nest either. -/
theorem flatOn (joined : Joined σ pairs) (equal : Equalizes τ pairs) (flat : FlatOn τ pairs) : FlatOn σ.image pairs := by
  intro p member
  refine Atom.flat_of_subst (g := τ) ?_
  rw [Atom.subst_subst, ← Atom.subst_congr (fun y _ => joined.instance_of equal y)]
  exact flat p member

theorem snoc (joined : Joined σ before) (found : mostGeneral σ p.1 p.2 = some σ') : Joined σ' (before ++ [p]) := by
  have acyclic := joined.normal.acyclic
  have earlier {y : Variable} (mentioned : Mentioned before y) : Mentioned (before ++ [p]) y :=
    mentioned.imp (fun _ here => ⟨List.mem_append_left _ here.1, here.2⟩)
  have here {y : Variable} (mentioned : y ∈ p.1.vars ∨ y ∈ p.2.vars) : Mentioned (before ++ [p]) y :=
    ⟨p, List.mem_append_right _ (List.mem_singleton_self p), mentioned⟩
  refine ⟨mostGeneral_normal acyclic found, fun τ => ?_, ?_, mostGeneral_image found⟩
  · rw [equalizes_snoc, ← joined.solves_iff]
    constructor
    · intro solves
      obtain ⟨solves, equal⟩ := mostGeneral_solves acyclic found solves
      rw [Interpretation.fact_free, Interpretation.fact_free, Prod.mk.injEq] at equal
      exact ⟨solves, Atom.eq_iff.mpr equal⟩
    · intro ⟨solves, equal⟩ x t bound
      have unifies : Unifies τ σ p.1 p.2 := ⟨equal, fun y s bound => by rw [solves y s bound, value_free]⟩
      rw [unifies.instance_of acyclic found x, image, bound, Option.getD_some, value_free]
  · exact mostGeneral_confined acyclic ⟨fun x bound => earlier (joined.confined.bound x bound),
      fun x t bound _ y inside => earlier (joined.confined.keeps x t bound (joined.confined.bound x (by simp [bound])) y inside)⟩
      (fun y inside => here (.inl inside)) (fun y inside => here (.inr inside)) found

theorem isSome_iff_admits (joined : Joined σ before) : (mostGeneral σ p.1 p.2).isSome = true ↔ Admits before p := by
  constructor
  · intro some
    obtain ⟨σ', found⟩ := Option.isSome_iff_exists.mp some
    have next := joined.snoc found
    exact ⟨σ'.image, next.equalizes, mostGeneral_hasNested found, fun y _ => next.flat y⟩
  · intro ⟨τ, equal, flat, images⟩
    obtain ⟨equal, last⟩ := equalizes_snoc.mp equal
    have solves := (joined.solves_iff τ).mpr equal
    refine (mostGeneral_isSome_iff joined.normal.acyclic).mpr ⟨τ, ⟨last, fun x t bound => ?_⟩, ?_⟩
    · rw [solves x t bound, value_free]
    have here {y : Variable} (mentioned : y ∈ p.1.vars ∨ y ∈ p.2.vars) : (τ y).isNested = false :=
      images y ⟨p, List.mem_append_right _ (List.mem_singleton_self p), mentioned⟩
    refine ⟨Atom.hasNested_eq_false.mp flat, fun y inside => here (.inl inside), fun y inside => here (.inr inside),
      fun x t bound y member => ?_⟩
    -- The variables of a binding are variables of the pairs that led to it.
    have known := joined.confined.bound x (by simp [bound])
    have inside : Mentioned before y := by
      obtain rfl | inside := List.mem_cons.mp member
      · exact known
      · exact joined.confined.keeps x t bound known y inside
    exact images y (inside.imp (fun _ there => ⟨List.mem_append_left _ there.1, there.2⟩))

end Joined

def join (σ : Substitution) (pairs : List (Atom × Atom)) : Option Substitution :=
  pairs.foldlM (fun σ p => mostGeneral σ p.1 p.2) σ

theorem join_cons (σ : Substitution) (p : Atom × Atom) (pairs : List (Atom × Atom)) :
    join σ (p :: pairs) = (mostGeneral σ p.1 p.2).bind (fun σ => join σ pairs) := List.foldlM_cons

theorem ofLists_eq (lengths : left.length = right.length) : ofLists left right = join ∅ (left.zip right) := by
  rw [ofLists, if_neg (not_not.mpr lengths)]
  rfl

theorem Joined.join (joined : Joined σ before) (ok : join σ pairs = some σ') : Joined σ' (before ++ pairs) := by
  induction pairs generalizing σ before with
  | nil =>
    cases ok
    rwa [List.append_nil]
  | cons p pairs ih =>
    rw [join_cons] at ok
    obtain ⟨next, found, rest⟩ := Option.bind_eq_some_iff.mp ok
    rw [List.append_cons]
    exact ih (joined.snoc found) rest

theorem Joined.isSome_iff (joined : Joined σ before) :
    (Unifier.join σ pairs).isSome = true ↔
      ∀ earlier p later, pairs = earlier ++ p :: later → Admits (before ++ earlier) p := by
  induction pairs generalizing σ before with
  | nil => simp [Unifier.join]
  | cons q pairs ih =>
    rw [join_cons]
    constructor
    · intro some earlier p later split
      obtain ⟨σ', ok⟩ := Option.isSome_iff_exists.mp some
      obtain ⟨next, found, rest⟩ := Option.bind_eq_some_iff.mp ok
      cases earlier with
      | nil =>
        obtain ⟨rfl, -⟩ := List.cons.inj split
        rw [List.append_nil]
        exact joined.isSome_iff_admits.mp (Option.isSome_of_eq_some found)
      | cons r earlier =>
        obtain ⟨rfl, others⟩ := List.cons.inj split
        rw [List.append_cons]
        exact (ih (joined.snoc found)).mp (Option.isSome_of_eq_some rest) earlier p later others
    · intro admits
      have first : Admits before q := by simpa using admits [] q pairs rfl
      obtain ⟨next, found⟩ := Option.isSome_iff_exists.mp (joined.isSome_iff_admits.mpr first)
      rw [found, Option.bind_some]
      refine (ih (joined.snoc found)).mpr (fun earlier p later split => ?_)
      have := admits (q :: earlier) p later (by rw [split, List.cons_append])
      rwa [List.append_cons] at this

theorem joined_of_ofLists (found : ofLists left right = some σ) : Joined σ (left.zip right) := by
  by_cases lengths : left.length = right.length
  · rw [ofLists_eq lengths] at found
    exact joined_empty.join found
  · simp [ofLists, lengths] at found

theorem ofLists_isSome_iff (lengths : left.length = right.length) :
    (ofLists left right).isSome = true ↔
      ∀ before p after, left.zip right = before ++ p :: after → Admits before p := by
  rw [ofLists_eq lengths]
  exact joined_empty.isSome_iff

theorem Admits.swap (admits : Admits before p) : Admits (before.map Prod.swap) p.swap := by
  obtain ⟨τ, equal, flat, images⟩ := admits
  obtain ⟨equal, last⟩ := equalizes_snoc.mp equal
  refine ⟨τ, equalizes_snoc.mpr ⟨List.forall_mem_map.mpr (fun q member => (equal q member).symm), last.symm⟩, last ▸ flat,
    fun y mentioned => images y ?_⟩
  simpa [Mentioned, or_comm, or_and_right, and_or_left, exists_or] using mentioned

theorem admits_of_flatOn (split : pairs = before ++ p :: after) (equal : Equalizes τ pairs) (flat : FlatOn τ pairs) :
    Admits before p := by
  have within (q : Atom × Atom) (member : q ∈ before ++ [p]) : q ∈ pairs := by
    rw [split, List.append_cons]
    exact List.mem_append_left after member
  refine ⟨τ, fun q member => equal q (within q member),
    flat p (within p (List.mem_append_right _ (List.mem_singleton_self p))), fun y mentioned => ?_⟩
  obtain ⟨q, member, inside⟩ := mentioned
  have level := flat q (within q member)
  exact inside.elim (Atom.flat_image level) (Atom.flat_image (equal q (within q member) ▸ level))

theorem ofLists_isSome_swap (left right : List Atom) : (ofLists right left).isSome = (ofLists left right).isSome := by
  by_cases lengths : left.length = right.length
  · have swapped {left right : List Atom} (lengths : left.length = right.length)
        (some : (ofLists left right).isSome = true) : (ofLists right left).isSome = true := by
      refine (ofLists_isSome_iff lengths.symm).mpr (fun before p after split => ?_)
      have mirrored : left.zip right = before.map Prod.swap ++ p.swap :: after.map Prod.swap := by
        rw [← List.zip_swap, split, List.map_append, List.map_cons]
      have := ((ofLists_isSome_iff lengths).mp some _ _ _ mirrored).swap
      rwa [List.map_map, Prod.swap_swap_eq, List.map_id, Prod.swap_swap] at this
    exact Bool.eq_iff_iff.mpr ⟨swapped lengths.symm, swapped lengths⟩
  · simp [ofLists, lengths, Ne.symm lengths]

/-- Some replacement makes the atoms of all pairs equal without nesting exactly if a substitution is found in every order
of the pairs: the pair that comes last is one in which nothing is nested. -/
theorem exists_flatOn_iff (lengths : left.length = right.length) :
    (∃ τ, Equalizes τ (left.zip right) ∧ FlatOn τ (left.zip right)) ↔
      ∀ left' right', left'.length = right'.length → (left'.zip right').Perm (left.zip right) →
        (ofLists left' right').isSome = true := by
  constructor
  · intro ⟨τ, equal, flat⟩ left' right' lengths' perm
    exact (ofLists_isSome_iff lengths').mpr (fun before p after split => admits_of_flatOn split
      (fun q member => equal q (perm.subset member)) (fun q member => flat q (perm.subset member)))
  · intro every
    obtain ⟨σ, found⟩ := Option.isSome_iff_exists.mp (every left right lengths (.refl _))
    have joined := joined_of_ofLists found
    refine ⟨σ.image, joined.equalizes, fun p member => ?_⟩
    obtain ⟨before, after, split⟩ := List.append_of_mem member
    -- The same pairs with this one at the end.
    let pairs := (before ++ after) ++ [p]
    have zipped : (pairs.map Prod.fst).zip (pairs.map Prod.snd) = pairs := (List.zip_of_prod rfl rfl).symm
    have perm : pairs.Perm (left.zip right) := by
      rw [split]
      exact List.perm_append_singleton p _ |>.trans List.perm_middle.symm
    have some := every (pairs.map Prod.fst) (pairs.map Prod.snd) (by simp) (by rwa [zipped])
    obtain ⟨τ, equal, flat, -⟩ := (ofLists_isSome_iff (by simp)).mp some (before ++ after) p [] zipped
    refine Atom.flat_of_subst (g := τ) ?_
    rw [Atom.subst_subst, ← Atom.subst_congr (fun y _ => joined.instance_of (fun q inside => ?_) y)]
    · exact flat
    · exact equal q (perm.mem_iff.mpr inside)

theorem zip_reverse_perm (lengths : left.length = right.length) :
    (left.reverse.zip right.reverse).Perm (left.zip right) := by
  rw [List.zip_eq_zipWith, List.zip_eq_zipWith, ← List.reverse_zipWith lengths]
  exact List.reverse_perm _

/-- Joining two lists at equal positions. A substitution is found exactly if each pair in turn can be added to those before
it; in either order of the two lists alike, but in every order of the pairs only if some replacement makes the atoms of all
pairs equal and nests function terms in none of them. The one found is idempotent, makes all pairs equal, is more general
than all that does, and nests nothing in any pair where that can be had. -/
theorem ofLists_exact (left right : List Atom) :
    (left.length ≠ right.length → ofLists left right = none) ∧
      (left.length = right.length →
        ((ofLists left right).isSome = true ↔
          ∀ before p after, left.zip right = before ++ p :: after → Admits before p) ∧
        ((∃ τ, Equalizes τ (left.zip right) ∧ FlatOn τ (left.zip right)) ↔
          ∀ left' right', left'.length = right'.length → (left'.zip right').Perm (left.zip right) →
            (ofLists left' right').isSome = true)) ∧
      (ofLists right left).isSome = (ofLists left right).isSome ∧
      ∀ σ, ofLists left right = some σ →
        (∀ t, σ.applyTerm (σ.applyTerm t) = σ.applyTerm t) ∧
        (∀ p ∈ left.zip right, σ.applyAtom p.1 = σ.applyAtom p.2) ∧
        (∀ τ, Equalizes τ (left.zip right) → ∀ y, τ y = (σ.applyTerm (.var y)).subst τ) ∧
        (∀ x t, σ.get? x = some t → t.isNested = false) ∧
        ((∃ τ, Equalizes τ (left.zip right) ∧ FlatOn τ (left.zip right)) → FlatOn σ.image (left.zip right)) := by
  refine ⟨fun lengths => by simp [ofLists, lengths], fun lengths => ⟨ofLists_isSome_iff lengths, exists_flatOn_iff lengths⟩,
    ofLists_isSome_swap left right, fun σ found => ?_⟩
  have joined := joined_of_ofLists found
  refine ⟨joined.normal.image_idem, joined.equalizes, fun τ equal y => joined.instance_of equal y, fun x t bound => ?_,
    fun ⟨τ, equal, flat⟩ => joined.flatOn equal flat⟩
  have flat := joined.flat x
  rwa [image, bound, Option.getD_some] at flat

/-- A function term is put in for `v` by the second pair and meets the first atom in the third one. -/
theorem ofLists_exact_triple :
    ∃ (left right : List Atom) (σ : Substitution),
      left = [⟨"r", [.var "x", .var "y"]⟩, ⟨"s", [.var "v"]⟩, ⟨"t", [.var "y", .var "x"]⟩] ∧
      right = [⟨"r", [.var "z", .var "v"]⟩, ⟨"s", [.app "f" [.var "w"]]⟩, ⟨"t", [.app "f" [.const "c"], .var "z"]⟩] ∧
      left.length = right.length ∧ ofLists left right = some σ ∧
      (∀ τ, Equalizes τ (left.zip right) → τ "y" = .app "f" [.const "c"]) ∧
      FlatOn σ.image (left.zip right) ∧
      (ofLists left.reverse right.reverse).isSome = true ∧ (ofLists right left).isSome = true ∧
      left.length ≠ right.tail.length ∧ ofLists left right.tail = none := by
  let left : List Atom := [⟨"r", [.var "x", .var "y"]⟩, ⟨"s", [.var "v"]⟩, ⟨"t", [.var "y", .var "x"]⟩]
  let right : List Atom :=
    [⟨"r", [.var "z", .var "v"]⟩, ⟨"s", [.app "f" [.var "w"]]⟩, ⟨"t", [.app "f" [.const "c"], .var "z"]⟩]
  let σ : Substitution := .ofList [("v", .app "f" [.const "c"]), ("w", .const "c"), ("x", .var "z"),
    ("y", .app "f" [.const "c"])]
  have found : ofLists left right = some σ := by decide +kernel
  obtain ⟨-, equal, swap, facts⟩ := ofLists_exact left right
  obtain ⟨-, equalizes, general, -, flatOn⟩ := facts σ found
  have flat : FlatOn σ.image (left.zip right) := by
    unfold FlatOn
    decide +kernel
  have y : σ.applyTerm (.var "y") = .app "f" [.const "c"] := by decide +kernel
  refine ⟨left, right, σ, rfl, rfl, rfl, found, fun τ solves => ?_, flatOn ⟨_, equalizes, flat⟩,
    (equal rfl).2.mp ⟨_, equalizes, flat⟩ left.reverse right.reverse rfl (zip_reverse_perm rfl),
    swap.trans (Option.isSome_of_eq_some found), by decide, (ofLists_exact left right.tail).1 (by decide)⟩
  rw [general τ solves "y", y]
  rfl

/-- Nesting that a later pair brings about in an earlier one is overlooked: `y` becomes `g(z)` below `f`. With the pairs
in the other order there is no unifier. -/
theorem ofLists_overlooks :
    ∃ (left right : List Atom) (σ : Substitution),
      left = [⟨"p", [.app "f" [.var "x"]]⟩, ⟨"q", [.var "x"]⟩] ∧
      right = [⟨"p", [.app "f" [.var "y"]]⟩, ⟨"q", [.app "g" [.var "z"]]⟩] ∧
      ofLists left right = some σ ∧ (∃ a ∈ left, (σ.applyAtom a).hasNested = true) ∧
      (¬ ∃ τ, Equalizes τ (left.zip right) ∧ FlatOn τ (left.zip right)) ∧
      ofLists left.reverse right.reverse = none := by
  let left : List Atom := [⟨"p", [.app "f" [.var "x"]]⟩, ⟨"q", [.var "x"]⟩]
  let right : List Atom := [⟨"p", [.app "f" [.var "y"]]⟩, ⟨"q", [.app "g" [.var "z"]]⟩]
  have reversed : ofLists left.reverse right.reverse = none := by decide +kernel
  refine ⟨left, right, .ofList [("x", .app "g" [.var "z"]), ("y", .app "g" [.var "z"])], rfl, rfl, by decide +kernel,
    ⟨_, List.mem_cons_self, by decide +kernel⟩, fun flat => ?_, reversed⟩
  have lengths : left.length = right.length := rfl
  have some := (exists_flatOn_iff lengths).mp flat left.reverse right.reverse rfl (zip_reverse_perm rfl)
  rw [reversed] at some
  exact Bool.false_ne_true some

end Unifier
end GuardedSaturation
