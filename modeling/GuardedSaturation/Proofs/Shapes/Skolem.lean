import Mathlib
import GuardedSaturation.Inference.Resolve
import GuardedSaturation.Proofs.Unification.FunctionFree
import GuardedSaturation.Proofs.Shapes.Existential

/-! The shape of the rules of a Skolem run. Every function term mentions every variable of its
rule; so a resolvent keeps the guard of the rule whose head is resolved on, and all variables
of the other rule go into the terms of that guard. -/
namespace GuardedSaturation

namespace Term

/-- If replacing variables nests no function terms, what stands for a variable below a function
symbol is no function term. -/
theorem image_plain {g : Variable → Term} {t : Term} (function : t.isFunction = true) (flat : t.isNested = false)
    (image : (t.subst g).isNested = false) {x : Variable} (inside : x ∈ t.vars) : (g x).isFunction = false := by
  obtain ⟨f, args, rfl⟩ := exists_app function
  rw [subst_app, isNested_app] at image
  rw [isNested_app] at flat
  rw [vars_app, List.mem_flatMap] at inside
  obtain ⟨arg, member, inside⟩ := inside
  rcases plain_cases (flat arg member) with ⟨y, rfl⟩ | ⟨c, rfl⟩
  · rw [vars_var, List.mem_singleton] at inside
    simpa [inside] using image _ (List.mem_map_of_mem member)
  · simp at inside

theorem isNested_subst {g : Variable → Term} {t : Term} (flat : t.isNested = false)
    (plain : ∀ x ∈ t.vars, (g x).isFunction = false) : (t.subst g).isNested = false := by
  cases t with
  | var x => exact isNested_of_plain (plain x (by simp))
  | const c => exact isNested_of_plain rfl
  | app f args =>
    simp only [vars_app, List.mem_flatMap] at plain
    rw [isNested_app] at flat
    rw [subst_app, isNested_app]
    refine List.forall_mem_map.mpr (fun arg member => isFunction_subst (flat arg member) (fun x inside => ?_))
    exact plain x ⟨arg, member, inside⟩

end Term

namespace Atom

theorem isFunctional_eq_true {a : Atom} : a.isFunctional = true ↔ ∃ t ∈ a.args, t.isFunction = true := by
  simp [isFunctional]

end Atom

namespace Tgd

theorem hasNested_eq_false {t : Tgd} :
    t.hasNested = false ↔ ∀ a, a ∈ t.body ∨ a ∈ t.head → a.hasNested = false := by
  simp only [hasNested, SortedSet.any, Bool.or_eq_false_iff, List.any_eq_false, SortedSet.mem_toList,
    Bool.not_eq_true, or_imp, forall_and]

/-- A guarded full rule with flat function terms, each of which mentions all variables. -/
structure Skolemized (t : Tgd) : Prop where
  full : t.isFull = true
  guarded : t.Guarded
  flat : t.hasNested = false
  deep : ∀ a, a ∈ t.body ∨ a ∈ t.head → ∀ s ∈ a.args, s.isFunction = true → ∀ x ∈ t.body.vars, x ∈ s.vars

structure Resolvable (t : Tgd) : Prop extends t.Skolemized where
  single : ∃ h, ∀ a, a ∈ t.head ↔ a = h

variable {t p rest : Tgd}

theorem Skolemized.vars_subset (shape : t.Skolemized) {a : Atom} (member : a ∈ t.body ∨ a ∈ t.head) {x : Variable}
    (inside : x ∈ a.vars) : x ∈ t.body.vars :=
  member.elim (fun here => AtomSet.mem_vars_of_mem here inside)
    (fun here => isFull_eq_true.mp shape.full x (AtomSet.mem_vars_of_mem here inside))

theorem Skolemized.of_head (shape : t.Skolemized) (body : p.body = t.body) (head : p.head ⊆ t.head) :
    p.Skolemized := by
  have within (a : Atom) (member : a ∈ p.body ∨ a ∈ p.head) : a ∈ t.body ∨ a ∈ t.head :=
    member.imp (fun inside => body ▸ inside) (head a)
  refine ⟨isFull_eq_true.mpr (fun x inside => ?_), shape.guarded.congr body,
    hasNested_eq_false.mpr (fun a member => hasNested_eq_false.mp shape.flat a (within a member)),
    fun a member => body ▸ shape.deep a (within a member)⟩
  obtain ⟨a, member, inside⟩ := AtomSet.mem_vars.mp inside
  exact body ▸ isFull_eq_true.mp shape.full x (AtomSet.mem_vars_of_mem (head a member) inside)

section Rename
variable {g : Variable → Variable}

theorem isFunction_rename (s : Term) : (s.subst (fun x => .var (g x))).isFunction = s.isFunction := by
  cases s <;> simp [Term.isFunction]

theorem isNested_rename (s : Term) : (s.subst (fun x => .var (g x))).isNested = s.isNested := by
  cases s with
  | var x => simp [Term.isNested]
  | const c => simp [Term.isNested]
  | app f args => simp [Term.isNested, Function.comp_def, isFunction_rename]

theorem hasNested_rename (a : Atom) : (a.subst (fun x => .var (g x))).hasNested = a.hasNested := by
  simp [Atom.hasNested, Function.comp_def, isNested_rename]

theorem Skolemized.rename (shape : t.Skolemized) : (t.subst (fun x => .var (g x))).Skolemized := by
  have source {a : Atom} (member : a ∈ (t.subst (fun x => .var (g x))).body ∨ a ∈ (t.subst (fun x => .var (g x))).head) :
      ∃ b, (b ∈ t.body ∨ b ∈ t.head) ∧ b.subst (fun x => .var (g x)) = a := by
    rcases member with member | member <;> obtain ⟨b, present, same⟩ := AtomSet.mem_subst.mp member
    · exact ⟨b, .inl present, same⟩
    · exact ⟨b, .inr present, same⟩
  refine ⟨isFull_subst shape.full, shape.guarded.subst _, hasNested_eq_false.mpr (fun a member => ?_),
    fun a member s inside function y mentioned => ?_⟩
  · obtain ⟨b, present, rfl⟩ := source member
    rw [hasNested_rename]
    exact hasNested_eq_false.mp shape.flat b present
  · obtain ⟨b, present, rfl⟩ := source member
    rw [Atom.args_subst, List.mem_map] at inside
    obtain ⟨r, inside, rfl⟩ := inside
    obtain ⟨x, mentioned, image⟩ := AtomSet.mem_vars_subst.mp mentioned
    exact Term.mem_vars_subst.mpr ⟨x, shape.deep b present r inside (isFunction_rename r ▸ function) x mentioned, image⟩

theorem Resolvable.rename (shape : t.Resolvable) : (t.subst (fun x => .var (g x))).Resolvable := by
  obtain ⟨h, alone⟩ := shape.single
  refine ⟨shape.toSkolemized.rename, h.subst (fun x => .var (g x)), fun a => ?_⟩
  simp only [head_subst, AtomSet.mem_subst, alone, exists_eq_left]
  exact eq_comm

end Rename

theorem Resolvable.canonical (shape : t.Resolvable) : t.canonical.Resolvable := shape.rename

theorem Resolvable.withoutTautology (shape : t.Resolvable) (left : t.withoutTautology = some rest) :
    rest.Resolvable := by
  obtain ⟨bodies, heads⟩ := withoutTautology_eq_some left
  obtain ⟨h, alone⟩ := shape.single
  refine ⟨shape.toSkolemized.of_head bodies (fun a member => ((heads a).mp member).1), h, fun a => ?_⟩
  rw [heads, alone]
  apply and_iff_left_of_imp
  intro same granted
  -- The one head atom is not granted by the body, or nothing would be left.
  have empty : t.head \ t.body = ∅ := by
    ext b
    simp only [SortedSet.mem_sdiff, alone, SortedSet.not_mem_empty, iff_false, not_and, not_not]
    exact fun other => other.trans same.symm ▸ granted
  have some : t.head.any (· ∈ t.body) = true :=
    List.any_eq_true.mpr ⟨a, SortedSet.mem_toList.mpr ((alone a).mpr same), by simpa using granted⟩
  simp only [Tgd.withoutTautology, some, if_true, empty] at left
  cases left

/-- A rule with one head atom loses all or nothing. -/
theorem Resolvable.trimmed_eq {discard : Bool} (shape : t.Resolvable) (left : t.trimmed discard = some rest) :
    rest = t := by
  cases discard with
  | false => simpa [trimmed, eq_comm] using left
  | true =>
    simp only [Tgd.trimmed, if_true, Option.map_eq_some_iff] at left
    obtain ⟨less, found, same⟩ := left
    obtain ⟨bodies, heads⟩ := withoutTautology_eq_some found
    obtain ⟨h, alone⟩ := shape.single
    obtain ⟨h', alone'⟩ := (shape.withoutTautology found).single
    have kept : h' = h := (alone h').mp ((heads h').mp ((alone' h').mpr rfl)).1
    have whole : less = t := by
      have : less.head = t.head := by
        ext a
        rw [alone, alone', kept]
      cases less; cases t
      simp_all
    subst whole
    simpa using same.symm

theorem Resolvable.trimmed {discard : Bool} (shape : t.Resolvable) (left : t.trimmed discard = some rest) :
    rest.Resolvable := by
  rw [shape.trimmed_eq left]
  exact shape

section Resolvent
open Unifier Substitution
variable {producer consumer : Tgd} {H S : Atom} {σ : Substitution}

/-- What resolution asks of the atoms it resolves on: the head of a rule whose function terms
are in its head only, and a body atom that has all variables, by a function term or as a guard
of a rule that has none. -/
structure Joinable (producer consumer : Tgd) (H S : Atom) : Prop where
  producing : producer.Resolvable
  consuming : consumer.Resolvable
  head : H ∈ producer.head
  inventive : H.isFunctional = true
  plain : ∀ a ∈ producer.body, a.isFunctional = false
  selected : S ∈ consumer.body
  eligible : S.isFunctional = true ∨
    consumer.isFunctionFree = true ∧ ∀ x ∈ consumer.body.vars, x ∈ S.vars

namespace Joinable

theorem covers (join : Joinable producer consumer H S) {x : Variable} (inside : x ∈ consumer.body.vars) :
    x ∈ S.vars := by
  rcases join.eligible with functional | ⟨-, guard⟩
  · obtain ⟨s, member, function⟩ := Atom.isFunctional_eq_true.mp functional
    exact Atom.mem_vars.mpr ⟨s, member, join.consuming.deep S (.inl join.selected) s member function x inside⟩
  · exact guard x inside

/-- Variables of the producer become no function terms: its head would hold them nested. -/
theorem image_producer (join : Joinable producer consumer H S) (found : mostGeneral ∅ H S = some σ)
    {x : Variable} (inside : x ∈ producer.body.vars) : (σ.image x).isFunction = false := by
  obtain ⟨s, member, function⟩ := Atom.isFunctional_eq_true.mp join.inventive
  have flat := Atom.hasNested_eq_false.mp (hasNested_eq_false.mp join.producing.flat H (.inr join.head)) s member
  refine Term.image_plain function flat ?_ (join.producing.deep H (.inr join.head) s member function x inside)
  refine Atom.hasNested_eq_false.mp (mostGeneral_hasNested found) _ ?_
  rw [Atom.args_subst]
  exact List.mem_map_of_mem member

theorem equal (found : mostGeneral ∅ H S = some σ) : H.subst σ.image = S.subst σ.image :=
  mostGeneral_unifies acyclic_empty found

theorem mem_vars_head (join : Joinable producer consumer H S) {y : Variable} :
    y ∈ (H.subst σ.image).vars ↔ ∃ x ∈ producer.body.vars, y ∈ (σ.image x).vars := by
  rw [Atom.mem_vars_subst]
  obtain ⟨s, member, function⟩ := Atom.isFunctional_eq_true.mp join.inventive
  constructor
  · rintro ⟨x, inside, image⟩
    exact ⟨x, isFull_eq_true.mp join.producing.full x (AtomSet.mem_vars_of_mem join.head inside), image⟩
  · rintro ⟨x, inside, image⟩
    exact ⟨x, Atom.mem_vars.mpr ⟨s, member,
      join.producing.deep H (.inr join.head) s member function x inside⟩, image⟩

/-- They are also those that the consumer's variables become. -/
theorem mem_vars_selected (join : Joinable producer consumer H S) (found : mostGeneral ∅ H S = some σ)
    {y : Variable} : y ∈ (H.subst σ.image).vars ↔ ∃ x ∈ consumer.body.vars, y ∈ (σ.image x).vars := by
  rw [equal found, Atom.mem_vars_subst]
  constructor
  · rintro ⟨x, inside, image⟩
    exact ⟨x, AtomSet.mem_vars_of_mem join.selected inside, image⟩
  · rintro ⟨x, inside, image⟩
    exact ⟨x, join.covers inside, image⟩

/-- Where a function term is selected, variables of the consumer become none: it would hold them nested. -/
theorem image_of_functional (join : Joinable producer consumer H S) (found : mostGeneral ∅ H S = some σ)
    (functional : S.isFunctional = true) {x : Variable} (inside : x ∈ consumer.body.vars) :
    (σ.image x).isFunction = false := by
  obtain ⟨s, member, function⟩ := Atom.isFunctional_eq_true.mp functional
  have flat := Atom.hasNested_eq_false.mp (hasNested_eq_false.mp join.consuming.flat S (.inl join.selected)) s member
  refine Term.image_plain function flat ?_ (join.consuming.deep S (.inl join.selected) s member function x inside)
  refine Atom.hasNested_eq_false.mp (equal found ▸ mostGeneral_hasNested found) _ ?_
  rw [Atom.args_subst]
  exact List.mem_map_of_mem member

/-- Where a variable of the consumer becomes a function term, this is a function term of the
producer's head. -/
theorem image_consumer (join : Joinable producer consumer H S) (found : mostGeneral ∅ H S = some σ)
    {x : Variable} (inside : x ∈ consumer.body.vars) (function : (σ.image x).isFunction = true) {y : Variable}
    (mentioned : y ∈ (H.subst σ.image).vars) : y ∈ (σ.image x).vars := by
  rcases join.eligible with functional | ⟨free, guard⟩
  · simp [join.image_of_functional found functional inside] at function
  · -- The guard has the variable as an argument, and the head has a term in its place.
    have argument : .var x ∈ S.args :=
      (Atom.var_mem_args ((isFunctionFree_eq_true.mp free).1 S join.selected)).mpr (guard x inside)
    have member : σ.image x ∈ (H.subst σ.image).args := by
      rw [equal found, Atom.args_subst]
      simpa using List.mem_map_of_mem (f := Term.subst σ.image) argument
    rw [Atom.args_subst, List.mem_map] at member
    obtain ⟨s, member, same⟩ := member
    cases kind : s.isFunction with
    | true =>
      obtain ⟨z, inside, image⟩ := join.mem_vars_head.mp mentioned
      rw [← same]
      exact Term.mem_vars_subst.mpr ⟨z, join.producing.deep H (.inr join.head) s member kind z inside, image⟩
    | false =>
      have plain : (s.subst σ.image).isFunction = false := by
        apply Term.isFunction_subst kind
        intro z inside
        apply join.image_producer found
        exact isFull_eq_true.mp join.producing.full z
          (AtomSet.mem_vars_of_mem join.head (Atom.mem_vars.mpr ⟨s, member, inside⟩))
      simp [same, function] at plain

/-- The resolvent's variables are those of the unified atom. -/
theorem mem_vars_body (join : Joinable producer consumer H S) (found : mostGeneral ∅ H S = some σ) {y : Variable}
    (inside : y ∈ ((producer.body ∪ consumer.body.erase S).subst σ.image).vars) : y ∈ (H.subst σ.image).vars := by
  obtain ⟨x, inside, image⟩ := AtomSet.mem_vars_subst.mp inside
  obtain ⟨a, member, inside⟩ := AtomSet.mem_vars.mp inside
  rcases SortedSet.mem_union.mp member with old | rest
  · exact join.mem_vars_head.mpr ⟨x, AtomSet.mem_vars_of_mem old inside, image⟩
  · exact (join.mem_vars_selected found).mpr
      ⟨x, AtomSet.mem_vars_of_mem (SortedSet.mem_erase.mp rest).1 inside, image⟩

/-- A function term of the consumer was one before, or a variable became one. -/
theorem deep_consumer (join : Joinable producer consumer H S) (found : mostGeneral ∅ H S = some σ) {a : Atom}
    (member : a ∈ consumer.body ∨ a ∈ consumer.head) {s : Term} (inside : s ∈ (a.subst σ.image).args)
    (function : s.isFunction = true) {y : Variable} (mentioned : y ∈ (H.subst σ.image).vars) : y ∈ s.vars := by
  rw [Atom.args_subst, List.mem_map] at inside
  obtain ⟨r, inside, rfl⟩ := inside
  cases kind : r.isFunction with
  | true =>
    obtain ⟨x, universal, image⟩ := (join.mem_vars_selected found).mp mentioned
    exact Term.mem_vars_subst.mpr ⟨x, join.consuming.deep a member r inside kind x universal, image⟩
  | false =>
    rcases Term.plain_cases kind with ⟨x, rfl⟩ | ⟨c, rfl⟩
    · rw [Term.subst_var] at function ⊢
      have mentions : x ∈ a.vars := Atom.mem_vars.mpr ⟨_, inside, List.mem_singleton_self x⟩
      exact join.image_consumer found (join.consuming.vars_subset member mentions) function mentioned
    · simp [Term.isFunction] at function

theorem plain_producer (join : Joinable producer consumer H S) (found : mostGeneral ∅ H S = some σ) {a : Atom}
    (member : a ∈ producer.body) : (a.subst σ.image).isFunctional = false :=
  Atom.isFunctional_subst (join.plain a member)
    (fun _ inside => join.image_producer found (AtomSet.mem_vars_of_mem member inside))

/-- No function terms are nested. Those of the consumer stay flat, since its variables become none if it has any, and the
bindings of the unifier are flat themselves. -/
theorem flat_consumer (join : Joinable producer consumer H S) (found : mostGeneral ∅ H S = some σ) {a : Atom}
    (member : a ∈ consumer.body ∨ a ∈ consumer.head) : (a.subst σ.image).hasNested = false := by
  apply Atom.hasNested_eq_false.mpr
  intro s inside
  rw [Atom.args_subst, List.mem_map] at inside
  obtain ⟨r, inside, rfl⟩ := inside
  cases kind : r.isFunction with
  | false =>
    rcases Term.plain_cases kind with ⟨x, rfl⟩ | ⟨c, rfl⟩
    · rw [Term.subst_var]
      exact mostGeneral_image found x
    · simp [Term.isNested]
  | true =>
    have functional : S.isFunctional = true := by
      refine join.eligible.resolve_right (fun alternative => ?_)
      have free := isFunctionFree_eq_true.mp alternative.1
      have plain := Atom.isFunctional_eq_false.mp (member.elim (free.1 a) (free.2 a)) r inside
      simp [kind] at plain
    have flat := Atom.hasNested_eq_false.mp (hasNested_eq_false.mp join.consuming.flat a member) r inside
    refine Term.isNested_subst flat (fun x mentioned => join.image_of_functional found functional ?_)
    exact join.consuming.vars_subset member (Atom.mem_vars.mpr ⟨r, inside, mentioned⟩)

theorem flat (join : Joinable producer consumer H S) (found : mostGeneral ∅ H S = some σ) :
    (σ.applyTgd ⟨producer.body ∪ consumer.body.erase S, consumer.head⟩).hasNested = false := by
  refine hasNested_eq_false.mpr (fun a member => ?_)
  rcases member with member | member <;> obtain ⟨b, present, rfl⟩ := AtomSet.mem_subst.mp member
  · rcases SortedSet.mem_union.mp present with old | rest
    · exact Atom.hasNested_of_plain (join.plain_producer found old)
    · exact join.flat_consumer found (.inl (SortedSet.mem_erase.mp rest).1)
  · exact join.flat_consumer found (.inr present)

theorem resolvable (join : Joinable producer consumer H S) (found : mostGeneral ∅ H S = some σ) :
    (σ.applyTgd ⟨producer.body ∪ consumer.body.erase S, consumer.head⟩).Resolvable := by
  obtain ⟨g, guard, covers⟩ := join.producing.guarded
  obtain ⟨h, alone⟩ := join.consuming.single
  refine ⟨⟨isFull_eq_true.mpr (fun y inside => ?_), ⟨g.subst σ.image, ?_, fun y inside => ?_⟩, join.flat found, ?_⟩,
    h.subst σ.image, fun a => ?_⟩
  · obtain ⟨x, inside, image⟩ := AtomSet.mem_vars_subst.mp inside
    obtain ⟨z, universal, image⟩ := join.mem_vars_head.mp ((join.mem_vars_selected found).mpr
      ⟨x, isFull_eq_true.mp join.consuming.full x inside, image⟩)
    obtain ⟨a, member, inside⟩ := AtomSet.mem_vars.mp universal
    exact AtomSet.mem_vars_subst.mpr
      ⟨z, AtomSet.mem_vars_of_mem (SortedSet.mem_union.mpr (.inl member)) inside, image⟩
  · exact AtomSet.mem_subst.mpr ⟨g, SortedSet.mem_union.mpr (.inl guard), rfl⟩
  · obtain ⟨x, universal, image⟩ := join.mem_vars_head.mp (join.mem_vars_body found inside)
    exact Atom.mem_vars_subst.mpr ⟨x, covers x universal, image⟩
  · intro a member s inside function y mentioned
    have mentioned := join.mem_vars_body found mentioned
    rcases member with member | member <;> obtain ⟨b, present, rfl⟩ := AtomSet.mem_subst.mp member
    · rcases SortedSet.mem_union.mp present with old | rest
      · rw [Atom.isFunctional_eq_false.mp (join.plain_producer found old) s inside] at function
        cases function
      · exact join.deep_consumer found (.inl (SortedSet.mem_erase.mp rest).1) inside function mentioned
    · exact join.deep_consumer found (.inr present) inside function mentioned
  · rw [show (σ.applyTgd ⟨producer.body ∪ consumer.body.erase S, consumer.head⟩).head =
      consumer.head.subst σ.image from rfl, AtomSet.mem_subst]
    simp only [alone, exists_eq_left]
    exact eq_comm

end Joinable
end Resolvent

end Tgd
end GuardedSaturation
