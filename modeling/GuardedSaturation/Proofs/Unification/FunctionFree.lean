import Mathlib
import GuardedSaturation.Proofs.Unification.Bindings

/-! Unification without function terms. It succeeds as soon as some assignment gives both
atoms the same values, provided that different constants have different values; the answer is
solved by that assignment. Of two variables the one on the left is bound, so that the
variables of the right atom are never bound to others. -/
namespace GuardedSaturation

namespace Term

theorem size_pos (t : Term) : 0 < t.size := by
  cases t <;> simp [size]

theorem isNested_of_plain {t : Term} (plain : t.isFunction = false) : t.isNested = false := by
  cases t <;> simp_all [isNested, isFunction]

theorem exists_app {t : Term} (function : t.isFunction = true) : ∃ f args, t = .app f args := by
  cases t with
  | app f args => exact ⟨f, args, rfl⟩
  | var x => simp [isFunction] at function
  | const c => simp [isFunction] at function

theorem isNested_app {f : String} {args : List Term} :
    (app f args).isNested = false ↔ ∀ t ∈ args, t.isFunction = false := by
  simp [isNested]

end Term

namespace Atom

theorem hasNested_eq_false {a : Atom} : a.hasNested = false ↔ ∀ t ∈ a.args, t.isNested = false := by
  simp [hasNested]

theorem hasNested_of_plain {a : Atom} (plain : a.isFunctional = false) : a.hasNested = false :=
  hasNested_eq_false.mpr (fun t member => Term.isNested_of_plain (isFunctional_eq_false.mp plain t member))

end Atom

namespace Substitution
variable {σ σ' : Substitution}

/-- No variable is bound to a function term. -/
abbrev Plain (σ : Substitution) : Prop := σ.Every (fun t => t.isFunction = false)

/-- Variables of a set are bound to terms over the set. -/
def Keeps (W : Variable → Prop) (σ : Substitution) : Prop :=
  ∀ x t, σ.get? x = some t → W x → ∀ y ∈ t.vars, W y

theorem keeps_empty (W : Variable → Prop) : Keeps W ∅ := fun x t bound => by simp at bound

theorem Keeps.bind {W : Variable → Prop} (keeps : Keeps W σ) {x : Variable} {t : Term}
    (image : W x → ∀ y ∈ t.vars, W y) : Keeps W (σ.bind x t) := by
  intro y s bound
  rw [get?_bind] at bound
  split at bound
  · next same =>
    cases bound
    exact same ▸ image
  · exact keeps y s bound

theorem Chain.keeps {W : Variable → Prop} (keeps : Keeps W σ) {path : List Variable} {t stop : Term}
    (chain : Chain σ path t stop) (start : ∀ y ∈ t.vars, W y) : ∀ y ∈ stop.vars, W y := by
  induction chain with
  | stop t => exact start
  | move bound rest ih => exact ih (keeps _ _ bound (start _ (by simp)))

theorem Chain.keeps_path {W : Variable → Prop} (keeps : Keeps W σ) {path : List Variable} {t stop : Term}
    (chain : Chain σ path t stop) {x : Variable} (member : x ∈ path) (start : W x) :
    ∀ y ∈ stop.vars, W y := by
  induction chain with
  | stop t => simp at member
  | move bound rest ih =>
    rcases List.mem_cons.mp member with rfl | member
    · exact rest.keeps keeps (keeps _ _ bound start)
    · exact ih member

theorem find_keeps {W : Variable → Prop} (keeps : Keeps W σ) {t r : Term}
    (found : σ.find t = (r, σ')) : Keeps W σ' ∧ ((∀ y ∈ t.vars, W y) → ∀ y ∈ r.vars, W y) := by
  obtain ⟨path, chain, bindings⟩ := find_spec found
  refine ⟨fun x s bound => ?_, chain.keeps keeps⟩
  rw [bindings] at bound
  split at bound
  · next member =>
    cases bound
    exact chain.keeps_path keeps member
  · exact keeps x s bound

theorem normalized_plain (acyclic : Acyclic σ) (plain : Plain σ) : Plain σ.normalized :=
  normalized_every (final_every acyclic plain (fun _ => rfl) (fun _ plain images => Term.isFunction_subst plain images))

theorem normalized_keeps {W : Variable → Prop} (acyclic : Acyclic σ) (keeps : Keeps W σ) :
    Keeps W σ.normalized := by
  have images (x : Variable) : W x → ∀ y ∈ (σ.final x).vars, W y := by
    refine acyclic.induction (P := fun x => W x → ∀ y ∈ (σ.final x).vars, W y) ?_ ?_ x
    · intro x unbound start y inside
      rw [final_unbound unbound, Term.vars_var, List.mem_singleton] at inside
      rwa [inside]
    · intro x t bound ih start y inside
      rw [final_bound acyclic bound, Term.mem_vars_subst] at inside
      obtain ⟨z, inside, image⟩ := inside
      exact ih z inside (keeps x t bound start z inside) y image
  intro x t bound
  rw [get?_normalized] at bound
  obtain ⟨s, -, image⟩ := Option.bind_eq_some_iff.mp bound
  split at image
  · simp at image
  · cases image
    exact images x

theorem Plain.image (plain : Plain σ) (x : Variable) : (σ.image x).isFunction = false := Every.image plain (fun _ => rfl) x

theorem Plain.applyAtom (plain : Plain σ) {a : Atom} (flat : a.isFunctional = false) :
    (σ.applyAtom a).isFunctional = false :=
  Atom.isFunctional_subst flat (fun x _ => plain.image x)

end Substitution

namespace Unifier
open Substitution

universe u
variable {M : Interpretation.{u}} {σ σ' : Substitution}

/-- Two terms that have equal values under a solution are unified if their representatives are no function terms. -/
theorem exists_of_finds (distinct : Function.Injective M.const) (depth : Nat) (acyclic : Acyclic σ) {s t s' t' : Term}
    {τ ρ : Substitution} (foundS : σ.find s = (s', τ)) (foundT : τ.find t = (t', ρ)) (left : s'.isFunction = false)
    (right : t'.isFunction = false) {v : M.Assignment} (solves : Solves M v σ) (equal : M.value v s = M.value v t) :
    ∃ σ', unifyTo (depth + 1) σ s t = .ok σ' ∧ Solves M v σ' := by
  have valueS := find_value solves foundS
  have solves := (find_solves foundS).mpr solves
  have valueT := find_value solves foundT
  have solves := (find_solves foundT).mpr solves
  have equal : M.value v s' = M.value v t' := by rw [valueS, valueT, equal]
  have meeting := meet_cases acyclic foundS foundT
  rw [unifyTo_succ]
  generalize meet σ s t = result at meeting
  cases meeting with
  | same => exact ⟨ρ, rfl, solves⟩
  | bind unbound => exact ⟨_, rfl, (Solves.bind unbound).mpr ⟨solves, by simpa using equal⟩⟩
  | constLeft unbound => exact ⟨_, rfl, (Solves.bind unbound).mpr ⟨solves, by simpa using equal.symm⟩⟩
  | clash clash =>
    cases clash with
    | constants different => exact absurd (distinct (by simpa using equal)) different
    | left => cases right
    | symbols | right => cases left
  | function => cases right
  | args | functionLeft => cases left

/-- Terms without function symbols have such representatives. -/
theorem finds_plain (plain : Plain σ) {s t : Term} (left : s.isFunction = false) (right : t.isFunction = false) :
    ∃ s' τ t' ρ, σ.find s = (s', τ) ∧ τ.find t = (t', ρ) ∧ s'.isFunction = false ∧ t'.isFunction = false ∧ Plain ρ := by
  obtain ⟨s', τ, foundS⟩ : ∃ s' τ, σ.find s = (s', τ) := ⟨_, _, rfl⟩
  obtain ⟨t', ρ, foundT⟩ : ∃ t' ρ, τ.find t = (t', ρ) := ⟨_, _, rfl⟩
  obtain ⟨left, plain⟩ := find_every plain left foundS
  obtain ⟨right, plain⟩ := find_every plain right foundT
  exact ⟨s', τ, t', ρ, foundS, foundT, left, right, plain⟩

/-- Substitutions that unification without function terms goes through. -/
structure Flat (W : Variable → Prop) (σ : Substitution) : Prop where
  acyclic : Acyclic σ
  plain : Plain σ
  keeps : Keeps W σ

theorem unifyTo_flat {W : Variable → Prop} (depth : Nat) (flat : Flat W σ) {s t : Term}
    (left : s.isFunction = false) (right : t.isFunction = false) (within : ∀ y ∈ t.vars, W y)
    (ok : unifyTo depth σ s t = .ok σ') : Flat W σ' := by
  have acyclic := (unifyTo_step.{0} depth flat.acyclic ok).acyclic
  cases depth with
  | zero => simp [unifyTo] at ok
  | succ depth =>
    obtain ⟨s', τ, t', ρ, foundS, foundT, left, right, plain⟩ := finds_plain flat.plain left right
    obtain ⟨keeps, -⟩ := find_keeps flat.keeps foundS
    obtain ⟨keeps, within'⟩ := find_keeps keeps foundT
    have meeting := meet_cases flat.acyclic foundS foundT
    rw [unifyTo_succ] at ok
    generalize meet σ s t = result at meeting ok
    cases meeting with
    | same =>
      cases ok
      exact ⟨acyclic, plain, keeps⟩
    | bind =>
      cases ok
      exact ⟨acyclic, plain.bind right, keeps.bind (fun _ => within' within)⟩
    | constLeft =>
      cases ok
      exact ⟨acyclic, plain.bind rfl, keeps.bind (by simp)⟩
    | clash => cases ok
    | function => cases right
    | args | functionLeft => cases left

theorem unifyTo_exists {W : Variable → Prop} (distinct : Function.Injective M.const) (depth : Nat)
    (flat : Flat W σ) {s t : Term} (left : s.isFunction = false) (right : t.isFunction = false)
    {v : M.Assignment} (solves : Solves M v σ) (equal : M.value v s = M.value v t) :
    ∃ σ', unifyTo (depth + 1) σ s t = .ok σ' ∧ Solves M v σ' := by
  obtain ⟨s', τ, t', ρ, foundS, foundT, left, right, -⟩ := finds_plain flat.plain left right
  exact exists_of_finds distinct depth flat.acyclic foundS foundT left right solves equal

theorem unifyAll_flat {W : Variable → Prop} {ss ts : List Term} (flat : Flat W σ)
    (left : ∀ s ∈ ss, s.isFunction = false) (right : ∀ t ∈ ts, t.isFunction = false)
    (within : ∀ t ∈ ts, ∀ y ∈ t.vars, W y) (ok : unifyAll σ ss ts = .ok σ') : Flat W σ' := by
  refine foldlM_invariant (I := fun _ => Flat W) (fun _ τ p τ' member flat ok => ?_) flat ok
  obtain ⟨inside, inside'⟩ := List.of_mem_zip member
  exact unifyTo_flat _ flat (left _ inside) (right _ inside') (within _ inside') ok

theorem unify_eq (σ : Substitution) (s t : Term) : ∃ depth, unify σ s t = unifyTo (depth + 2) σ s t := by
  have enough : 2 ≤ (weight σ + s.size + t.size + 1) * (weight σ + s.size + t.size + 1) := by
    have := s.size_pos
    calc 2 ≤ weight σ + s.size + t.size + 1 := by omega
      _ ≤ _ := Nat.le_mul_self _
  obtain ⟨depth, same⟩ := Nat.exists_eq_add_of_le' enough
  exact ⟨depth, by rw [unify, same]⟩

theorem unifyAll_exists {W : Variable → Prop} (distinct : Function.Injective M.const) {ss ts : List Term}
    (flat : Flat W σ) (left : ∀ s ∈ ss, s.isFunction = false) (right : ∀ t ∈ ts, t.isFunction = false)
    (within : ∀ t ∈ ts, ∀ y ∈ t.vars, W y) {v : M.Assignment} (solves : Solves M v σ)
    (equal : M.values v ss = M.values v ts) : ∃ σ', unifyAll σ ss ts = .ok σ' ∧ Solves M v σ' := by
  have lengths : ss.length = ts.length := by
    simpa [Interpretation.values_eq_map] using congrArg List.length equal
  have each (τ : Substitution) (p : Term × Term) (member : p ∈ ss.zip ts) (good : Flat W τ ∧ Solves M v τ) :
      ∃ τ', unify τ p.1 p.2 = .ok τ' ∧ Flat W τ' ∧ Solves M v τ' := by
    obtain ⟨inside, inside'⟩ := List.of_mem_zip member
    obtain ⟨depth, unfolded⟩ := unify_eq τ p.1 p.2
    obtain ⟨τ', ok, solves⟩ := unifyTo_exists distinct (depth + 1) good.1 (left _ inside) (right _ inside') good.2
      ((values_eq_iff_zip lengths).mp equal p member)
    exact ⟨τ', unfolded.trans ok, unifyTo_flat _ good.1 (left _ inside) (right _ inside') (within _ inside') ok, solves⟩
  obtain ⟨σ', ok, -, solves⟩ := foldlM_exists each ⟨flat, solves⟩
  exact ⟨σ', ok, solves⟩

section MostGeneral
variable {seed : Substitution} {a b : Atom} {W : Variable → Prop}

theorem mostGeneral_flat (flat : Flat W seed) (left : a.isFunctional = false) (right : b.isFunctional = false)
    (within : ∀ y ∈ b.vars, W y) (found : mostGeneral seed a b = some σ) : Flat W σ := by
  obtain ⟨-, τ, ok, rfl, -⟩ := mostGeneral_eq_some.mp found
  have flat := unifyAll_flat flat (Atom.isFunctional_eq_false.mp left) (Atom.isFunctional_eq_false.mp right)
    (fun t member y inside => within y (Atom.mem_vars.mpr ⟨t, member, inside⟩)) ok
  exact ⟨(normalized_normal flat.acyclic).acyclic, normalized_plain flat.acyclic flat.plain,
    normalized_keeps flat.acyclic flat.keeps⟩

/-- Atoms that some assignment cannot tell apart have a unifier that the assignment solves. -/
theorem mostGeneral_exists (distinct : Function.Injective M.const) (flat : Flat W seed)
    (left : a.isFunctional = false) (right : b.isFunctional = false) (within : ∀ y ∈ b.vars, W y)
    {v : M.Assignment} (solves : Solves M v seed) (equal : M.fact v a = M.fact v b) :
    ∃ σ, mostGeneral seed a b = some σ ∧ Solves M v σ := by
  obtain ⟨predicates, equal⟩ := Interpretation.fact_eq_iff.mp equal
  have leftArgs := Atom.isFunctional_eq_false.mp left
  have rightArgs := Atom.isFunctional_eq_false.mp right
  have within (t : Term) (member : t ∈ b.args) (y : Variable) (inside : y ∈ t.vars) : W y :=
    within y (Atom.mem_vars.mpr ⟨t, member, inside⟩)
  obtain ⟨τ, ok, solves⟩ := unifyAll_exists distinct flat leftArgs rightArgs within solves equal
  have flat := unifyAll_flat flat leftArgs rightArgs within ok
  have plain := normalized_plain flat.acyclic flat.plain
  refine ⟨τ.normalized, mostGeneral_eq_some.mpr ⟨?_, τ, ok, rfl, ?_, ?_, ?_⟩, ?_⟩
  · have lengths := congrArg List.length equal
    simp only [Interpretation.values_eq_map, List.length_map] at lengths
    simp [Atom.symbol, predicates, lengths]
  · intro e member
    exact Term.isNested_of_plain (plain e.1 e.2 (SortedMap.get?_eq_some_iff.mpr member))
  · exact Atom.hasNested_of_plain (plain.applyAtom left)
  · exact Atom.hasNested_of_plain (plain.applyAtom right)
  · exact (solves_normalized flat.acyclic).mpr solves

end MostGeneral
end Unifier
end GuardedSaturation
