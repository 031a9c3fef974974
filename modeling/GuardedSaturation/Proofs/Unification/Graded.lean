import Mathlib
import GuardedSaturation.Proofs.Unification.FunctionFree

/-! Unification of terms in two layers. Under a replacement of all variables, the function terms become outer terms, and
nothing else does that stands below them. So no function term comes to stand below another, and two atoms that
the replacement makes equal have a unifier. -/
namespace GuardedSaturation
open Interpretation (value_free)

variable {w : Variable → Term} {outer : Term → Prop}

namespace Term

/-- A function term becomes outer, and its arguments, which are no function terms, do not. -/
def Graded (w : Variable → Term) (outer : Term → Prop) : Term → Prop
  | .app f args => outer ((app f args).subst w) ∧ ∀ t ∈ args, t.isFunction = false ∧ ¬ outer (t.subst w)
  | _ => True

variable {t : Term}

theorem graded_of_plain (plain : t.isFunction = false) : t.Graded w outer := by
  obtain ⟨x, rfl⟩ | ⟨c, rfl⟩ := plain_cases plain <;> trivial

theorem Graded.passes (f : String) (args : List Term) (graded : (app f args).Graded w outer) :
    ∀ t ∈ args, t.Graded w outer := fun t member => graded_of_plain (graded.2 t member).1

theorem Graded.flat (graded : t.Graded w outer) : t.isNested = false := by
  cases t with
  | app f args => exact isNested_app.mpr (fun t member => (graded.2 t member).1)
  | var x => rfl
  | const c => rfl

theorem Graded.plain (graded : t.Graded w outer) (low : ¬ outer (t.subst w)) : t.isFunction = false := by
  cases t with
  | app f args => exact absurd graded.1 low
  | var x => rfl
  | const c => rfl

theorem Graded.subst {g : Variable → Term} (graded : t.Graded w outer) (images : ∀ x ∈ t.vars, (g x).Graded w outer)
    (same : ∀ x, (g x).subst w = w x) : (t.subst g).Graded w outer := by
  have values (s : Term) : (s.subst g).subst w = s.subst w := by
    rw [subst_subst]
    exact subst_congr (fun x _ => same x)
  cases t with
  | var x => simpa using images x (by simp)
  | const c =>
    rw [subst_const]
    trivial
  | app f args =>
    rw [subst_app]
    refine ⟨?_, fun s member => ?_⟩
    · rw [← subst_app, values]
      exact graded.1
    · obtain ⟨r, inside, rfl⟩ := List.mem_map.mp member
      obtain ⟨plain, low⟩ := graded.2 r inside
      rw [values]
      obtain ⟨x, rfl⟩ | ⟨c, rfl⟩ := plain_cases plain
      · have mentioned : x ∈ (app f args).vars := by simpa using ⟨_, inside, List.mem_singleton_self x⟩
        refine ⟨?_, low⟩
        rw [subst_var] at low ⊢
        exact (images x mentioned).plain (same x ▸ low)
      · exact ⟨rfl, low⟩

end Term

theorem Atom.hasNested_subst_graded {a : Atom} {g : Variable → Term} (graded : ∀ t ∈ a.args, t.Graded w outer)
    (images : ∀ x, (g x).Graded w outer) (same : ∀ x, (g x).subst w = w x) : (a.subst g).hasNested = false := by
  apply hasNested_eq_false.mpr
  intro s member
  rw [args_subst, List.mem_map] at member
  obtain ⟨t, inside, rfl⟩ := member
  exact ((graded t inside).subst (fun x _ => images x) same).flat

namespace Unifier
open Substitution
variable {σ σ' : Substitution}

theorem subst_eq_of_zip {ss ts : List Term} (images : ss.map (Term.subst w) = ts.map (Term.subst w)) {p : Term × Term}
    (member : p ∈ ss.zip ts) : p.1.subst w = p.2.subst w := by
  have lengths : ss.length = ts.length := by simpa using congrArg List.length images
  exact (map_eq_map_iff_zip lengths).mp images p member

/-- The replacement solves the substitution, whose terms it keeps in their layers. -/
structure Layered (w : Variable → Term) (outer : Term → Prop) (σ : Substitution) : Prop where
  acyclic : Acyclic σ
  solves : Solves .free w σ
  graded : σ.Every (Term.Graded w outer)

namespace Layered

theorem find (layered : Layered w outer σ) {t r : Term} (graded : t.Graded w outer) (found : σ.find t = (r, σ')) :
    Layered w outer σ' ∧ r.Graded w outer ∧ r.subst w = t.subst w := by
  have ⟨stop, every⟩ := find_every layered.graded graded found
  have value := find_value layered.solves found
  rw [value_free, value_free] at value
  exact ⟨⟨acyclic_find found layered.acyclic, (find_solves found).mpr layered.solves, every⟩, stop, value⟩

theorem after (layered : Layered w outer σ) (depth : Nat) {s t : Term} (left : s.Graded w outer) (right : t.Graded w outer)
    (ok : unifyTo depth σ s t = .ok σ') (solves : Solves .free w σ') : Layered w outer σ' := by
  have graded := (kept_every Term.Graded.passes).unifyTo depth layered.acyclic layered.graded left right
  rw [ok] at graded
  exact ⟨(unifyTo_step.{0} depth layered.acyclic ok).acyclic, solves, graded⟩

theorem const_injective : Function.Injective Interpretation.free.const := fun _ _ same => Term.const.inj same

/-- Terms below function terms have no function terms as representatives. -/
theorem unifyTo_low (layered : Layered w outer σ) (depth : Nat) {s t : Term} (left : s.isFunction = false)
    (right : t.isFunction = false) (low : ¬ outer (s.subst w)) (same : s.subst w = t.subst w) :
    ∃ σ', unifyTo (depth + 1) σ s t = .ok σ' ∧ Layered w outer σ' := by
  obtain ⟨s', τ, foundS⟩ : ∃ s' τ, σ.find s = (s', τ) := ⟨_, _, rfl⟩
  obtain ⟨t', ρ, foundT⟩ : ∃ t' ρ, τ.find t = (t', ρ) := ⟨_, _, rfl⟩
  have left : s.Graded w outer := Term.graded_of_plain left
  have right : t.Graded w outer := Term.graded_of_plain right
  obtain ⟨first, stop, value⟩ := layered.find left foundS
  obtain ⟨-, stop', value'⟩ := first.find right foundT
  obtain ⟨σ', ok, solves⟩ := exists_of_finds const_injective depth layered.acyclic foundS foundT
    (stop.plain (value ▸ low)) (stop'.plain (value' ▸ same ▸ low)) layered.solves (by rwa [value_free, value_free])
  exact ⟨σ', ok, layered.after _ left right ok solves⟩

theorem bindFunction_exists (layered : Layered w outer σ) {x : Variable} {f : String} {args : List Term}
    (unbound : σ.get? x = none) (graded : (Term.app f args).Graded w outer) (same : w x = (Term.app f args).subst w) :
    ∃ σ', bindFunction σ x f args = .ok σ' ∧ Solves .free w σ' := by
  have flattens (σ : Substitution) (t : Term) (member : t ∈ args) (layered : Layered w outer σ) :
      ∃ σ', flatten x σ t = .ok σ' ∧ Layered w outer σ' := by
    obtain ⟨r, τ, found⟩ : ∃ r τ, σ.find t = (r, τ) := ⟨_, _, rfl⟩
    obtain ⟨plain, low⟩ := graded.2 t member
    obtain ⟨layered, stop, value⟩ := layered.find (Term.graded_of_plain plain) found
    have different : r ≠ .var x := by
      rintro rfl
      rw [Term.subst_var, same] at value
      exact low (value ▸ graded.1)
    refine ⟨τ, ?_, layered⟩
    obtain ⟨y, rfl⟩ | ⟨c, rfl⟩ := Term.plain_cases (stop.plain (value ▸ low))
    · simpa [flatten, found] using different
    · simp [flatten, found]
  obtain ⟨τ, flattened, layered'⟩ := foldlM_exists flattens layered
  have unbound := (flattened_of_ok.{0} layered.acyclic unbound flattened).unbound
  rw [bindFunction_eq]
  refine ⟨_, bind_ok.mpr ⟨τ, flattened, rfl⟩, (Solves.bind unbound).mpr ⟨layered'.solves, ?_⟩⟩
  rw [value_free]
  exact same

theorem unifyTo_exists (layered : Layered w outer σ) (depth : Nat) {s t : Term} (left : s.Graded w outer)
    (right : t.Graded w outer) (same : s.subst w = t.subst w) :
    ∃ σ', unifyTo (depth + 2) σ s t = .ok σ' ∧ Layered w outer σ' := by
  suffices ∃ σ', unifyTo (depth + 2) σ s t = .ok σ' ∧ Solves .free w σ' by
    obtain ⟨σ', ok, solves⟩ := this
    exact ⟨σ', ok, layered.after _ left right ok solves⟩
  obtain ⟨s', τ, foundS⟩ : ∃ s' τ, σ.find s = (s', τ) := ⟨_, _, rfl⟩
  obtain ⟨t', ρ, foundT⟩ : ∃ t' ρ, τ.find t = (t', ρ) := ⟨_, _, rfl⟩
  obtain ⟨first, stop, value⟩ := layered.find left foundS
  obtain ⟨second, stop', value'⟩ := first.find right foundT
  have equal : s'.subst w = t'.subst w := by rw [value, value', same]
  have meeting := meet_cases layered.acyclic foundS foundT
  rw [unifyTo_succ]
  generalize meet σ s t = result at meeting
  -- A variable can take a function term, as it does not stand in its arguments: those are not outer. Two function terms
  -- are made equal by their arguments, to which the lemma on low terms applies.
  cases meeting with
  | same => exact ⟨ρ, rfl, second.solves⟩
  | function unbound => exact second.bindFunction_exists unbound stop' (by simpa using equal)
  | functionLeft unbound => exact second.bindFunction_exists unbound stop (by simpa using equal.symm)
  | bind unbound =>
    refine ⟨_, rfl, (Solves.bind unbound).mpr ⟨second.solves, ?_⟩⟩
    rw [value_free]
    simpa using equal
  | constLeft unbound =>
    refine ⟨_, rfl, (Solves.bind unbound).mpr ⟨second.solves, ?_⟩⟩
    rw [value_free]
    simpa using equal.symm
  | clash clash => exact absurd equal (clash.subst_ne w)
  | @args f ss ts lengths =>
    simp only [Term.subst_app, Term.app.injEq, true_and] at equal
    have pairs (σ : Substitution) (p : Term × Term) (member : p ∈ ss.zip ts) (layered : Layered w outer σ) :
        ∃ σ', unifyTo (depth + 1) σ p.1 p.2 = .ok σ' ∧ Layered w outer σ' := by
      obtain ⟨inside, inside'⟩ := List.of_mem_zip member
      obtain ⟨plain, low⟩ := stop.2 _ inside
      exact layered.unifyTo_low depth plain (stop'.2 _ inside').1 low (subst_eq_of_zip equal member)
    obtain ⟨σ', ok, layered⟩ := foldlM_exists pairs second
    exact ⟨σ', ok, layered.solves⟩

end Layered

/-- Atoms of graded terms that a replacement makes equal have a unifier that it solves, whatever they have started from in
their layers. -/
theorem mostGeneral_layered {seed : Substitution} {a b : Atom} (start : Layered w outer seed) (left : ∀ t ∈ a.args, t.Graded w outer) (right : ∀ t ∈ b.args, t.Graded w outer)
    (same : a.subst w = b.subst w) :
    ∃ σ, mostGeneral seed a b = some σ ∧ Solves .free w σ := by
  obtain ⟨predicates, images⟩ := Atom.eq_iff.mp same
  rw [Atom.args_subst, Atom.args_subst] at images
  have lengths : a.args.length = b.args.length := by simpa using congrArg List.length images
  have pairs (σ : Substitution) (p : Term × Term) (member : p ∈ a.args.zip b.args) (layered : Layered w outer σ) :
      ∃ σ', unify σ p.1 p.2 = .ok σ' ∧ Layered w outer σ' := by
    obtain ⟨inside, inside'⟩ := List.of_mem_zip member
    obtain ⟨depth, unfolded⟩ := unify_eq σ p.1 p.2
    rw [unfolded]
    exact layered.unifyTo_exists depth (left _ inside) (right _ inside') (subst_eq_of_zip images member)
  obtain ⟨τ, ok, layered⟩ := foldlM_exists pairs start
  have values (x : Variable) : (τ.final x).subst w = w x := by
    rw [← value_free]
    exact layered.solves.value_final layered.acyclic x
  have finals := final_every layered.acyclic layered.graded (fun _ => trivial)
    (fun t graded images => graded.subst images values)
  have flat {c : Atom} (graded : ∀ t ∈ c.args, t.Graded w outer) : (c.subst τ.normalized.image).hasNested = false := by
    rw [image_normalized]
    exact Atom.hasNested_subst_graded graded finals values
  refine ⟨τ.normalized, mostGeneral_eq_some.mpr ⟨?_, τ, ok, rfl, fun e member => ?_, flat left, flat right⟩,
    (solves_normalized layered.acyclic).mpr layered.solves⟩
  · simp only [Atom.symbol, Symbol.mk.injEq]
    exact ⟨predicates, lengths⟩
  · exact (normalized_every finals e.1 e.2 (SortedMap.get?_eq_some_iff.mpr member)).flat

theorem mostGeneral_graded {a b : Atom} (left : ∀ t ∈ a.args, t.Graded w outer) (right : ∀ t ∈ b.args, t.Graded w outer)
    (same : a.subst w = b.subst w) : ∃ σ, mostGeneral ∅ a b = some σ ∧ Solves .free w σ :=
  mostGeneral_layered ⟨acyclic_empty, solves_empty (M := .free) w, every_empty⟩ left right same

end Unifier
end GuardedSaturation
