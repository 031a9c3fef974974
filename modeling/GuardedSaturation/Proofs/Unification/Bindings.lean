import Mathlib
import GuardedSaturation.Proofs.Unification

/-! What unification keeps, in the answers and in what is left behind without one. Equations pass to representatives and
to arguments; a property of substitutions that survives the look-up of representatives and new bindings is kept, and so
is a property of the terms to be unified that passes from a function term to its arguments. -/
namespace GuardedSaturation

namespace Substitution
variable {P : Term → Prop} {σ σ' : Substitution}

/-- All bindings have a property. -/
def Every (P : Term → Prop) (σ : Substitution) : Prop := ∀ x t, σ.get? x = some t → P t

theorem every_empty : Every P ∅ := fun x t bound => by simp at bound

theorem Every.bind (every : Every P σ) {x : Variable} {t : Term} (image : P t) : Every P (σ.bind x t) := by
  intro y s bound
  rw [get?_bind] at bound
  split at bound
  · cases bound
    exact image
  · exact every y s bound

theorem Every.image (every : Every P σ) (var : ∀ x, P (.var x)) (x : Variable) : P (σ.image x) := by
  unfold Substitution.image
  cases bound : σ.get? x with
  | none => exact var x
  | some t => exact every x t bound

theorem Chain.every (every : Every P σ) {path : List Variable} {t stop : Term} (chain : Chain σ path t stop)
    (start : P t) : P stop := by
  induction chain with
  | stop t => exact start
  | move bound rest ih => exact ih (every _ _ bound)

theorem find_every (every : Every P σ) {t r : Term} (start : P t) (found : σ.find t = (r, σ')) : P r ∧ Every P σ' := by
  obtain ⟨path, chain, bindings⟩ := find_spec found
  have stop := chain.every every start
  refine ⟨stop, fun x s bound => ?_⟩
  rw [bindings] at bound
  split at bound
  · cases bound
    exact stop
  · exact every x s bound

theorem final_every (acyclic : Acyclic σ) (every : Every P σ) (var : ∀ x, P (.var x))
    (subst : ∀ t, P t → (∀ x ∈ t.vars, P (σ.final x)) → P (t.subst σ.final)) (x : Variable) : P (σ.final x) := by
  refine acyclic.induction (P := fun x => P (σ.final x)) ?_ ?_ x
  · intro x unbound
    rw [final_unbound unbound]
    exact var x
  · intro x t bound images
    rw [final_bound acyclic bound]
    exact subst t (every x t bound) images

theorem normalized_every (images : ∀ x, P (σ.final x)) : Every P σ.normalized := by
  intro x t bound
  have image : σ.normalized.image x = t := by simp [Substitution.image, bound]
  rw [← image, image_normalized]
  exact images x

end Substitution

namespace Unifier
open Substitution
variable {E : Term → Term → Prop} {P : Term → Prop} {Q : Substitution → Prop} {σ τ ρ σ' : Substitution} {s t : Term}

/-- The substitution left behind, whether or not the two sides stayed apart. -/
def leftBehind : Attempt → Substitution
  | .ok σ => σ
  | .error σ => σ

@[simp] theorem leftBehind_ok (σ : Substitution) : leftBehind (.ok σ) = σ := rfl

@[simp] theorem leftBehind_error (σ : Substitution) : leftBehind (.error σ) = σ := rfl

theorem leftBehind_bind (first : Attempt) (next : Substitution → Attempt) (keeps : ∀ σ, Q σ → Q (leftBehind (next σ)))
    (good : Q (leftBehind first)) : Q (leftBehind (first >>= next)) := by
  cases first with
  | error σ => exact good
  | ok σ => exact keeps σ good

theorem leftBehind_foldlM {α : Type} {step : Substitution → α → Attempt} {items : List α}
    (each : ∀ σ, ∀ a ∈ items, Q σ → Q (leftBehind (step σ a))) (start : Q σ) : Q (leftBehind (items.foldlM step σ)) := by
  induction items generalizing σ with
  | nil => exact start
  | cons a items ih =>
    rw [List.foldlM_cons]
    apply leftBehind_bind
    · exact fun σ good => ih (fun σ b member => each σ b (List.mem_cons_of_mem a member)) good
    · exact each σ a List.mem_cons_self start

/-- What unification keeps of equations and substitutions: equations pass to representatives and to arguments, and a
substitution stays good when a representative is looked up and when a variable is bound without closing a cycle. -/
structure Conserved (E : Term → Term → Prop) (Q : Substitution → Prop) : Prop where
  symm : ∀ {s t}, E s t → E t s
  args : ∀ {f g ss ts}, E (.app f ss) (.app g ts) → ∀ p ∈ ss.zip ts, E p.1 p.2
  inner : ∀ {s f args}, E s (.app f args) → ∀ t ∈ args, E t t
  find : ∀ {σ σ' s t r}, Acyclic σ → Q σ → E s t → σ.find s = (r, σ') → E r t ∧ Q σ'
  bind : ∀ {σ x t}, Acyclic σ → Q σ → E (.var x) t → σ.get? x = none → (∀ y ∈ t.vars, ¬ Reaches σ y x) → Q (σ.bind x t)

namespace Conserved

theorem flatten (conserved : Conserved E Q) (x : Variable) (good : Acyclic σ ∧ Q σ) (equal : E t t) :
    Acyclic (leftBehind (flatten x σ t)) ∧ Q (leftBehind (flatten x σ t)) := by
  obtain ⟨r, τ, found⟩ : ∃ r τ, σ.find t = (r, τ) := ⟨_, _, rfl⟩
  have kept := And.intro (acyclic_find found good.1) (conserved.find good.1 good.2 equal found).2
  cases r with
  | var y =>
    simp only [Unifier.flatten, found]
    split <;> exact kept
  | const c => simpa [Unifier.flatten, found] using kept
  | app f args => simpa [Unifier.flatten, found] using kept

theorem bindFunction (conserved : Conserved E Q) {x : Variable} {f : String} {args : List Term} (good : Acyclic σ ∧ Q σ)
    (unbound : σ.get? x = none) (equal : E (.var x) (.app f args)) :
    Acyclic (leftBehind (bindFunction σ x f args)) ∧ Q (leftBehind (bindFunction σ x f args)) := by
  have kept : Acyclic (leftBehind (args.foldlM (Unifier.flatten x) σ)) ∧ Q (leftBehind (args.foldlM (Unifier.flatten x) σ)) :=
    leftBehind_foldlM (Q := fun σ => Acyclic σ ∧ Q σ)
      (fun σ t member good => conserved.flatten x good (conserved.inner equal t member)) good
  rw [bindFunction_eq]
  cases flattened : args.foldlM (Unifier.flatten x) σ with
  | error τ =>
    rw [flattened] at kept
    exact kept
  | ok τ =>
    rw [flattened] at kept
    obtain ⟨-, unbound, apart⟩ := flattened_of_ok.{0} good.1 unbound flattened
    have apart : ∀ y ∈ (Term.app f args).vars, ¬ Reaches τ y x := by
      simpa using fun y t member inside => apart t member y inside
    exact ⟨kept.1.bind apart, conserved.bind kept.1 kept.2 equal unbound apart⟩

theorem meet (conserved : Conserved E Q) (good : Acyclic σ ∧ Q σ) (equal : E s t) :
    (meet σ s t).elim (fun answer => Acyclic (leftBehind answer) ∧ Q (leftBehind answer))
      (fun below => (Acyclic below.1 ∧ Q below.1) ∧ ∀ p ∈ below.2, E p.1 p.2) := by
  obtain ⟨s', τ, foundS⟩ : ∃ s' τ, σ.find s = (s', τ) := ⟨_, _, rfl⟩
  obtain ⟨t', ρ, foundT⟩ : ∃ t' ρ, τ.find t = (t', ρ) := ⟨_, _, rfl⟩
  have acyclic' := acyclic_find foundS good.1
  obtain ⟨left, first⟩ := conserved.find good.1 good.2 equal foundS
  obtain ⟨right, second⟩ := conserved.find acyclic' first (conserved.symm left) foundT
  have good' : Acyclic ρ ∧ Q ρ := ⟨acyclic_find foundT acyclic', second⟩
  have bind {x : Variable} {r : Term} (unbound : ρ.get? x = none) (apart : ∀ y ∈ r.vars, ¬ Reaches ρ y x)
      (equal : E (.var x) r) : Acyclic (ρ.bind x r) ∧ Q (ρ.bind x r) :=
    ⟨good'.1.bind apart, conserved.bind good'.1 good'.2 equal unbound apart⟩
  have meeting := meet_cases good.1 foundS foundT
  generalize Unifier.meet σ s t = result at meeting ⊢
  cases meeting with
  | same => exact good'
  | args => exact ⟨good', conserved.args (conserved.symm right)⟩
  | function unbound => exact conserved.bindFunction good' unbound (conserved.symm right)
  | functionLeft unbound => exact conserved.bindFunction good' unbound right
  | bind unbound apart => exact bind unbound apart (conserved.symm right)
  | constLeft unbound => exact bind unbound (by simp) right
  | clash => exact good'

theorem unifyTo (conserved : Conserved E Q) (depth : Nat) (good : Acyclic σ ∧ Q σ) (equal : E s t) :
    Acyclic (leftBehind (unifyTo depth σ s t)) ∧ Q (leftBehind (unifyTo depth σ s t)) := by
  induction depth generalizing σ s t with
  | zero => exact good
  | succ depth ih =>
    have met := conserved.meet good equal
    rw [unifyTo_succ]
    cases result : Unifier.meet σ s t with
    | inl answer =>
      rw [result] at met
      exact met
    | inr below =>
      rw [result] at met
      exact leftBehind_foldlM (Q := fun σ => Acyclic σ ∧ Q σ) (fun σ p member good => ih good (met.2 p member)) met.1

theorem unifyPairs (conserved : Conserved E Q) (depth : Nat) {pairs : List (Term × Term)} (good : Acyclic σ ∧ Q σ)
    (equal : ∀ p ∈ pairs, E p.1 p.2) :
    Acyclic (leftBehind (unifyPairs depth σ pairs)) ∧ Q (leftBehind (unifyPairs depth σ pairs)) :=
  leftBehind_foldlM (Q := fun σ => Acyclic σ ∧ Q σ)
    (fun _ p member good => conserved.unifyTo depth good (equal p member)) good

theorem unifyAll (conserved : Conserved E Q) {ss ts : List Term} (good : Acyclic σ ∧ Q σ)
    (equal : ∀ p ∈ ss.zip ts, E p.1 p.2) (ok : unifyAll σ ss ts = .ok σ') : Acyclic σ' ∧ Q σ' := by
  have kept : Acyclic (leftBehind (Unifier.unifyAll σ ss ts)) ∧ Q (leftBehind (Unifier.unifyAll σ ss ts)) :=
    leftBehind_foldlM (Q := fun σ => Acyclic σ ∧ Q σ)
      (fun _ p member good => conserved.unifyTo _ good (equal p member)) good
  rwa [ok] at kept

end Conserved

/-- What unification keeps of terms: they pass a property on to their representatives and arguments, and substitutions
stay good when a variable of that property is bound to a term of that property. -/
structure Kept (P : Term → Prop) (Q : Substitution → Prop) : Prop where
  passes : ∀ f args, P (.app f args) → ∀ t ∈ args, P t
  find : ∀ {σ σ' t r}, Q σ → P t → σ.find t = (r, σ') → P r ∧ Q σ'
  bind : ∀ {σ x t}, Q σ → P (.var x) → P t → Q (σ.bind x t)

namespace Kept

theorem conserved (kept : Kept P Q) : Conserved (fun s t => P s ∧ P t) Q where
  symm both := both.symm
  args both _ member := (List.of_mem_zip member).imp (kept.passes _ _ both.1 _) (kept.passes _ _ both.2 _)
  inner both t member := and_self_iff.mpr (kept.passes _ _ both.2 t member)
  find _ good both found :=
    have next := kept.find good both.1 found
    ⟨⟨next.1, both.2⟩, next.2⟩
  bind _ good both _ _ := kept.bind good both.1 both.2

theorem unifyTo (kept : Kept P Q) (depth : Nat) (acyclic : Acyclic σ) (start : Q σ) (left : P s) (right : P t) :
    Q (leftBehind (unifyTo depth σ s t)) := (kept.conserved.unifyTo depth ⟨acyclic, start⟩ ⟨left, right⟩).2

theorem unifyAll (kept : Kept P Q) {ss ts : List Term} (acyclic : Acyclic σ) (start : Q σ) (left : ∀ s ∈ ss, P s)
    (right : ∀ t ∈ ts, P t) (ok : unifyAll σ ss ts = .ok σ') : Q σ' :=
  have pairs : ∀ p ∈ ss.zip ts, P p.1 ∧ P p.2 := fun _ member =>
    (List.of_mem_zip member).imp (left _) (right _)
  (kept.conserved.unifyAll ⟨acyclic, start⟩ pairs ok).2

end Kept

theorem kept_every (passes : ∀ f args, P (.app f args) → ∀ t ∈ args, P t) : Kept P (Every P) :=
  ⟨passes, fun every start found => find_every every start found, fun every _ image => every.bind image⟩

end Unifier
end GuardedSaturation
