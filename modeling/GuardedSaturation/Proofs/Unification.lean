import Mathlib
import GuardedSaturation.Unifier
import GuardedSaturation.Proofs.Folds
import GuardedSaturation.Proofs.Substitution.Normalization

/-! Unifiers make their atoms equal. Every solution of the answer solves the seed and gives
the two atoms the same values; read over the free structure, the answer is such a solution. -/
namespace GuardedSaturation
namespace Unifier
open Substitution

universe u
variable {M : Interpretation.{u}} {σ σ' : Substitution}

/-- From one substitution an acyclic other is made, whose solutions solve the first one and
equate the pairs. -/
structure Step (σ : Substitution) (pairs : List (Term × Term)) (σ' : Substitution) : Prop where
  acyclic : Acyclic σ'
  solves : ∀ {M : Interpretation.{u}} {v : M.Assignment}, Solves M v σ' →
    Solves M v σ ∧ ∀ p ∈ pairs, M.value v p.1 = M.value v p.2

namespace Step

theorem refl (acyclic : Acyclic σ) : Step.{u} σ [] σ := ⟨acyclic, fun solves => ⟨solves, by simp⟩⟩

theorem trans {τ : Substitution} {ps qs : List (Term × Term)} (first : Step.{u} σ ps σ')
    (second : Step.{u} σ' qs τ) : Step.{u} σ (ps ++ qs) τ := by
  refine ⟨second.acyclic, fun solves => ?_⟩
  obtain ⟨solves, equal'⟩ := second.solves solves
  obtain ⟨solves, equal⟩ := first.solves solves
  refine ⟨solves, fun p member => ?_⟩
  rcases List.mem_append.mp member with member | member
  · exact equal p member
  · exact equal' p member

/-- Pairs may be replaced by others that have the same values under every solution. -/
theorem change {ps qs : List (Term × Term)} (step : Step.{u} σ ps σ')
    (same : ∀ {M : Interpretation.{u}} {v : M.Assignment}, Solves M v σ →
      (∀ p ∈ ps, M.value v p.1 = M.value v p.2) → ∀ q ∈ qs, M.value v q.1 = M.value v q.2) :
    Step.{u} σ qs σ' := by
  refine ⟨step.acyclic, fun solves => ?_⟩
  obtain ⟨solves, equal⟩ := step.solves solves
  exact ⟨solves, same solves equal⟩

theorem find {t r : Term} (acyclic : Acyclic σ) (found : σ.find t = (r, σ')) : Step.{u} σ [(r, t)] σ' := by
  refine ⟨acyclic_find found acyclic, fun solves => ?_⟩
  have solves := (find_solves found).mp solves
  exact ⟨solves, by simpa using find_value solves found⟩

theorem bind {x : Variable} {t : Term} (acyclic : Acyclic σ) (unbound : σ.get? x = none)
    (apart : ∀ y ∈ t.vars, ¬ Reaches σ y x) : Step.{u} σ [(.var x, t)] (σ.bind x t) := by
  refine ⟨acyclic.bind apart, fun solves => ?_⟩
  obtain ⟨solves, equal⟩ := (Solves.bind unbound).mp solves
  exact ⟨solves, by simpa using equal⟩

theorem foldlM {step : Substitution → Term × Term → Attempt}
    (each : ∀ σ p σ', Acyclic σ → step σ p = .ok σ' → Step.{u} σ [p] σ') (pairs : List (Term × Term))
    (acyclic : Acyclic σ) (ok : pairs.foldlM step σ = .ok σ') : Step.{u} σ pairs σ' :=
  foldlM_invariant (I := fun done τ => Step.{u} σ done τ)
    (fun _ τ p τ' _ before ok => before.trans (each τ p τ' before.acyclic ok)) (.refl acyclic) ok

end Step

theorem reaches_unbound {x y : Variable} (unbound : σ.get? y = none) (reaches : Reaches σ y x) : y = x := by
  rcases reaches.cases_head with same | ⟨z, ⟨t, bound, -⟩, -⟩
  · exact same
  · simp [unbound] at bound

/-- An argument whose representative is neither the variable nor a function term does not
lead back to the variable. -/
theorem not_reaches_of_find {t r : Term} {x : Variable} (acyclic : Acyclic σ) (unbound : σ.get? x = none)
    (found : σ.find t = (r, σ')) (plain : r.isFunction = false) (different : r ≠ .var x) :
    ∀ y ∈ t.vars, ¬ Reaches σ' y x := by
  intro y inside reaches
  obtain ⟨path, chain, -⟩ := find_spec found
  obtain ⟨w, inside, reaches⟩ := chain.reaches_of_stop inside (find_reaches found reaches) unbound
  rcases Term.plain_cases plain with ⟨z, rfl⟩ | ⟨c, rfl⟩
  · rw [Term.vars_var, List.mem_singleton] at inside
    subst inside
    have ended := (find_get?_eq_none found).mp (find_unbound acyclic.loopless found)
    exact different (by rw [reaches_unbound ended reaches])
  · simp at inside

/-- One argument of a function term that a variable is to be bound to. -/
def flatten (x : Variable) (σ : Substitution) (arg : Term) : Attempt :=
  match σ.find arg with
  | (.app .., σ) => .error σ
  | (.var y, σ) => if y = x then .error σ else .ok σ
  | (.const _, σ) => .ok σ

theorem bindFunction_eq (σ : Substitution) (x : Variable) (f : String) (args : List Term) :
    bindFunction σ x f args =
      (args.foldlM (flatten x) σ) >>= fun σ => .ok (σ.bind x (.app f args)) := rfl

theorem flatten_ok {x : Variable} {t : Term} (ok : flatten x σ t = .ok σ') :
    ∃ r, σ.find t = (r, σ') ∧ r.isFunction = false ∧ r ≠ .var x := by
  unfold flatten at ok
  split at ok
  · simp at ok
  · next y _ found =>
    split at ok
    · simp at ok
    · next different =>
      cases ok
      exact ⟨_, found, rfl, by simpa using different⟩
  · next found =>
    cases ok
    exact ⟨_, found, rfl, by simp⟩

/-- The variable is still unbound, and the arguments done do not lead back to it. -/
structure Flattened (σ : Substitution) (x : Variable) (done : List Term) (τ : Substitution) : Prop where
  step : Step.{u} σ [] τ
  unbound : τ.get? x = none
  apart : ∀ t ∈ done, ∀ y ∈ t.vars, ¬ Reaches τ y x

theorem flattened_of_ok {x : Variable} {args : List Term} (acyclic : Acyclic σ) (unbound : σ.get? x = none)
    (ok : args.foldlM (flatten x) σ = .ok σ') : Flattened.{u} σ x args σ' := by
  refine foldlM_invariant (I := Flattened.{u} σ x) ?_ ⟨.refl acyclic, unbound, by simp⟩ ok
  intro done τ t τ' _ ⟨step, unbound, apart⟩ ok
  obtain ⟨r, found, plain, different⟩ := flatten_ok ok
  have next : Step.{u} τ [] τ' := (Step.find step.acyclic found).change (by simp)
  refine ⟨step.trans next, (find_get?_eq_none found).mpr unbound, List.forall_mem_append.mpr ⟨?_, ?_⟩⟩
  · exact fun s member y inside reaches => apart s member y inside (find_reaches found reaches)
  · rw [List.forall_mem_singleton]
    exact not_reaches_of_find step.acyclic unbound found plain different

theorem bindFunction_step {x : Variable} {f : String} {args : List Term} (acyclic : Acyclic σ)
    (unbound : σ.get? x = none) (ok : bindFunction σ x f args = .ok σ') :
    Step.{u} σ [(.var x, .app f args)] σ' := by
  rw [bindFunction_eq] at ok
  obtain ⟨τ, flattened, ok⟩ := bind_ok.mp ok
  cases ok
  obtain ⟨step, unbound, apart⟩ := flattened_of_ok acyclic unbound flattened
  refine step.trans (.bind step.acyclic unbound ?_)
  simpa using fun y t member inside => apart t member y inside

theorem not_reaches_of_plain {x : Variable} {t : Term} (plain : t.isFunction = false) (different : t ≠ .var x)
    (ended : ∀ y, t = .var y → σ.get? y = none) : ∀ y ∈ t.vars, ¬ Reaches σ y x := by
  intro y inside reaches
  rcases Term.plain_cases plain with ⟨z, rfl⟩ | ⟨c, rfl⟩
  · rw [Term.vars_var, List.mem_singleton] at inside
    subst inside
    exact different (by rw [reaches_unbound (ended y rfl) reaches])
  · simp at inside

/-- How two terms meet: with an answer at once, or with arguments that are still to be unified in a substitution. -/
def meet (σ : Substitution) (s t : Term) : Attempt ⊕ Substitution × List (Term × Term) :=
  let (s, σ) := σ.find s
  let (t, σ) := σ.find t
  if s = t then .inl (.ok σ)
  else match s, t with
    | .app f ss, .app g ts => if f = g ∧ ss.length = ts.length then .inr (σ, ss.zip ts) else .inl (.error σ)
    | .var x, .app f args | .app f args, .var x => .inl (bindFunction σ x f args)
    | .var x, t | t, .var x => .inl (.ok (σ.bind x t))
    | _, _ => .inl (.error σ)

def unifyPairs (depth : Nat) (σ : Substitution) (pairs : List (Term × Term)) : Attempt :=
  pairs.foldlM (fun σ p => unifyTo depth σ p.1 p.2) σ

theorem unifyTo_succ (depth : Nat) (σ : Substitution) (s t : Term) :
    unifyTo (depth + 1) σ s t = (meet σ s t).elim id (fun below => unifyPairs depth below.1 below.2) := by
  obtain ⟨s', τ, foundS⟩ : ∃ s' τ, σ.find s = (s', τ) := ⟨_, _, rfl⟩
  obtain ⟨t', ρ, foundT⟩ : ∃ t' ρ, τ.find t = (t', ρ) := ⟨_, _, rfl⟩
  simp only [unifyTo, meet, foundS, foundT]
  by_cases same : s' = t'
  · rw [if_pos same, if_pos same]
    rfl
  · rw [if_neg same, if_neg same]
    cases s' <;> cases t' <;> try rfl
    dsimp only
    split <;> rfl

/-- Terms with nothing in common: different constants, different function symbols, or one of either kind. -/
inductive Clash : Term → Term → Prop
  | constants {c d : String} (different : c ≠ d) : Clash (.const c) (.const d)
  | symbols {f g : String} {ss ts : List Term} (different : ¬ (f = g ∧ ss.length = ts.length)) :
      Clash (.app f ss) (.app g ts)
  | left {c f : String} {ts : List Term} : Clash (.const c) (.app f ts)
  | right {c f : String} {ss : List Term} : Clash (.app f ss) (.const c)

theorem Clash.subst_ne {s t : Term} (clash : Clash s t) (w : Variable → Term) : s.subst w ≠ t.subst w := by
  intro same
  cases clash with
  | constants different => exact different (by simpa using same)
  | symbols different =>
    simp only [Term.subst_app, Term.app.injEq] at same
    exact different ⟨same.1, by simpa using congrArg List.length same.2⟩
  | left => simp at same
  | right => simp at same

/-- What comes of two representatives. A variable on either side is bound, to a function term if its arguments let it. -/
inductive Meeting (ρ : Substitution) : Term → Term → Attempt ⊕ Substitution × List (Term × Term) → Prop
  | same (t : Term) : Meeting ρ t t (.inl (.ok ρ))
  | args {f : String} {ss ts : List Term} (lengths : ss.length = ts.length) :
      Meeting ρ (.app f ss) (.app f ts) (.inr (ρ, ss.zip ts))
  | function {x : Variable} {f : String} {args : List Term} (unbound : ρ.get? x = none) :
      Meeting ρ (.var x) (.app f args) (.inl (bindFunction ρ x f args))
  | functionLeft {x : Variable} {f : String} {args : List Term} (unbound : ρ.get? x = none) :
      Meeting ρ (.app f args) (.var x) (.inl (bindFunction ρ x f args))
  | bind {x : Variable} {t : Term} (unbound : ρ.get? x = none) (apart : ∀ y ∈ t.vars, ¬ Reaches ρ y x) :
      Meeting ρ (.var x) t (.inl (.ok (ρ.bind x t)))
  | constLeft {x : Variable} {c : String} (unbound : ρ.get? x = none) :
      Meeting ρ (.const c) (.var x) (.inl (.ok (ρ.bind x (.const c))))
  | clash {s t : Term} (clash : Clash s t) : Meeting ρ s t (.inl (.error ρ))

/-- The one case analysis of a step of unification. -/
theorem meet_cases (acyclic : Acyclic σ) {s t s' t' : Term} {τ ρ : Substitution} (foundS : σ.find s = (s', τ))
    (foundT : τ.find t = (t', ρ)) : Meeting ρ s' t' (meet σ s t) := by
  have endedS (x : Variable) (stop : s' = .var x) : ρ.get? x = none :=
    (find_get?_eq_none foundT).mpr (find_unbound acyclic.loopless (stop ▸ foundS))
  have endedT (x : Variable) (stop : t' = .var x) : ρ.get? x = none :=
    find_unbound (acyclic_find foundS acyclic).loopless (stop ▸ foundT)
  simp only [meet, foundS, foundT]
  by_cases same : s' = t'
  · rw [if_pos same, same]
    exact .same t'
  rw [if_neg same]
  cases s' with
  | var x =>
    have unbound := endedS x rfl
    cases t' with
    | app f args => exact .function unbound
    | var y => exact .bind unbound (not_reaches_of_plain rfl (Ne.symm same) endedT)
    | const c => exact .bind unbound (by simp)
  | const c =>
    cases t' with
    | var x => exact .constLeft (endedT x rfl)
    | const d => exact .clash (.constants (by simpa using same))
    | app f args => exact .clash .left
  | app f ss =>
    cases t' with
    | var x => exact .functionLeft (endedT x rfl)
    | const d => exact .clash .right
    | app g ts =>
      dsimp only
      split
      · next symbols =>
        obtain ⟨rfl, lengths⟩ := symbols
        exact .args lengths
      · next different => exact .clash (.symbols different)

theorem values_eq_iff_zip {ss ts : List Term} {v : M.Assignment} (lengths : ss.length = ts.length) :
    M.values v ss = M.values v ts ↔ ∀ p ∈ ss.zip ts, M.value v p.1 = M.value v p.2 := by
  rw [Interpretation.values_eq_map, Interpretation.values_eq_map, map_eq_map_iff_zip lengths]

/-- Whatever two terms are unified in, every solution of the answer gives them one value. -/
theorem unifyTo_step (depth : Nat) {s t : Term} (acyclic : Acyclic σ)
    (ok : unifyTo depth σ s t = .ok σ') : Step.{u} σ [(s, t)] σ' := by
  induction depth generalizing σ σ' s t with
  | zero => simp [unifyTo] at ok
  | succ depth ih =>
    obtain ⟨s', τ, foundS⟩ : ∃ s' τ, σ.find s = (s', τ) := ⟨_, _, rfl⟩
    obtain ⟨t', ρ, foundT⟩ : ∃ t' ρ, τ.find t = (t', ρ) := ⟨_, _, rfl⟩
    have first : Step.{u} σ [(s', s)] τ := .find acyclic foundS
    have second : Step.{u} τ [(t', t)] ρ := .find first.acyclic foundT
    have finds := first.trans second
    -- It is enough to make the representatives equal.
    suffices Step.{u} ρ [(s', t')] σ' from (finds.trans this).change (by
      intro M v _ equal
      simp only [List.cons_append, List.nil_append, List.forall_mem_cons] at equal ⊢
      obtain ⟨left, right, equal, -⟩ := equal
      exact ⟨by rw [← left, ← right, equal], by simp⟩)
    have meeting := meet_cases acyclic foundS foundT
    rw [unifyTo_succ] at ok
    generalize meet σ s t = result at meeting ok
    cases meeting with
    | same =>
      cases ok
      exact (Step.refl second.acyclic).change (by simp)
    | args lengths =>
      have args := Step.foldlM (fun σ p σ' acyclic ok => ih acyclic ok) _ second.acyclic ok
      apply args.change
      intro _ _ _ equal
      simpa [← Interpretation.values_eq_map] using congrArg _ ((values_eq_iff_zip lengths).mpr equal)
    | function unbound => exact bindFunction_step second.acyclic unbound ok
    | functionLeft unbound => exact (bindFunction_step second.acyclic unbound ok).change (by simp [eq_comm])
    | bind unbound apart =>
      cases ok
      exact .bind second.acyclic unbound apart
    | constLeft unbound =>
      cases ok
      exact (Step.bind second.acyclic unbound (by simp)).change (by simp [eq_comm])
    | clash => cases ok

theorem unifyAll_step {ss ts : List Term} (acyclic : Acyclic σ) (ok : unifyAll σ ss ts = .ok σ') :
    Step.{u} σ (ss.zip ts) σ' :=
  Step.foldlM (fun _ _ _ acyclic ok => unifyTo_step _ acyclic ok) _ acyclic ok

theorem mostGeneral_eq_some {seed : Substitution} {a b : Atom} :
    mostGeneral seed a b = some σ ↔
      a.symbol = b.symbol ∧ ∃ τ, unifyAll seed a.args b.args = .ok τ ∧ τ.normalized = σ ∧
        (∀ e ∈ σ.entries, e.2.isNested = false) ∧
        (σ.applyAtom a).hasNested = false ∧ (σ.applyAtom b).hasNested = false := by
  unfold mostGeneral
  split
  · next different => simp [different]
  · next same =>
    cases unifyAll seed a.args b.args with
    | error τ => simp
    | ok τ =>
      simp only [ne_eq, not_not] at same
      simp only [same, true_and, Except.ok.injEq, exists_eq_left']
      split
      · next nested =>
        simp only [reduceCtorEq, false_iff, not_and]
        rintro rfl flat left right
        have entries : τ.normalized.entries.any (·.2.isNested) = false := by simpa using flat
        simp [entries, left, right] at nested
      · next flat =>
        simp only [Bool.or_eq_true, List.any_eq_true, not_or, not_exists, not_and, Bool.not_eq_true,
          and_assoc] at flat
        constructor
        · rintro ⟨⟩
          exact ⟨rfl, flat⟩
        · rintro ⟨rfl, -⟩
          rfl

section MostGeneral
variable {seed : Substitution} {a b : Atom}

theorem mostGeneral_normal (acyclic : Acyclic seed) (found : mostGeneral seed a b = some σ) : Normal σ := by
  obtain ⟨-, τ, ok, rfl, -⟩ := mostGeneral_eq_some.mp found
  exact normalized_normal (unifyAll_step.{0} acyclic ok).acyclic

theorem mostGeneral_solves (acyclic : Acyclic seed) (found : mostGeneral seed a b = some σ)
    {v : M.Assignment} (solves : Solves M v σ) :
    Solves M v seed ∧ M.fact v a = M.fact v b := by
  obtain ⟨symbols, τ, ok, rfl, -⟩ := mostGeneral_eq_some.mp found
  have step := unifyAll_step acyclic ok
  obtain ⟨solves, equal⟩ := step.solves ((solves_normalized step.acyclic).mp solves)
  have args := (values_eq_iff_zip (congrArg Symbol.arity symbols)).mpr equal
  exact ⟨solves, Interpretation.fact_eq_iff.mpr ⟨congrArg Symbol.name symbols, args⟩⟩

theorem mostGeneral_unifies (acyclic : Acyclic seed) (found : mostGeneral seed a b = some σ) :
    a.subst σ.image = b.subst σ.image := by
  have solves := (mostGeneral_normal acyclic found).solves_image
  have equal := (mostGeneral_solves acyclic found solves).2
  rw [Interpretation.fact_free, Interpretation.fact_free, Prod.mk.injEq] at equal
  exact Atom.eq_iff.mpr equal

theorem mostGeneral_hasNested (found : mostGeneral seed a b = some σ) :
    (a.subst σ.image).hasNested = false := by
  obtain ⟨-, τ, -, -, -, flat, -⟩ := mostGeneral_eq_some.mp found
  exact flat

theorem mostGeneral_image (found : mostGeneral seed a b = some σ) (x : Variable) : (σ.image x).isNested = false := by
  obtain ⟨-, τ, -, -, flat, -⟩ := mostGeneral_eq_some.mp found
  cases bound : σ.get? x with
  | none => simp [image, bound, Term.isNested]
  | some t => simpa [image, bound] using flat (x, t) (SortedMap.get?_eq_some_iff.mp bound)

end MostGeneral
end Unifier
end GuardedSaturation
