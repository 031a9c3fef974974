import Mathlib
import GuardedSaturation.Proofs.Substitution.Representatives
import GuardedSaturation.Proofs.Unification.Variables

/-! Unification comes to an end. A call for a pair of terms goes down to the arguments of their representatives, and the
representative of a variable stays what it is until the end. So the left terms on a path of calls follow the bindings of
the substitution that is left behind, in which no variable leads back to itself. -/
namespace GuardedSaturation

namespace Term

theorem length_vars_le (t : Term) : t.vars.length ≤ t.size := by
  induction t with
  | var x => simp [size]
  | const c => simp
  | app f args ih =>
    rw [vars, size]
    suffices (varsAll args).length ≤ sizeAll args by omega
    induction args with
    | nil => simp [varsAll]
    | cons s args ih' =>
      rw [varsAll, sizeAll, List.length_append]
      exact Nat.add_le_add (ih s List.mem_cons_self) (ih' (fun t member => ih t (List.mem_cons_of_mem s member)))

end Term

namespace Unifier
open Substitution
variable {σ τ ρ final : Substitution} {s t : Term} {pairs below : List (Term × Term)} {result : Attempt}

/-- The calls for pairs of terms one after the other, each with the calls for the arguments below it, however deep. -/
inductive Returns : Substitution → List (Term × Term) → Attempt → Prop
  | nil (σ : Substitution) : Returns σ [] (.ok σ)
  | stop {σ τ : Substitution} {s t : Term} {pairs : List (Term × Term)} (met : meet σ s t = .inl (.error τ)) :
      Returns σ ((s, t) :: pairs) (.error τ)
  | next {σ τ : Substitution} {s t : Term} {pairs : List (Term × Term)} {result : Attempt}
      (met : meet σ s t = .inl (.ok τ)) (rest : Returns τ pairs result) : Returns σ ((s, t) :: pairs) result
  | stopBelow {σ ρ τ : Substitution} {s t : Term} {below pairs : List (Term × Term)} (met : meet σ s t = .inr (ρ, below))
      (inner : Returns ρ below (.error τ)) : Returns σ ((s, t) :: pairs) (.error τ)
  | nextBelow {σ ρ τ : Substitution} {s t : Term} {below pairs : List (Term × Term)} {result : Attempt}
      (met : meet σ s t = .inr (ρ, below)) (inner : Returns ρ below (.ok τ)) (rest : Returns τ pairs result) :
      Returns σ ((s, t) :: pairs) result

theorem Returns.unique {other : Attempt} (returns : Returns σ pairs result) (returns' : Returns σ pairs other) :
    result = other := by
  induction returns generalizing other with
  | nil =>
    cases returns'
    rfl
  | stop met => cases returns' <;> simp_all
  | next met rest ih =>
    cases returns' with
    | next met' rest' =>
      cases met.symm.trans met'
      exact ih rest'
    | _ => simp_all
  | stopBelow met inner ih =>
    cases returns' with
    | stopBelow met' inner' =>
      cases met.symm.trans met'
      exact ih inner'
    | nextBelow met' inner' =>
      cases met.symm.trans met'
      cases ih inner'
    | _ => simp_all
  | nextBelow met inner rest ih ih' =>
    cases returns' with
    | nextBelow met' inner' rest' =>
      cases met.symm.trans met'
      cases ih inner'
      exact ih' rest'
    | stopBelow met' inner' =>
      cases met.symm.trans met'
      cases ih inner'
    | _ => simp_all

theorem unifyPairs_cons (depth : Nat) (σ : Substitution) (s t : Term) (pairs : List (Term × Term)) :
    unifyPairs depth σ ((s, t) :: pairs) = unifyTo depth σ s t >>= fun τ => unifyPairs depth τ pairs := rfl

theorem conserved_persists (σ : Substitution) : Conserved (fun _ _ => True) (Persists σ) where
  symm _ := trivial
  args _ _ _ := trivial
  inner _ _ _ := trivial
  find acyclic persists _ found := ⟨trivial, persists.trans (.of_find acyclic found)⟩
  bind acyclic persists _ unbound apart := persists.trans (.of_bind unbound (acyclic.bind apart))

theorem persists_unifyPairs (depth : Nat) (acyclic : Acyclic σ) (pairs : List (Term × Term)) :
    Persists σ (leftBehind (unifyPairs depth σ pairs)) :=
  ((conserved_persists σ).unifyPairs depth ⟨acyclic, .refl σ⟩ (fun _ _ => trivial)).2

theorem persists_of_bind {first : Attempt} {next : Substitution → Attempt} (acyclic : Acyclic (leftBehind first))
    (keeps : ∀ τ, Acyclic τ → Persists τ (leftBehind (next τ)))
    (persists : Persists (leftBehind (first >>= next)) final) : Persists (leftBehind first) final := by
  cases first with
  | error τ => exact persists
  | ok τ => exact (keeps τ acyclic).trans persists

theorem kept_small (bound : Nat) : Kept (fun t => t.size ≤ bound) (Every (fun t => t.size ≤ bound)) :=
  kept_every (fun _ _ small _ member => (Term.size_lt_of_mem member).le.trans small)

theorem meet_eq_inr (acyclic : Acyclic σ) (met : meet σ s t = .inr (ρ, below)) :
    ∃ f ss ts, σ.resolve s = .app f ss ∧ below = ss.zip ts := by
  obtain ⟨s', τ, foundS⟩ : ∃ s' τ, σ.find s = (s', τ) := ⟨_, _, rfl⟩
  obtain ⟨t', υ, foundT⟩ : ∃ t' υ, τ.find t = (t', υ) := ⟨_, _, rfl⟩
  have stop : σ.resolve s = s' := congrArg Prod.fst foundS
  have meeting := meet_cases acyclic foundS foundT
  rw [met] at meeting
  cases meeting with
  | args => exact ⟨_, _, _, stop, rfl⟩

/-- Calls of a depth suffice for a term: it can go down through its own symbols, and through those of one binding for
each rank below its own. -/
def Affords (rank : Variable → Nat) (bound depth : Nat) (t : Term) : Prop :=
  ∃ top, (∀ y ∈ t.vars, rank y < top) ∧ t.size + bound * top < depth

theorem Affords.arg {rank : Variable → Nat} {bound depth : Nat} (affords : Affords rank bound (depth + 1) s)
    (ranked : Ranked final rank) {f : String} {args : List Term} (stop : final.resolve s = .app f args)
    (small : (Term.app f args).size ≤ bound) (member : t ∈ args) : Affords rank bound depth t := by
  obtain ⟨top, above, enough⟩ := affords
  have smaller : t.size < (Term.app f args).size := Term.size_lt_of_mem member
  have inside {y : Variable} (mentioned : y ∈ t.vars) : y ∈ (Term.app f args).vars := by
    simpa using ⟨t, member, mentioned⟩
  cases s with
  | const c => simp at stop
  | app g ss =>
    rw [resolve_app] at stop
    rw [stop] at above enough
    exact ⟨top, fun y mentioned => above y (inside mentioned), by omega⟩
  | var x =>
    have lower : rank x < top := above x (by simp)
    have : bound * (rank x + 1) ≤ bound * top := Nat.mul_le_mul_left bound lower
    rw [Nat.mul_add_one] at this
    exact ⟨rank x, fun y mentioned => ranked.lt_of_resolve stop (inside mentioned), by omega⟩

theorem affords_below {rank : Variable → Nat} {bound depth : Nat} (ranked : Ranked final rank) (persists : Persists σ final)
    (good : Acyclic σ ∧ σ.Every (fun t => t.size ≤ bound)) (small : s.size ≤ bound) (affords : Affords rank bound (depth + 1) s)
    (met : meet σ s t = .inr (ρ, below)) : ∀ p ∈ below, Affords rank bound depth p.1 := by
  obtain ⟨f, ss, ts, stop, rfl⟩ := meet_eq_inr good.1 met
  obtain ⟨image, -⟩ := find_every (r := σ.resolve s) good.2 small rfl
  rw [stop] at image
  exact fun p member => affords.arg ranked (persists s f ss stop) image (List.of_mem_zip member).1

/-- With enough depth the limit is never met. -/
theorem returns_unifyPairs {rank : Variable → Nat} (bound : Nat) (ranked : Ranked final rank) (depth : Nat)
    (good : Acyclic σ ∧ σ.Every (fun t => t.size ≤ bound)) (small : ∀ p ∈ pairs, p.1.size ≤ bound ∧ p.2.size ≤ bound)
    (enough : ∀ p ∈ pairs, Affords rank bound depth p.1)
    (persists : Persists (leftBehind (unifyPairs depth σ pairs)) final) : Returns σ pairs (unifyPairs depth σ pairs) := by
  have conserved := (kept_small bound).conserved
  -- The calls below a pair are one level down; those for the pairs after it are on the same level.
  induction depth generalizing σ pairs with
  | zero =>
    cases pairs with
    | nil => exact .nil σ
    | cons p pairs =>
      obtain ⟨top, -, enough⟩ := enough p List.mem_cons_self
      omega
  | succ depth ihDepth =>
    induction pairs generalizing σ with
    | nil => exact .nil σ
    | cons p pairs ih =>
      obtain ⟨s, t⟩ := p
      rw [List.forall_mem_cons] at small enough
      have kept := conserved.meet good small.1
      have start : Persists σ final := (persists_unifyPairs _ good.1 _).trans persists
      rw [unifyPairs_cons, unifyTo_succ] at persists ⊢
      cases met : meet σ s t with
      | inl answer =>
        rw [met] at persists kept
        cases answer with
        | error τ => exact .stop met
        | ok τ => exact .next met (ih kept small.2 enough.2 persists)
      | inr below =>
        obtain ⟨ρ, below⟩ := below
        rw [met] at persists kept
        obtain ⟨good', small'⟩ := kept
        have kept := conserved.unifyPairs depth good' small'
        have inner : Returns ρ below (unifyPairs depth ρ below) :=
          ihDepth good' small' (affords_below ranked start good small.1.1 enough.1 met)
            (persists_of_bind kept.1 (fun _ acyclic => persists_unifyPairs _ acyclic pairs) persists)
        dsimp only [Sum.elim_inr] at persists ⊢
        cases ended : unifyPairs depth ρ below with
        | error τ => exact .stopBelow met (ended ▸ inner)
        | ok τ =>
          rw [ended] at persists kept inner
          exact .nextBelow met inner (ih kept small.2 enough.2 persists)

def scope (σ : Substitution) : List Variable := σ.entries.flatMap (fun e => e.1 :: e.2.vars)

theorem weight_eq (σ : Substitution) : weight σ = (σ.entries.map (fun e => 1 + e.2.size)).sum := by
  unfold weight
  induction σ.entries with
  | nil => rfl
  | cons e rest ih => rw [List.foldr_cons, ih, List.map_cons, List.sum_cons]

theorem length_scope_le (σ : Substitution) : (scope σ).length ≤ weight σ := by
  rw [scope, weight_eq, List.length_flatMap]
  refine List.sum_le_sum (fun e _ => ?_)
  have := e.2.length_vars_le
  rw [List.length_cons]
  omega

theorem every_weight (σ : Substitution) : σ.Every (fun t => t.size ≤ weight σ) := by
  intro x t bound
  have member := List.mem_map_of_mem (f := fun e => 1 + e.2.size) (SortedMap.get?_eq_some_iff.mp bound)
  rw [weight_eq]
  exact (Nat.le_add_left t.size 1).trans (List.single_le_sum (by simp) _ member)

theorem confined_scope (σ : Substitution) (more : List Variable) : Confined (· ∈ scope σ ++ more) σ := by
  have inside {x : Variable} {t : Term} (bound : σ.get? x = some t) {y : Variable} (mentioned : y ∈ x :: t.vars) :
      y ∈ scope σ ++ more :=
    List.mem_append_left more (List.mem_flatMap.mpr ⟨(x, t), SortedMap.get?_eq_some_iff.mp bound, mentioned⟩)
  refine ⟨fun x bound => ?_, fun x t bound _ y mentioned => inside bound (List.mem_cons_of_mem x mentioned)⟩
  obtain ⟨t, bound⟩ := Option.ne_none_iff_exists'.mp bound
  exact inside bound List.mem_cons_self

theorem acyclic_unify (acyclic : Acyclic σ) (s t : Term) : Acyclic (leftBehind (unify σ s t)) :=
  ((conserved_persists σ).unifyTo _ ⟨acyclic, .refl σ⟩ trivial).1

/-- Variables outside of what is unified stay unbound, so that the ranks stay within the number of symbols. -/
theorem exists_rank (acyclic : Acyclic σ) (s t : Term) :
    ∃ rank, Ranked (leftBehind (unify σ s t)) rank ∧ ∀ x, rank x ≤ weight σ + s.size + t.size := by
  have confined : Confined (· ∈ scope σ ++ (s.vars ++ t.vars)) (leftBehind (unify σ s t)) :=
    kept_confined.unifyTo _ acyclic (confined_scope σ _) (by simp +contextual) (by simp +contextual)
  obtain ⟨rank, ranked, below⟩ := (acyclic_unify acyclic s t).bounded_keys
  have keys : (leftBehind (unify σ s t)).keys.toFinset ⊆ (scope σ ++ (s.vars ++ t.vars)).toFinset := by
    intro x member
    rw [List.mem_toFinset] at member ⊢
    apply confined.bound
    rw [← Option.isSome_iff_ne_none, SortedMap.get?_isSome_iff]
    exact member
  refine ⟨rank, ranked, fun x => ?_⟩
  calc rank x ≤ _ := below x
    _ ≤ _ := Finset.card_le_card keys
    _ ≤ (scope σ ++ (s.vars ++ t.vars)).length := List.toFinset_card_le _
    _ = (scope σ).length + s.vars.length + t.vars.length := by rw [List.length_append, List.length_append, Nat.add_assoc]
    _ ≤ _ := Nat.add_le_add (Nat.add_le_add (length_scope_le σ) s.length_vars_le) t.length_vars_le

theorem returns_unify (acyclic : Acyclic σ) (s t : Term) : Returns σ [(s, t)] (unify σ s t) := by
  obtain ⟨rank, ranked, low⟩ := exists_rank acyclic s t
  have single : unifyPairs _ σ [(s, t)] = unify σ s t := bind_pure _
  rw [← single]
  refine returns_unifyPairs (weight σ + s.size + t.size) ranked _ ⟨acyclic, ?_⟩ ?_ ?_ (single ▸ .refl _)
  · intro x image bound
    have := every_weight σ x image bound
    omega
  · simp only [List.forall_mem_singleton]
    omega
  · rw [List.forall_mem_singleton]
    refine ⟨weight σ + s.size + t.size + 1, fun y _ => Nat.lt_succ_of_le (low y), ?_⟩
    dsimp only
    rw [Nat.add_one_mul]
    omega

/-- Unifying two terms comes to an end, and leaves no variable leading back to itself, whether or not it succeeds; so the
representatives below function symbols are found in what it leaves behind. -/
theorem unify_terminates (σ : Substitution) (acyclic : ∀ x, ¬ Relation.TransGen (Leads σ) x x) (s t : Term) :
    (∀ result, Returns σ [(s, t)] result ↔ result = unify σ s t) ∧
      (∀ x, ¬ Relation.TransGen (Leads (leftBehind (unify σ s t))) x x) ∧
      (∀ r u, Resolves (leftBehind (unify σ s t)) r u ↔ u = (leftBehind (unify σ s t)).resolveDeep r) ∧
      ∀ x, Resolves (leftBehind (unify σ s t)) (.var x) ((leftBehind (unify σ s t)).normalized.image x) := by
  have acyclic := acyclic_iff.mpr acyclic
  have acyclic' := acyclic_unify acyclic s t
  refine ⟨fun result => ⟨fun returns => returns.unique (returns_unify acyclic s t), ?_⟩, acyclic_iff.mp acyclic',
    fun r u => resolves_iff acyclic', fun x => (resolves_iff acyclic').mpr ?_⟩
  · rintro rfl
    exact returns_unify acyclic s t
  · rw [image_normalized, resolveDeep, Term.subst_var]
    rfl

/-- Nested terms that stay apart at their last arguments, after bindings have been compressed and one has been added. -/
theorem unify_terminates_apart :
    ∃ σ τ s t, σ = .ofList [("u", .var "v"), ("v", .app "f" [.var "w"])] ∧
      s = .app "g" [.var "u", .app "h" [.var "x"]] ∧ t = .app "g" [.app "f" [.app "k" [.var "y"]], .app "h" [.app "h" [.var "x"]]] ∧
      τ = .ofList [("u", .app "f" [.var "w"]), ("v", .app "f" [.var "w"]), ("w", .app "k" [.var "y"])] ∧
      (∀ x, ¬ Relation.TransGen (Leads σ) x x) ∧ Returns σ [(s, t)] (.error τ) ∧ (∀ x, ¬ Relation.TransGen (Leads τ) x x) ∧
      Resolves τ (.var "u") (.app "f" [.app "k" [.var "y"]]) := by
  let σ : Substitution := .ofList [("u", .var "v"), ("v", .app "f" [.var "w"])]
  let τ : Substitution := .ofList [("u", .app "f" [.var "w"]), ("v", .app "f" [.var "w"]), ("w", .app "k" [.var "y"])]
  have acyclic : ∀ x, ¬ Relation.TransGen (Leads σ) x x :=
    acyclic_of_entries ["w", "v", "u"].idxOf (by decide +kernel)
  have left : unify σ (.app "g" [.var "u", .app "h" [.var "x"]])
      (.app "g" [.app "f" [.app "k" [.var "y"]], .app "h" [.app "h" [.var "x"]]]) = .error τ := by decide +kernel
  obtain ⟨returns, acyclic', resolves, -⟩ := unify_terminates σ acyclic _ _
  rw [left] at acyclic' resolves
  exact ⟨σ, τ, _, _, rfl, rfl, rfl, rfl, acyclic, (returns _).mpr left.symm, acyclic', (resolves _ _).mpr (by decide +kernel)⟩

end Unifier
end GuardedSaturation
