import Mathlib
import GuardedSaturation.Proofs.Substitution.Representatives

/-! Path compression. Looking up a representative stops where following bindings step by step stops, also on a cycle; and
where no variable leads back to itself, a substitution answers after any number of look-ups what it answered before. -/
namespace GuardedSaturation.Substitution
variable {σ σ' τ : Substitution}

/-- Lists the variables left behind on the way, as long as they are no more than there are bindings. -/
def collect (σ : Substitution) (path : List Variable) : Term → List Variable × Term
  | .var x => match σ.get? x with
    | some t => if path.length ≤ σ.size then collect σ (path ++ [x]) t else (path, .var x)
    | none => (path, .var x)
  | t => (path, t)
termination_by σ.size + 1 - path.length
decreasing_by simp; omega

/-- Counts the moves, as long as they are no more than there are bindings. -/
def follow (σ : Substitution) (moves : Nat) : Term → Term
  | .var x => match σ.get? x with
    | some t => if moves ≤ σ.size then follow σ (moves + 1) t else .var x
    | none => .var x
  | t => t
termination_by σ.size + 1 - moves

theorem collect_eq_chase (path : List Variable) (t : Term) (n : Nat) (left : path.length + n = σ.size + 1) :
    σ.collect path t = (path ++ (σ.chase n t).1, (σ.chase n t).2) := by
  induction n generalizing path t with
  | zero =>
    cases t with
    | var x =>
      have full : ¬ path.length ≤ σ.size := by omega
      cases bound : σ.get? x <;> simp [collect, chase, bound, full]
    | const c => simp [collect, chase]
    | app f args => simp [collect, chase]
  | succ n ih =>
    cases t with
    | var x =>
      cases bound : σ.get? x with
      | none => simp [collect, chase, bound]
      | some s =>
        have room : path.length ≤ σ.size := by omega
        rw [collect, bound]
        simp only [if_pos room, chase, bound]
        rw [ih (path ++ [x]) s (by simp; omega), List.append_assoc, List.singleton_append]
    | const c => simp [collect, chase]
    | app f args => simp [collect, chase]

theorem follow_eq_chase (moves : Nat) (t : Term) (n : Nat) (left : moves + n = σ.size + 1) :
    σ.follow moves t = (σ.chase n t).2 := by
  induction n generalizing moves t with
  | zero =>
    cases t with
    | var x =>
      have full : ¬ moves ≤ σ.size := by omega
      cases bound : σ.get? x <;> simp [follow, chase, bound, full]
    | const c => simp [follow, chase]
    | app f args => simp [follow, chase]
  | succ n ih =>
    cases t with
    | var x =>
      cases bound : σ.get? x with
      | none => simp [follow, chase, bound]
      | some s =>
        have room : moves ≤ σ.size := by omega
        rw [follow, bound]
        simp only [if_pos room, chase, bound]
        exact ih (moves + 1) s (by omega)
    | const c => simp [follow, chase]
    | app f args => simp [follow, chase]

theorem collect_nil (σ : Substitution) (t : Term) : σ.collect [] t = σ.walk t := by
  rw [collect_eq_chase [] t (σ.size + 1) (by simp), List.nil_append, walk]

theorem follow_zero (σ : Substitution) (t : Term) : σ.follow 0 t = σ.resolve t :=
  follow_eq_chase 0 t (σ.size + 1) (Nat.zero_add _)

/-- Two substitutions that bind the same variables and give every term the same representative. -/
structure Alike (σ τ : Substitution) : Prop where
  contains : ∀ x, τ.contains x = σ.contains x
  resolve : ∀ t, τ.resolve t = σ.resolve t

namespace Alike

theorem refl (σ : Substitution) : Alike σ σ := ⟨fun _ => rfl, fun _ => rfl⟩

theorem symm (alike : Alike σ τ) : Alike τ σ := ⟨fun x => (alike.contains x).symm, fun t => (alike.resolve t).symm⟩

theorem trans (first : Alike σ σ') (second : Alike σ' τ) : Alike σ τ :=
  ⟨fun x => (second.contains x).trans (first.contains x), fun t => (second.resolve t).trans (first.resolve t)⟩

theorem of_find (loopless : Loopless σ) {t r : Term} (found : σ.find t = (r, σ')) : Alike σ σ' := by
  refine ⟨fun x => ?_, fun s => ?_⟩
  · have unbound := find_get?_eq_none found (x := x)
    rw [SortedMap.contains, SortedMap.contains]
    cases here : σ.get? x <;> cases there : σ'.get? x <;> simp_all
  · cases s with
    | var x => exact resolve_find loopless found x
    | const c => rw [resolve_const, resolve_const]
    | app f args => rw [resolve_app, resolve_app]

theorem size (alike : Alike σ τ) : τ.size = σ.size := by
  have distinct (ρ : Substitution) : ρ.keys.Nodup :=
    List.pairwise_map.mpr (ρ.ascending.imp (fun before same => by simp [same] at before))
  have keys : τ.keys.Perm σ.keys := by
    refine (List.perm_ext_iff_of_nodup (distinct τ) (distinct σ)).mpr (fun x => ?_)
    rw [← SortedMap.get?_isSome_iff, ← SortedMap.get?_isSome_iff]
    exact Bool.eq_iff_iff.mp (alike.contains x)
  simpa [SortedMap.keys, SortedMap.size] using keys.length_eq

theorem unfold (alike : Alike σ τ) (n : Nat) (x : Variable) : τ.unfold n x = σ.unfold n x := by
  induction n generalizing x with
  | zero => rfl
  | succ n ih =>
    rw [Substitution.unfold, Substitution.unfold, alike.resolve]
    split
    · rw [funext ih]
    · rfl

theorem resolveDeep (alike : Alike σ τ) (t : Term) : τ.resolveDeep t = σ.resolveDeep t := by
  rw [Substitution.resolveDeep, Substitution.resolveDeep, alike.size, funext (alike.unfold _)]

theorem resolves (alike : Alike σ τ) {t u : Term} (resolves : Resolves σ t u) : Resolves τ t u := by
  induction resolves with
  | plain stop plain => exact .plain ((alike.resolve _).trans stop) plain
  | app stop lengths below ih => exact .app ((alike.resolve _).trans stop) lengths ih

end Alike

section Depth

/-- The bound variables that are resolved, also below function symbols, to terms of at most that size. -/
noncomputable def upTo (σ : Substitution) (size : Nat) : Finset Variable :=
  open Classical in σ.keys.toFinset.filter (fun x => ∃ u, Resolves σ (.var x) u ∧ u.size ≤ size)

variable {t u : Term} {m n : Nat}

theorem mem_upTo {x : Variable} : x ∈ σ.upTo m ↔ x ∈ σ.keys.toFinset ∧ ∃ u, Resolves σ (.var x) u ∧ u.size ≤ m := by
  simp [upTo]

theorem upTo_mono (le : m ≤ n) : σ.upTo m ⊆ σ.upTo n := by
  intro x member
  obtain ⟨isKey, u, resolves, small⟩ := mem_upTo.mp member
  exact mem_upTo.mpr ⟨isKey, u, resolves, small.trans le⟩

/-- A variable with a function term behind it counts for its own term, but not for the terms below. -/
theorem card_upTo_lt {x : Variable} {f : String} {args : List Term} (resolves : Resolves σ (.var x) u)
    (stop : σ.resolve (.var x) = .app f args) (below : m < u.size) : (σ.upTo m).card < (σ.upTo u.size).card := by
  refine Finset.card_lt_card (Finset.ssubset_iff_of_subset (upTo_mono below.le) |>.mpr ⟨x, ?_, fun member => ?_⟩)
  · cases bound : σ.get? x with
    | none => simp [resolve_var_unbound bound] at stop
    | some s => exact mem_upTo.mpr ⟨mem_keys bound, u, resolves, le_rfl⟩
  · obtain ⟨-, u', resolves', small⟩ := mem_upTo.mp member
    rw [resolves.unique resolves'] at below
    omega

theorem Resolves.subst_unfold (resolves : Resolves σ t u) (n : Nat) (enough : (σ.upTo u.size).card < n) :
    t.subst (σ.unfold n) = u := by
  induction resolves generalizing n with
  | @plain t r stop plain =>
    cases t with
    | var x =>
      obtain ⟨n, rfl⟩ := Nat.exists_eq_add_one_of_ne_zero (Nat.ne_zero_of_lt enough)
      rw [Term.subst_var, Substitution.unfold, stop]
      split
      · simp [Term.isFunction] at plain
      · rfl
    | const c => rw [Term.subst_const, ← stop, resolve_const]
    | app f args =>
      rw [← stop, resolve_app] at plain
      simp [Term.isFunction] at plain
  | @app t f args results stop lengths below ih =>
    have resolves : Resolves σ t (.app f results) := .app stop lengths below
    have together (n : Nat) (enough : ∀ r ∈ results, (σ.upTo r.size).card < n) :
        args.map (Term.subst (σ.unfold n)) = results := by
      refine List.ext_getElem (by simp [lengths]) (fun i left right => ?_)
      have bound : i < args.length := by simpa using left
      have member : (args[i], results[i]) ∈ args.zip results :=
        List.mem_iff_getElem.mpr ⟨i, by simpa using ⟨bound, right⟩, by simp⟩
      rw [List.getElem_map]
      exact ih _ member n (enough _ (List.getElem_mem right))
    cases t with
    | var x =>
      obtain ⟨n, rfl⟩ := Nat.exists_eq_add_one_of_ne_zero (Nat.ne_zero_of_lt enough)
      rw [Term.subst_var, Substitution.unfold, stop]
      refine congrArg _ (together n (fun r member => ?_))
      have := card_upTo_lt resolves stop (Term.size_lt_of_mem member)
      omega
    | const c => simp at stop
    | app g ts =>
      rw [resolve_app, Term.app.injEq] at stop
      obtain ⟨rfl, rfl⟩ := stop
      rw [Term.subst_app]
      refine congrArg _ (together n (fun r member => ?_))
      exact (Finset.card_le_card (upTo_mono (Term.size_lt_of_mem member).le)).trans_lt enough

/-- Where the calls below function symbols come to an end, as many of them as there are bindings are enough. -/
theorem Resolves.resolveDeep_eq (resolves : Resolves σ t u) : σ.resolveDeep t = u := by
  refine resolves.subst_unfold (σ.size + 1) (Nat.lt_succ_of_le ?_)
  refine (Finset.card_le_card (fun x member => ?_)).trans σ.card_keys_le
  exact (mem_upTo.mp member).1

end Depth

/-- What is asked of a substitution. -/
inductive Lookup where
  | find (t : Term)
  | resolve (t : Term)
  | resolveDeep (t : Term)
  | binds (x : Variable)

/-- The answer, and the substitution that is left: only `find` changes it. -/
def lookup (σ : Substitution) : Lookup → (Term ⊕ Bool) × Substitution
  | .find t => (.inl (σ.find t).1, (σ.find t).2)
  | .resolve t => (.inl (σ.resolve t), σ)
  | .resolveDeep t => (.inl (σ.resolveDeep t), σ)
  | .binds x => (.inr (σ.contains x), σ)

/-- The answers to questions that are asked one after the other, and the substitution left at the end. -/
def lookups : Substitution → List Lookup → List (Term ⊕ Bool) × Substitution
  | σ, [] => ([], σ)
  | σ, q :: qs => ((σ.lookup q).1 :: (lookups (σ.lookup q).2 qs).1, (lookups (σ.lookup q).2 qs).2)

theorem Alike.lookup_eq (alike : Alike σ τ) (q : Lookup) : (τ.lookup q).1 = (σ.lookup q).1 := by
  cases q with
  | find t => exact congrArg Sum.inl (alike.resolve t)
  | resolve t => exact congrArg Sum.inl (alike.resolve t)
  | resolveDeep t => exact congrArg Sum.inl (alike.resolveDeep t)
  | binds x => exact congrArg Sum.inr (alike.contains x)

theorem Loopless.lookup (loopless : Loopless σ) (q : Lookup) :
    Loopless (σ.lookup q).2 ∧ Alike σ (σ.lookup q).2 := by
  cases q with
  | find t => exact ⟨loopless_find loopless rfl, .of_find loopless rfl⟩
  | resolve t => exact ⟨loopless, .refl σ⟩
  | resolveDeep t => exact ⟨loopless, .refl σ⟩
  | binds x => exact ⟨loopless, .refl σ⟩

/-- Each question is answered as if it were the first one. -/
theorem Loopless.lookups (loopless : Loopless σ) (qs : List Lookup) :
    (σ.lookups qs).1 = qs.map (fun q => (σ.lookup q).1) ∧ Alike σ (σ.lookups qs).2 := by
  induction qs generalizing σ with
  | nil => exact ⟨rfl, .refl σ⟩
  | cons q qs ih =>
    obtain ⟨loopless', alike⟩ := loopless.lookup q
    obtain ⟨answers, alike'⟩ := ih loopless'
    refine ⟨?_, alike.trans alike'⟩
    rw [Substitution.lookups, List.map_cons, answers, List.map_congr_left (fun q _ => alike.lookup_eq q)]

/-- Looking up a representative finds what following the bindings one by one finds, whatever the substitution is. Where no
variable leads back to itself from variable to variable, any number of look-ups changes no answer: the substitution they
leave binds the same variables and gives each term the same representative, also below function symbols where resolving
there comes to an end. -/
theorem find_resolves_alike (σ : Substitution) :
    (∀ t, (σ.find t).1 = (σ.collect [] t).2 ∧ σ.resolve t = σ.follow 0 t ∧ (σ.collect [] t).2 = σ.follow 0 t) ∧
      ((∀ x, ¬ Relation.TransGen (fun x y => σ.get? x = some (.var y)) x x) → ∀ qs τ, τ = (σ.lookups qs).2 →
        (σ.lookups qs).1 = qs.map (fun q => (σ.lookup q).1) ∧
        (∀ x, τ.contains x = σ.contains x) ∧
        (∀ t, τ.resolve t = σ.resolve t) ∧
        ∀ t u, (Resolves τ t u ↔ Resolves σ t u) ∧ (Resolves σ t u → σ.resolveDeep t = u ∧ τ.resolveDeep t = u)) := by
  refine ⟨fun t => ⟨?_, (follow_zero σ t).symm, ?_⟩, fun loopless qs τ left => ?_⟩
  · rw [collect_nil]
    rfl
  · rw [collect_nil, follow_zero]
    rfl
  · subst left
    obtain ⟨answers, alike⟩ := Loopless.lookups loopless qs
    refine ⟨answers, alike.contains, alike.resolve, fun t u => ⟨⟨alike.symm.resolves, alike.resolves⟩, fun resolves => ?_⟩⟩
    exact ⟨resolves.resolveDeep_eq, (alike.resolves resolves).resolveDeep_eq⟩

/-- Two chains of variables with one end, and a variable inside a function term bound to it. -/
def branching : Substitution :=
  .ofList [("a", .var "b"), ("b", .var "c"), ("c", .app "f" [.var "x"]), ("d", .var "b"), ("e", .app "g" [.var "e"])]

/-- Look-ups on both chains move the bindings of the variables on them to the end, and nothing is answered otherwise. -/
theorem find_resolves_alike_branching :
    let asked : List Lookup := [.find (.var "a"), .resolveDeep (.var "d"), .find (.var "d"), .resolve (.var "e"), .binds "b"]
    let left := (branching.lookups asked).2
    left.get? "a" ≠ branching.get? "a" ∧ left.get? "d" ≠ branching.get? "d" ∧
      (branching.lookups asked).1 = asked.map (fun q => (branching.lookup q).1) ∧
      (∀ x, left.contains x = branching.contains x) ∧ ∀ t, left.resolve t = branching.resolve t := by
  intro asked left
  have loopless : Loopless branching := loopless_of_entries ["c", "b", "a", "d"].idxOf (by decide +kernel)
  obtain ⟨answers, binds, resolve, -⟩ := (find_resolves_alike branching).2 loopless asked left rfl
  exact ⟨by decide +kernel, by decide +kernel, answers, binds, resolve⟩

end GuardedSaturation.Substitution
