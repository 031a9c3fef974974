import Mathlib
import GuardedSaturation.Proofs.Substitution.Chains

/-! Substitutions without cycles, and their normalization: every bound variable gets its
final image in one step, and no image mentions a bound variable. -/
namespace GuardedSaturation

namespace SortedMap
variable {κ β γ : Type} [Ord κ] [Std.LawfulEqOrd κ] [DecidableEq κ]

theorem get?_filterMap (m : SortedMap κ β) (f : κ → β → Option γ) (k : κ) :
    (m.filterMap f).get? k = (m.get? k).bind (f k) := by
  ext v
  rw [get?_eq_some_iff, Option.bind_eq_some_iff]
  simp only [filterMap, List.mem_filterMap, Option.map_eq_some_iff, Prod.mk.injEq]
  constructor
  · rintro ⟨⟨k, w⟩, member, v, image, rfl, rfl⟩
    exact ⟨w, get?_eq_some_iff.mpr member, image⟩
  · rintro ⟨w, found, image⟩
    exact ⟨(k, w), get?_eq_some_iff.mp found, v, image, rfl, rfl⟩

theorem get?_isSome_iff (m : SortedMap κ β) (k : κ) : (m.get? k).isSome = true ↔ k ∈ m.keys := by
  rw [Option.isSome_iff_exists, keys, List.mem_map]
  constructor
  · rintro ⟨v, found⟩
    exact ⟨(k, v), get?_eq_some_iff.mp found, rfl⟩
  · rintro ⟨⟨k, v⟩, member, rfl⟩
    exact ⟨v, get?_eq_some_iff.mpr member⟩

end SortedMap

namespace Substitution

universe u
variable {M : Interpretation.{u}} {σ σ' : Substitution}

/-- Bindings lead from variables of higher to variables of lower rank. -/
def Ranked (σ : Substitution) (rank : Variable → Nat) : Prop :=
  ∀ x t, σ.get? x = some t → ∀ y ∈ t.vars, rank y < rank x

def Acyclic (σ : Substitution) : Prop := ∃ rank, Ranked σ rank

theorem mem_keys {x : Variable} {t : Term} (bound : σ.get? x = some t) : x ∈ σ.keys.toFinset :=
  List.mem_toFinset.mpr ((SortedMap.get?_isSome_iff σ x).mp (by simp [bound]))

theorem acyclic_empty : Acyclic ∅ := ⟨fun _ => 0, fun x t bound => by simp at bound⟩

theorem Ranked.lt_of_chain {rank : Variable → Nat} (ranked : Ranked σ rank) {path : List Variable}
    {t stop : Term} (chain : Chain σ path t stop) {x y : Variable} (member : x ∈ path)
    (inside : y ∈ stop.vars) : rank y < rank x := by
  induction chain generalizing x with
  | stop t => simp at member
  | @move z t stop path bound rest ih =>
    have first : rank y < rank z := by
      cases rest with
      | stop => exact ranked z t bound y inside
      | @move w => exact (ih List.mem_cons_self inside).trans (ranked z _ bound w (by simp))
    rcases List.mem_cons.mp member with rfl | member
    · exact first
    · exact ih member inside

theorem acyclic_find {t r : Term} (found : σ.find t = (r, σ')) (acyclic : Acyclic σ) : Acyclic σ' := by
  obtain ⟨rank, ranked⟩ := acyclic
  obtain ⟨path, chain, bindings⟩ := find_spec found
  refine ⟨rank, fun x s bound y inside => ?_⟩
  rw [bindings] at bound
  split at bound
  · next member =>
    cases bound
    exact ranked.lt_of_chain chain member inside
  · exact ranked x s bound y inside

/-- A new binding closes no cycle if none of its variables leads back. -/
theorem Acyclic.bind {x : Variable} {t : Term} (acyclic : Acyclic σ)
    (apart : ∀ y ∈ t.vars, ¬ Reaches σ y x) : Acyclic (σ.bind x t) := by
  classical
  obtain ⟨rank, ranked⟩ := acyclic
  obtain ⟨top, above⟩ : ∃ top, ∀ y ∈ t.vars, rank y < top := by
    refine ⟨(t.vars.map rank).sum + 1, fun y inside => ?_⟩
    exact Nat.lt_succ_of_le (List.single_le_sum (by simp) _ (List.mem_map_of_mem inside))
  -- All that leads to the new binding is lifted above what the binding leads to.
  refine ⟨fun z => if Reaches σ z x then rank z + top else rank z, fun z s bound y inside => ?_⟩
  rw [get?_bind] at bound
  split at bound
  · next same =>
    cases bound
    have := above y inside
    simp only [same, if_neg (apart y inside), if_pos (Relation.ReflTransGen.refl (a := x))]
    omega
  · have lower := ranked z s bound y inside
    by_cases leads : Reaches σ y x
    · simp only [leads, if_true, if_pos (Relation.ReflTransGen.head ⟨s, bound, inside⟩ leads)]
      omega
    · simp only [leads, if_false]
      split <;> omega

/-- A binding leads from its variable to the variables of its term. -/
abbrev Leads (σ : Substitution) (x y : Variable) : Prop := ∃ t, σ.get? x = some t ∧ y ∈ t.vars

/-- A relation without cycles that leads on from some variables only: the number of those among them that a variable
reaches gets smaller with each step. -/
theorem exists_rank_of_free {R : Variable → Variable → Prop} (keys : Finset Variable) (within : ∀ x y, R x y → x ∈ keys)
    (free : ∀ x, ¬ Relation.TransGen R x x) :
    ∃ rank : Variable → Nat, (∀ x y, R x y → rank y < rank x) ∧ ∀ x, rank x ≤ keys.card := by
  classical
  refine ⟨fun x => (keys.filter (Relation.ReflTransGen R x ·)).card, fun x y edge => Finset.card_lt_card ?_,
    fun x => Finset.card_filter_le _ _⟩
  refine Finset.ssubset_iff_of_subset ?_ |>.mpr ⟨x, by simpa using ⟨within x y edge, .refl⟩, fun back => ?_⟩
  · exact Finset.monotone_filter_right _ (fun z _ reaches => reaches.head edge)
  · exact free x (.head' edge (Finset.mem_filter.mp back).2)

/-- A relation along which a rank gets smaller has no cycles. -/
theorem free_of_rank {R : Variable → Variable → Prop} (rank : Variable → Nat) (lower : ∀ x y, R x y → rank y < rank x)
    (x : Variable) : ¬ Relation.TransGen R x x := by
  have lower {y z : Variable} (path : Relation.TransGen R y z) : rank z < rank y := by
    induction path with
    | single edge => exact lower _ _ edge
    | tail _ edge ih => exact (lower _ _ edge).trans ih
  exact fun cycle => lt_irrefl _ (lower cycle)

theorem acyclic_iff : Acyclic σ ↔ ∀ x, ¬ Relation.TransGen (Leads σ) x x := by
  constructor
  · intro ⟨rank, ranked⟩
    exact free_of_rank rank (fun x y ⟨t, bound, inside⟩ => ranked x t bound y inside)
  · intro free
    obtain ⟨rank, lower, -⟩ := exists_rank_of_free σ.keys.toFinset (fun x y ⟨t, bound, _⟩ => mem_keys bound) free
    exact ⟨rank, fun x t bound y inside => lower x y ⟨t, bound, inside⟩⟩

/-- The rank can be taken within the number of bound variables. -/
theorem Acyclic.bounded_keys (acyclic : Acyclic σ) :
    ∃ rank, Ranked σ rank ∧ ∀ x, rank x ≤ σ.keys.toFinset.card := by
  obtain ⟨rank, lower, below⟩ :=
    exists_rank_of_free σ.keys.toFinset (fun x y ⟨t, bound, _⟩ => mem_keys bound) (acyclic_iff.mp acyclic)
  exact ⟨rank, fun x t bound y inside => lower x y ⟨t, bound, inside⟩, below⟩

theorem card_keys_le (σ : Substitution) : σ.keys.toFinset.card ≤ σ.size :=
  calc σ.keys.toFinset.card ≤ σ.keys.length := List.toFinset_card_le _
    _ = σ.size := by simp [SortedMap.keys, SortedMap.size]

theorem Acyclic.bounded (acyclic : Acyclic σ) :
    ∃ rank, Ranked σ rank ∧ ∀ x, rank x ≤ σ.size := by
  obtain ⟨rank, ranked, below⟩ := acyclic.bounded_keys
  exact ⟨rank, ranked, fun x => (below x).trans σ.card_keys_le⟩

theorem acyclic_of_entries (rank : Variable → Nat) (lower : ∀ e ∈ σ.entries, ∀ y ∈ e.2.vars, rank y < rank e.1) :
    ∀ x, ¬ Relation.TransGen (Leads σ) x x :=
  acyclic_iff.mp ⟨rank, fun x t bound => lower (x, t) (SortedMap.get?_eq_some_iff.mp bound)⟩

/-- No variable leads back to itself by bindings to variables. Through function terms it may. -/
def Loopless (σ : Substitution) : Prop := ∀ x, ¬ Relation.TransGen (fun x y => σ.get? x = some (.var y)) x x

theorem loopless_of_entries (rank : Variable → Nat)
    (lower : ∀ e ∈ σ.entries, ∀ y ∈ e.2.vars, e.2 = .var y → rank y < rank e.1) : Loopless σ :=
  free_of_rank rank (fun x y bound => lower (x, .var y) (SortedMap.get?_eq_some_iff.mp bound) y (by simp) rfl)

theorem Acyclic.loopless (acyclic : Acyclic σ) : Loopless σ :=
  fun x cycle => acyclic_iff.mp acyclic x (Relation.TransGen.mono (fun _ y bound => ⟨.var y, bound, by simp⟩) x x cycle)

theorem Loopless.exists_rank (loopless : Loopless σ) :
    ∃ rank : Variable → Nat, (∀ x y, σ.get? x = some (.var y) → rank y < rank x) ∧ ∀ x, rank x ≤ σ.size := by
  obtain ⟨rank, lower, below⟩ := exists_rank_of_free σ.keys.toFinset (fun x y bound => mem_keys bound) loopless
  exact ⟨rank, lower, fun x => (below x).trans σ.card_keys_le⟩

theorem chase_unbound {rank : Variable → Nat} (lower : ∀ x y, σ.get? x = some (.var y) → rank y < rank x) (n : Nat)
    (t : Term) (enough : ∀ x, t = .var x → rank x < n) {x : Variable} (stop : (σ.chase n t).2 = .var x) :
    σ.get? x = none := by
  induction n generalizing t with
  | zero => exact absurd (enough x stop) (Nat.not_lt_zero _)
  | succ n ih =>
    cases t with
    | const c => simp [chase] at stop
    | app f args => simp [chase] at stop
    | var y =>
      cases bound : σ.get? y with
      | none =>
        simp only [chase, bound, Term.var.injEq] at stop
        rwa [← stop]
      | some s =>
        simp only [chase, bound] at stop
        refine ih s (fun z same => ?_) stop
        have := lower y z (same ▸ bound)
        have := enough y rfl
        omega

theorem resolve_unbound (loopless : Loopless σ) {t : Term} {x : Variable} (stop : σ.resolve t = .var x) :
    σ.get? x = none := by
  obtain ⟨rank, lower, below⟩ := loopless.exists_rank
  exact chase_unbound lower _ t (fun y _ => Nat.lt_succ_of_le (below y)) stop

theorem find_unbound (loopless : Loopless σ) {t : Term} {x : Variable} (found : σ.find t = (.var x, σ')) :
    σ'.get? x = none :=
  (find_get?_eq_none found).mpr (resolve_unbound loopless (congrArg Prod.fst found))

theorem resolve_chain (σ : Substitution) (t : Term) : ∃ path, Chain σ path t (σ.resolve t) :=
  ⟨_, chase_chain σ (σ.size + 1) t⟩

theorem resolve_bound (loopless : Loopless σ) {x : Variable} {t : Term} (bound : σ.get? x = some t) :
    σ.resolve (.var x) = σ.resolve t := by
  obtain ⟨path, chain⟩ := resolve_chain σ (.var x)
  obtain ⟨path', chain'⟩ := resolve_chain σ t
  exact chain.unique (.move bound chain') (fun _ => resolve_unbound loopless)
    (fun _ => resolve_unbound loopless)

theorem resolve_var_unbound {x : Variable} (unbound : σ.get? x = none) : σ.resolve (.var x) = .var x := by
  simp [resolve, walk, chase, unbound]

@[simp] theorem resolve_const (c : String) : σ.resolve (.const c) = .const c := by
  simp [resolve, walk, chase]

@[simp] theorem resolve_app (f : String) (args : List Term) : σ.resolve (.app f args) = .app f args := by
  simp [resolve, walk, chase]

theorem Ranked.lt_of_resolve {rank : Variable → Nat} (ranked : Ranked σ rank) {x y : Variable} {f : String}
    {args : List Term} (stop : σ.resolve (.var x) = .app f args) (inside : y ∈ (Term.app f args).vars) :
    rank y < rank x := by
  obtain ⟨path, chain⟩ := resolve_chain σ (.var x)
  rw [stop] at chain
  cases chain with
  | move bound rest => exact ranked.lt_of_chain (.move bound rest) List.mem_cons_self inside

theorem Ranked.unfold_stable {rank : Variable → Nat} (ranked : Ranked σ rank) (n m : Nat) (x : Variable)
    (enough : rank x < n) (enough' : rank x < m) : σ.unfold n x = σ.unfold m x := by
  induction n generalizing m x with
  | zero => simp at enough
  | succ n ih =>
    cases m with
    | zero => simp at enough'
    | succ m =>
      cases stop : σ.resolve (.var x) with
      | var y => simp [unfold, stop]
      | const c => simp [unfold, stop]
      | app f args =>
        simp only [unfold, stop, Term.app.injEq, true_and]
        apply List.map_congr_left
        intro t member
        apply Term.subst_congr
        intro y inside
        have lower : rank y < rank x :=
          ranked.lt_of_resolve stop (by simpa using ⟨t, member, inside⟩)
        exact ih m y (by omega) (by omega)

def final (σ : Substitution) : Variable → Term := σ.unfold (σ.size + 1)

theorem final_unbound {x : Variable} (unbound : σ.get? x = none) : σ.final x = .var x := by
  simp [final, unfold, resolve_var_unbound unbound]

theorem final_bound (acyclic : Acyclic σ) {x : Variable} {t : Term} (bound : σ.get? x = some t) :
    σ.final x = t.subst σ.final := by
  have same := resolve_bound acyclic.loopless bound
  cases t with
  | var y => simp [final, unfold, same]
  | const c => simp [final, unfold, same]
  | app f args =>
    obtain ⟨rank, ranked, below⟩ := acyclic.bounded
    simp only [final, unfold, same, resolve_app, Term.subst_app, Term.app.injEq, true_and]
    apply List.map_congr_left
    intro t member
    apply Term.subst_congr
    intro y inside
    have lower : rank y < rank x := ranked x _ bound y (by simpa using ⟨t, member, inside⟩)
    have := below x
    exact ranked.unfold_stable σ.size (σ.size + 1) y (by omega) (by omega)

/-- What holds of unbound variables and passes from a binding to its variable holds of all. -/
theorem Acyclic.induction {P : Variable → Prop} (acyclic : Acyclic σ)
    (unbound : ∀ x, σ.get? x = none → P x)
    (bound : ∀ x t, σ.get? x = some t → (∀ y ∈ t.vars, P y) → P x) (x : Variable) : P x := by
  obtain ⟨rank, ranked⟩ := acyclic
  induction x using (measure rank).wf.induction with
  | h x ih =>
    cases present : σ.get? x with
    | none => exact unbound x present
    | some t => exact bound x t present (fun y inside => ih y (ranked x t present y inside))

theorem final_vars (acyclic : Acyclic σ) (x : Variable) : ∀ y ∈ (σ.final x).vars, σ.get? y = none := by
  refine acyclic.induction (P := fun x => ∀ y ∈ (σ.final x).vars, σ.get? y = none) ?_ ?_ x
  · intro x unbound y inside
    rw [final_unbound unbound, Term.vars_var, List.mem_singleton] at inside
    rwa [inside]
  · intro x t bound ih y inside
    rw [final_bound acyclic bound, Term.mem_vars_subst] at inside
    obtain ⟨z, inside, image⟩ := inside
    exact ih z inside y image

theorem Solves.value_final {v : M.Assignment} (solves : Solves M v σ) (acyclic : Acyclic σ) (x : Variable) :
    M.value v (σ.final x) = v x := by
  refine acyclic.induction (P := fun x => M.value v (σ.final x) = v x) ?_ ?_ x
  · intro x unbound
    rw [final_unbound unbound, Interpretation.value_var]
  · intro x t bound ih
    rw [final_bound acyclic bound, Interpretation.value_subst, solves x t bound]
    exact Interpretation.value_congr ih

theorem solves_of_value_final {v : M.Assignment} (acyclic : Acyclic σ)
    (images : ∀ x, M.value v (σ.final x) = v x) : Solves M v σ := by
  intro x t bound
  rw [← images x, final_bound acyclic bound, Interpretation.value_subst]
  exact Interpretation.value_congr (fun y _ => images y)

theorem get?_normalized (σ : Substitution) (x : Variable) :
    σ.normalized.get? x =
      (σ.get? x).bind (fun _ => if σ.final x = .var x then none else some (σ.final x)) := by
  rw [normalized, SortedMap.get?_filterMap]
  simp only [resolveDeep, final, Term.subst_var]
  rfl

theorem image_normalized (σ : Substitution) : σ.normalized.image = σ.final := by
  funext x
  rw [image, get?_normalized]
  cases bound : σ.get? x with
  | none => simp [final_unbound bound]
  | some t =>
    simp only [Option.bind_some]
    split
    · next same => simp [same]
    · rfl

/-- No image mentions a bound variable. -/
def Normal (σ : Substitution) : Prop := ∀ x t, σ.get? x = some t → ∀ y ∈ t.vars, σ.get? y = none

theorem normal_empty : Normal ∅ := fun x t bound => by simp at bound

theorem Normal.acyclic (normal : Normal σ) : Acyclic σ := by
  refine ⟨fun x => if (σ.get? x).isSome then 1 else 0, fun x t bound y inside => ?_⟩
  simp [bound, normal x t bound y inside]

theorem Normal.image_vars (normal : Normal σ) (x : Variable) : ∀ y ∈ (σ.image x).vars, σ.get? y = none := by
  unfold image
  cases bound : σ.get? x with
  | none => simpa using bound
  | some t => exact normal x t bound

theorem Normal.image_idem (normal : Normal σ) (t : Term) :
    (t.subst σ.image).subst σ.image = t.subst σ.image := by
  rw [Term.subst_subst]
  apply Term.subst_congr
  intro x _
  conv_rhs => rw [← Term.subst_self (σ.image x)]
  exact Term.subst_congr (fun y inside => by simp [image, normal.image_vars x y inside])

/-- As a replacement, a normal substitution solves itself. -/
theorem Normal.solves_image (normal : Normal σ) : Solves .free σ.image σ := by
  intro x t bound
  have := normal.image_idem (.var x)
  simp only [Term.subst_var, image, bound, Option.getD_some] at this
  rw [Interpretation.value_free, image, bound, Option.getD_some]
  exact this.symm

theorem normalized_normal (acyclic : Acyclic σ) : Normal σ.normalized := by
  intro x t bound y inside
  rw [get?_normalized] at bound ⊢
  obtain ⟨s, -, image⟩ := Option.bind_eq_some_iff.mp bound
  split at image
  · simp at image
  · cases image
    simp [final_vars acyclic x y inside]

theorem solves_normalized (acyclic : Acyclic σ) {v : M.Assignment} :
    Solves M v σ.normalized ↔ Solves M v σ := by
  constructor
  · intro solves
    apply solves_of_value_final acyclic
    intro x
    rw [← image_normalized]
    exact solves.value_image x
  · intro solves x t bound
    rw [get?_normalized] at bound
    obtain ⟨s, -, image⟩ := Option.bind_eq_some_iff.mp bound
    split at image
    · simp at image
    · cases image
      exact (solves.value_final acyclic x).symm

end Substitution
end GuardedSaturation
