import Mathlib
import GuardedSaturation.Proofs.Substitution.Normalization

/-! Representatives. Looking one up changes none of them, new bindings leave function terms where they are, and where no
variable leads back to itself, the representatives below function symbols are found by finitely many calls. -/
namespace GuardedSaturation.Substitution
variable {σ σ' τ : Substitution}

theorem Chain.from_mem {path : List Variable} {t stop : Term} (chain : Chain σ path t stop) {x : Variable}
    (member : x ∈ path) : ∃ rest, Chain σ rest (.var x) stop := by
  induction chain with
  | stop t => simp at member
  | move bound rest ih =>
    rcases List.mem_cons.mp member with rfl | member
    · exact ⟨_, .move bound rest⟩
    · exact ih member

theorem Chain.bind {path : List Variable} {t stop : Term} (chain : Chain σ path t stop) {x : Variable}
    (unbound : σ.get? x = none) (image : Term) : Chain (σ.bind x image) path t stop := by
  induction chain with
  | stop t => exact .stop t
  | move bound rest ih =>
    refine .move ?_ ih
    rw [get?_bind, if_neg, bound]
    rintro rfl
    simp [unbound] at bound

theorem resolve_eq_of_chain (loopless : Loopless σ) {path : List Variable} {t stop : Term} (chain : Chain σ path t stop)
    (ended : ∀ x, stop = .var x → σ.get? x = none) : σ.resolve t = stop := by
  obtain ⟨path', chain'⟩ := resolve_chain σ t
  exact chain'.unique chain (fun _ => resolve_unbound loopless) ended

/-- What holds where no binding leads on to a variable, and passes back along those that do, holds of all variables. -/
theorem Loopless.induction {P : Variable → Prop} (loopless : Loopless σ) (stuck : ∀ x, (∀ y, σ.get? x ≠ some (.var y)) → P x)
    (step : ∀ x y, σ.get? x = some (.var y) → P y → P x) (x : Variable) : P x := by
  obtain ⟨rank, lower, -⟩ := loopless.exists_rank
  induction x using (measure rank).wf.induction with
  | h x ih =>
    by_cases leads : ∃ y, σ.get? x = some (.var y)
    · obtain ⟨y, bound⟩ := leads
      exact step x y bound (ih y (lower x y bound))
    · exact stuck x (fun y bound => leads ⟨y, bound⟩)

theorem Chain.leads {path : List Variable} {t stop : Term} (chain : Chain σ path t stop) {x y : Variable}
    (member : x ∈ path) (ends : stop = .var y) : Relation.TransGen (fun x y => σ.get? x = some (.var y)) x y := by
  induction chain generalizing x with
  | stop t => simp at member
  | @move z t stop path bound rest ih =>
    subst ends
    rcases List.mem_cons.mp member with rfl | member
    · cases rest with
      | stop => exact .single bound
      | @move w => exact .head bound (ih List.mem_cons_self rfl)
    · exact ih member rfl

/-- A compressed chain leads nowhere that it did not lead before. -/
theorem loopless_find (loopless : Loopless σ) {t r : Term} (found : σ.find t = (r, σ')) : Loopless σ' := by
  obtain ⟨path, chain, bindings⟩ := find_spec found
  intro x cycle
  refine loopless x (Relation.TransGen.closed (fun y z bound => ?_) x x cycle)
  rw [bindings] at bound
  split at bound
  · next member => exact chain.leads member (Option.some.inj bound)
  · exact .single bound

/-- Compression changes no representative. -/
theorem resolve_find (loopless : Loopless σ) {t r : Term} (found : σ.find t = (r, σ')) (x : Variable) :
    σ'.resolve (.var x) = σ.resolve (.var x) := by
  obtain ⟨path, chain, bindings⟩ := find_spec found
  have loopless' := loopless_find loopless found
  have ended (y : Variable) (stop : r = .var y) : σ'.get? y = none := find_unbound loopless (stop ▸ found)
  -- A variable of the chain is bound to its representative now; any other one keeps its binding.
  have onPath (x : Variable) (member : x ∈ path) : σ'.resolve (.var x) = σ.resolve (.var x) := by
    obtain ⟨rest, tail⟩ := chain.from_mem member
    rw [resolve_eq_of_chain loopless tail (fun y stop => (find_get?_eq_none found).mp (ended y stop))]
    exact resolve_eq_of_chain loopless' (.move (by rw [bindings, if_pos member]) (.stop r)) ended
  refine loopless.induction (P := fun x => σ'.resolve (.var x) = σ.resolve (.var x)) (fun x stuck => ?_)
    (fun x y bound ih => ?_) x
  · by_cases member : x ∈ path
    · exact onPath x member
    · have same : σ'.get? x = σ.get? x := by rw [bindings, if_neg member]
      cases bound : σ.get? x with
      | none => rw [resolve_var_unbound bound, resolve_var_unbound (same.trans bound)]
      | some s =>
        rw [resolve_bound loopless bound, resolve_bound loopless' (same.trans bound)]
        cases s with
        | var y => exact absurd bound (stuck y)
        | const c => rw [resolve_const, resolve_const]
        | app f args => rw [resolve_app, resolve_app]
  · by_cases member : x ∈ path
    · exact onPath x member
    · rw [resolve_bound loopless bound, resolve_bound loopless' (by rw [bindings, if_neg member, bound]), ih]

/-- Function terms stay representatives from one substitution to the other. -/
def Persists (σ σ' : Substitution) : Prop :=
  ∀ t f args, σ.resolve t = .app f args → σ'.resolve t = .app f args

namespace Persists

theorem refl (σ : Substitution) : Persists σ σ := fun _ _ _ stop => stop

theorem trans (first : Persists σ σ') (second : Persists σ' τ) : Persists σ τ :=
  fun t f args stop => second t f args (first t f args stop)

theorem of_find (acyclic : Acyclic σ) {t r : Term} (found : σ.find t = (r, σ')) : Persists σ σ' := by
  intro s f args stop
  cases s with
  | var x => rwa [resolve_find acyclic.loopless found]
  | const c => rwa [resolve_const] at stop ⊢
  | app g ts => rwa [resolve_app] at stop ⊢

theorem of_bind {x : Variable} {t : Term} (unbound : σ.get? x = none) (acyclic : Acyclic (σ.bind x t)) :
    Persists σ (σ.bind x t) := by
  intro s f args stop
  obtain ⟨path, chain⟩ := resolve_chain σ s
  rw [stop] at chain
  exact resolve_eq_of_chain acyclic.loopless (chain.bind unbound t) (by simp)

end Persists

/-- A term and its representative, also below function symbols: one call for each function term that is met. -/
inductive Resolves (σ : Substitution) : Term → Term → Prop
  | plain {t r : Term} (stop : σ.resolve t = r) (plain : r.isFunction = false) : Resolves σ t r
  | app {t : Term} {f : String} {args results : List Term} (stop : σ.resolve t = .app f args)
      (lengths : args.length = results.length) (below : ∀ p ∈ args.zip results, Resolves σ p.1 p.2) :
      Resolves σ t (.app f results)

namespace Resolves
variable {t u u' : Term}

theorem unique (resolves : Resolves σ t u) (other : Resolves σ t u') : u = u' := by
  induction resolves generalizing u' with
  | plain stop plain =>
    cases other with
    | plain stop' => rw [← stop, stop']
    | app stop' =>
      rw [stop] at stop'
      simp [stop', Term.isFunction] at plain
  | @app t f args results stop lengths below ih =>
    cases other with
    | plain stop' plain =>
      rw [stop] at stop'
      simp [← stop', Term.isFunction] at plain
    | @app _ _ _ results' stop' lengths' below' =>
      rw [stop, Term.app.injEq] at stop'
      obtain ⟨rfl, rfl⟩ := stop'
      refine congrArg _ (List.ext_getElem (lengths.symm.trans lengths') (fun i left right => ?_))
      have member : (args[i], results[i]) ∈ args.zip results := List.mem_iff_getElem.mpr ⟨i, by simp [*], by simp⟩
      have member' : (args[i], results'[i]) ∈ args.zip results' := List.mem_iff_getElem.mpr ⟨i, by simp [*], by simp⟩
      exact ih _ member (below' _ member')

theorem of_resolve {s : Term} (same : σ.resolve s = σ.resolve t) (resolves : Resolves σ t u) : Resolves σ s u := by
  cases resolves with
  | plain stop plain => exact .plain (same.trans stop) plain
  | app stop lengths below => exact .app (same.trans stop) lengths below

theorem of_vars {g : Variable → Term} (images : ∀ x ∈ t.vars, Resolves σ (.var x) (g x)) : Resolves σ t (t.subst g) := by
  induction t with
  | var x => simpa using images x
  | const c =>
    rw [Term.subst_const]
    exact .plain (resolve_const c) rfl
  | app f args ih =>
    rw [Term.subst_app]
    refine .app (resolve_app f args) (by simp) (fun p member => ?_)
    obtain ⟨i, bound, rfl⟩ := List.mem_iff_getElem.mp member
    rw [List.length_zip, List.length_map, min_self] at bound
    rw [List.getElem_zip, List.getElem_map]
    exact ih _ (List.getElem_mem bound) (fun x mentioned => images x (by simpa using ⟨_, List.getElem_mem bound, mentioned⟩))

end Resolves

/-- Where no variable leads back to itself, the calls come to an end, with the term that replacement by the images of
the variables gives. -/
theorem resolves_iff (acyclic : Acyclic σ) {t u : Term} : Resolves σ t u ↔ u = σ.resolveDeep t := by
  have image (x : Variable) : Resolves σ (.var x) (σ.final x) := by
    refine acyclic.induction (P := fun x => Resolves σ (.var x) (σ.final x)) ?_ ?_ x
    · intro x unbound
      rw [final_unbound unbound]
      exact .plain (resolve_var_unbound unbound) rfl
    · intro x s bound images
      rw [final_bound acyclic bound]
      exact (Resolves.of_vars images).of_resolve (resolve_bound acyclic.loopless bound)
  have deep : Resolves σ t (σ.resolveDeep t) := .of_vars (fun x _ => image x)
  constructor
  · exact fun resolves => resolves.unique deep
  · rintro rfl
    exact deep

end GuardedSaturation.Substitution
