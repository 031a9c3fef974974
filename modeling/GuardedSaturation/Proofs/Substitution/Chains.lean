import Mathlib
import GuardedSaturation.Substitution
import GuardedSaturation.Proofs.Structures

/-! Chains of bindings and their solutions. A chain leads from a term to its representative;
compressing it changes neither the assignments that solve a substitution nor the variables
that one variable reaches. -/
namespace GuardedSaturation.Substitution

universe u
variable {M : Interpretation.{u}} {σ σ' : Substitution}

theorem get?_bind (σ : Substitution) (x y : Variable) (t : Term) :
    (σ.bind x t).get? y = if y = x then some t else σ.get? y := SortedMap.get?_insert

/-- The assignment gives every bound variable the value of its binding. -/
def Solves (M : Interpretation.{u}) (v : M.Assignment) (σ : Substitution) : Prop :=
  ∀ x t, σ.get? x = some t → v x = M.value v t

theorem solves_empty (v : M.Assignment) : Solves M v ∅ := by
  intro x t bound
  simp at bound

theorem Solves.value_image {v : M.Assignment} (solves : Solves M v σ) (x : Variable) :
    M.value v (σ.image x) = v x := by
  unfold image
  cases bound : σ.get? x with
  | none => simp
  | some t => simpa using (solves x t bound).symm

theorem Solves.bind {v : M.Assignment} {x : Variable} {t : Term} (unbound : σ.get? x = none) :
    Solves M v (σ.bind x t) ↔ Solves M v σ ∧ v x = M.value v t := by
  constructor
  · intro solves
    refine ⟨fun y s bound => solves y s ?_, solves x t (by simp [get?_bind])⟩
    rw [get?_bind, if_neg, bound]
    rintro rfl
    simp [unbound] at bound
  · rintro ⟨solves, equal⟩ y s bound
    rw [get?_bind] at bound
    split at bound
    · next same =>
      cases bound
      rw [same, equal]
    · exact solves y s bound

/-- The bindings from a term to another: the variables left behind, in order. -/
inductive Chain (σ : Substitution) : List Variable → Term → Term → Prop
  | stop (t : Term) : Chain σ [] t t
  | move {x : Variable} {t stop : Term} {path : List Variable} (bound : σ.get? x = some t)
      (rest : Chain σ path t stop) : Chain σ (x :: path) (.var x) stop

theorem chase_chain (σ : Substitution) (n : Nat) (t : Term) :
    Chain σ (σ.chase n t).1 t (σ.chase n t).2 := by
  induction n generalizing t with
  | zero => exact .stop t
  | succ n ih =>
    cases t with
    | const c => exact .stop _
    | app f args => exact .stop _
    | var x =>
      cases bound : σ.get? x with
      | none =>
        simp only [chase, bound]
        exact .stop _
      | some t =>
        simp only [chase, bound]
        exact .move bound (ih t)

namespace Chain

theorem value {v : M.Assignment} (solves : Solves M v σ) {path : List Variable} {t stop : Term}
    (chain : Chain σ path t stop) : M.value v t = M.value v stop := by
  induction chain with
  | stop t => rfl
  | move bound rest ih => rw [Interpretation.value_var, solves _ _ bound, ih]

theorem value_path {v : M.Assignment} (solves : Solves M v σ) {path : List Variable} {t stop : Term}
    (chain : Chain σ path t stop) {x : Variable} (member : x ∈ path) : v x = M.value v stop := by
  induction chain with
  | stop t => simp at member
  | move bound rest ih =>
    rcases List.mem_cons.mp member with rfl | member
    · rw [solves _ _ bound, rest.value solves]
    · exact ih member

theorem next {path : List Variable} {t stop : Term} (chain : Chain σ path t stop) {x : Variable}
    (member : x ∈ path) : ∃ s, σ.get? x = some s ∧ (s = stop ∨ ∃ y ∈ path, s = .var y) := by
  induction chain with
  | stop t => simp at member
  | @move z t stop path bound rest ih =>
    rcases List.mem_cons.mp member with rfl | member
    · refine ⟨t, bound, ?_⟩
      cases rest with
      | stop => exact .inl rfl
      | @move y => exact .inr ⟨y, by simp, rfl⟩
    · obtain ⟨s, bound, rfl | ⟨y, present, rfl⟩⟩ := ih member
      · exact ⟨s, bound, .inl rfl⟩
      · exact ⟨.var y, bound, .inr ⟨y, List.mem_cons_of_mem _ present, rfl⟩⟩

theorem unique {path path' : List Variable} {t stop stop' : Term} (chain : Chain σ path t stop)
    (other : Chain σ path' t stop') (ended : ∀ x, stop = .var x → σ.get? x = none)
    (ended' : ∀ x, stop' = .var x → σ.get? x = none) : stop = stop' := by
  induction chain generalizing path' with
  | stop t =>
    cases other with
    | stop => rfl
    | move bound rest => simp [ended _ rfl] at bound
  | move bound rest ih =>
    cases other with
    | stop => simp [ended' _ rfl] at bound
    | move bound' rest' =>
      rw [bound] at bound'
      cases bound'
      exact ih rest' ended

end Chain

theorem get?_foldl_bind (path : List Variable) (stop : Term) (σ : Substitution) (y : Variable) :
    (path.foldl (fun σ x => σ.bind x stop) σ).get? y = if y ∈ path then some stop else σ.get? y := by
  induction path generalizing σ with
  | nil => simp
  | cons x path ih =>
    rw [List.foldl_cons, ih, get?_bind]
    by_cases first : y = x <;> by_cases later : y ∈ path <;> simp [first, later]

theorem Chain.get?_compressed {path : List Variable} {t stop : Term} (chain : Chain σ path t stop)
    (y : Variable) :
    (if path.length ≤ 1 then σ else path.foldl (fun σ x => σ.bind x stop) σ).get? y =
      if y ∈ path then some stop else σ.get? y := by
  split
  · next short =>
    cases chain with
    | stop => simp
    | @move x _ _ _ bound rest =>
      cases rest with
      | stop =>
        by_cases same : y = x
        · simp [same, bound]
        · simp [same]
      | move => simp at short
  · exact get?_foldl_bind path stop σ y

/-- What `find` answers is the end of a chain, and the variables of the chain are bound to it. -/
theorem find_spec {t r : Term} (found : σ.find t = (r, σ')) :
    ∃ path, Chain σ path t r ∧ ∀ y, σ'.get? y = if y ∈ path then some r else σ.get? y := by
  have chain := chase_chain σ (σ.size + 1) t
  obtain ⟨rfl, rfl⟩ := Prod.mk.inj found
  exact ⟨_, chain, chain.get?_compressed⟩

theorem find_value {v : M.Assignment} (solves : Solves M v σ) {t r : Term} (found : σ.find t = (r, σ')) :
    M.value v r = M.value v t := by
  obtain ⟨path, chain, -⟩ := find_spec found
  exact (chain.value solves).symm

theorem find_solves {v : M.Assignment} {t r : Term} (found : σ.find t = (r, σ')) :
    Solves M v σ' ↔ Solves M v σ := by
  obtain ⟨path, chain, bindings⟩ := find_spec found
  constructor
  · intro solves
    have onPath {x : Variable} (member : x ∈ path) : v x = M.value v r :=
      solves x r (by rw [bindings, if_pos member])
    intro x s bound
    by_cases member : x ∈ path
    · obtain ⟨s', bound', rfl | ⟨y, present, rfl⟩⟩ := chain.next member
      · rw [bound] at bound'
        cases bound'
        exact onPath member
      · rw [bound] at bound'
        cases bound'
        rw [Interpretation.value_var, onPath member, onPath present]
    · exact solves x s (by rw [bindings, if_neg member, bound])
  · intro solves x s bound
    rw [bindings] at bound
    split at bound
    · next member =>
      cases bound
      exact chain.value_path solves member
    · exact solves x s bound

theorem find_get?_eq_none {t r : Term} (found : σ.find t = (r, σ')) {x : Variable} :
    σ'.get? x = none ↔ σ.get? x = none := by
  obtain ⟨path, chain, bindings⟩ := find_spec found
  rw [bindings]
  split
  · next member =>
    obtain ⟨s, bound, -⟩ := chain.next member
    simp [bound]
  · rfl

/-- One variable leads to another through bindings, function terms included. -/
abbrev Reaches (σ : Substitution) : Variable → Variable → Prop :=
  Relation.ReflTransGen (fun x y => ∃ t, σ.get? x = some t ∧ y ∈ t.vars)

theorem Chain.reaches {path : List Variable} {t stop : Term} (chain : Chain σ path t stop) {x y : Variable}
    (member : x ∈ path) (inside : y ∈ stop.vars) : Reaches σ x y := by
  induction chain generalizing x with
  | stop t => simp at member
  | @move z t stop path bound rest ih =>
    rcases List.mem_cons.mp member with rfl | member
    · cases rest with
      | stop => exact .single ⟨t, bound, inside⟩
      | @move w => exact .head ⟨.var w, bound, by simp⟩ (ih List.mem_cons_self inside)
    · exact ih member inside

theorem find_reaches {t r : Term} (found : σ.find t = (r, σ')) {x y : Variable}
    (reaches : Reaches σ' x y) : Reaches σ x y := by
  obtain ⟨path, chain, bindings⟩ := find_spec found
  induction reaches with
  | refl => exact .refl
  | @tail y z _ edge ih =>
    obtain ⟨s, bound, inside⟩ := edge
    rw [bindings] at bound
    split at bound
    · next member =>
      cases bound
      exact ih.trans (chain.reaches member inside)
    · exact ih.tail ⟨s, bound, inside⟩

/-- Whatever unbound variable the start of a chain reaches, its end reaches too. -/
theorem Chain.reaches_of_stop {path : List Variable} {t stop : Term} {x z : Variable}
    (chain : Chain σ path t stop) (inside : z ∈ t.vars) (reaches : Reaches σ z x)
    (unbound : σ.get? x = none) : ∃ w ∈ stop.vars, Reaches σ w x := by
  induction chain generalizing z with
  | stop t => exact ⟨z, inside, reaches⟩
  | @move w t stop path bound rest ih =>
    simp only [Term.vars_var, List.mem_singleton] at inside
    subst inside
    rcases reaches.cases_head with rfl | ⟨w, ⟨s, bound', inside⟩, reaches⟩
    · simp [unbound] at bound
    · rw [bound] at bound'
      cases bound'
      exact ih inside reaches

end GuardedSaturation.Substitution
