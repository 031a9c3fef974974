import Mathlib

/-! Folds whose steps can fail: where they end, what every step keeps, and when no step fails. -/
namespace GuardedSaturation
variable {α β ε : Type} {f : β → α → Except ε β} {l : List α} {b c : β}

theorem bind_ok {γ : Type} {first : Except ε β} {next : β → Except ε γ} {result : γ} :
    (first >>= next) = .ok result ↔ ∃ value, first = .ok value ∧ next value = .ok result := by
  cases first <;> simp [Bind.bind, Except.bind]

theorem foldlM_cons_ok {a : α} {b' : β} (here : f b a = .ok b') (l : List α) : (a :: l).foldlM f b = l.foldlM f b' := by
  rw [List.foldlM_cons, here]
  rfl

theorem foldlM_cons_error {a : α} {e : ε} (here : f b a = .error e) (l : List α) : (a :: l).foldlM f b = .error e := by
  rw [List.foldlM_cons, here]
  rfl

/-- A fold comes to an end, or fails at some entry. -/
theorem foldlM_cases (f : β → α → Except ε β) (l : List α) (b : β) :
    (∃ c, l.foldlM f b = .ok c) ∨
      ∃ before a after c e, l = before ++ a :: after ∧ before.foldlM f b = .ok c ∧ f c a = .error e ∧
        l.foldlM f b = .error e := by
  induction l generalizing b with
  | nil => exact .inl ⟨b, rfl⟩
  | cons a l ih =>
    cases here : f b a with
    | error e => exact .inr ⟨[], a, l, b, e, rfl, rfl, here, foldlM_cons_error here l⟩
    | ok b' =>
      obtain ⟨c, ok⟩ | ⟨before, a', after, c, e, rfl, ok, fails, error⟩ := ih b'
      · exact .inl ⟨c, (foldlM_cons_ok here l).trans ok⟩
      · exact .inr ⟨a :: before, a', after, c, e, rfl, (foldlM_cons_ok here before).trans ok, fails,
          (foldlM_cons_ok here _).trans error⟩

/-- What every step keeps of the entries done holds of all entries in the end. -/
theorem foldlM_invariant {I : List α → β → Prop}
    (step : ∀ done b a b', a ∈ l → I done b → f b a = .ok b' → I (done ++ [a]) b') (start : I [] b)
    (ok : l.foldlM f b = .ok c) : I l c := by
  suffices ∀ (todo done : List α) (b : β), todo ⊆ l → I done b → todo.foldlM f b = .ok c → I (done ++ todo) c from
    this l [] b (List.Subset.refl l) start ok
  intro todo
  induction todo with
  | nil =>
    intro done b _ holds ok
    obtain rfl : b = c := Except.ok.inj ok
    rwa [List.append_nil]
  | cons a todo ih =>
    intro done b within holds ok
    rw [List.foldlM_cons] at ok
    obtain ⟨b', here, rest⟩ := bind_ok.mp ok
    obtain ⟨member, within⟩ := List.cons_subset.mp within
    rw [List.append_cons]
    exact ih (done ++ [a]) b' within (step done b a b' member holds here) rest

/-- A fold ends if every step does from where the ones before it have led. -/
theorem foldlM_exists {P : β → Prop} (each : ∀ b, ∀ a ∈ l, P b → ∃ b', f b a = .ok b' ∧ P b') (start : P b) :
    ∃ c, l.foldlM f b = .ok c ∧ P c := by
  induction l generalizing b with
  | nil => exact ⟨b, rfl, start⟩
  | cons a l ih =>
    obtain ⟨b', here, good⟩ := each b a List.mem_cons_self start
    obtain ⟨c, rest, last⟩ := ih (fun b a' member => each b a' (List.mem_cons_of_mem a member)) good
    exact ⟨c, (foldlM_cons_ok here l).trans rest, last⟩

/-- Lists of the same length have the same images if their entries do, one by one. -/
theorem map_eq_map_iff_zip {α β : Type*} {g : α → β} {l m : List α} (lengths : l.length = m.length) :
    l.map g = m.map g ↔ ∀ p ∈ l.zip m, g p.1 = g p.2 := by
  rw [← List.forall₂_eq_eq_eq, List.forall₂_map_left_iff, List.forall₂_map_right_iff, List.forall₂_iff_zip, Prod.forall]
  exact and_iff_right lengths

end GuardedSaturation
