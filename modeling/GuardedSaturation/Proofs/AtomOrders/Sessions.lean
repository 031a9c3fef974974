import Mathlib
import GuardedSaturation.Proofs.AtomOrders.Keys

/-! All that is asked of an order on atoms, however many symbols get their numbers in between. Numbers once given stay,
and atoms whose symbols all have numbers are equal only if they are the same; so one strict total order of the atoms
seen explains every answer. -/
namespace GuardedSaturation.AtomOrder
variable {o p : AtomOrder} {a b : Atom}

/-- The strict order that an order on atoms stands for once it knows them. -/
def Before (p : AtomOrder) (a b : Atom) : Prop := p.compareNoted a b = .lt

/-- The greatest one of some atoms. -/
structure Greatest (before : Atom → Atom → Prop) (atoms : List Atom) (a : Atom) : Prop where
  member : a ∈ atoms
  above : ∀ b ∈ atoms, b ≠ a → before b a

section Greatest
variable {atoms : List Atom}

theorem exists_greatest_of_knows (known : ∀ a ∈ atoms, p.Knows a) (some : atoms ≠ []) : ∃ a, Greatest p.Before atoms a := by
  obtain ⟨a, member, greatest⟩ := exists_greatest (o := p) some
  refine ⟨a, member, fun b inside apart => ?_⟩
  have unequal : p.compareNoted a b ≠ .eq := fun equal => apart ((compareNoted_eq_eq (known a member)).mp equal).symm
  rw [Before, compareNoted_swap]
  cases order : p.compareNoted a b with
  | lt => exact absurd order (greatest b inside)
  | eq => exact absurd order unequal
  | gt => rfl

/-- Of atoms that are known in the end, the copies of the greatest are maximal. -/
theorem Greatest.maximal_eq (longer : p.Extends (o.noteAll atoms)) (greatest : Greatest p.Before atoms a) :
    (o.maximal atoms).1 = atoms.filter (· = a) := by
  have known (b : Atom) (member : b ∈ atoms) : (o.noteAll atoms).Knows b := o.knows_noteAll member
  refine List.filter_congr (fun b member => ?_)
  rw [Bool.eq_iff_iff, List.all_eq_true, decide_eq_true_eq]
  constructor
  · intro unexceeded
    by_contra apart
    have exceeded : (o.noteAll atoms).compareNoted b a = .lt :=
      (longer.compareNoted (known b member) (known a greatest.member)).symm.trans (greatest.above b member apart)
    simpa [exceeded] using unexceeded a greatest.member
  · rintro rfl c inside
    by_cases same : c = b
    · simp [same, compareNoted_self]
    · have below := greatest.above c inside same
      rw [Before, longer.compareNoted (known c inside) (known b member)] at below
      simp [compareNoted_swap _ b c, below]

theorem maximal_agrees (longer : p.Extends (o.noteAll atoms)) (some : atoms ≠ []) :
    ∃ a, Greatest p.Before atoms a ∧ (o.maximal atoms).1 = atoms.filter (· = a) ∧
      (atoms.Nodup → (o.maximal atoms).1 = [a]) := by
  obtain ⟨a, greatest⟩ := exists_greatest_of_knows (fun a member => (o.knows_noteAll member).mono longer) some
  have copies := greatest.maximal_eq longer
  refine ⟨a, greatest, copies, fun distinct => ?_⟩
  rw [copies, List.filter_eq, List.count_eq_one_of_mem distinct greatest.member, List.replicate_one]

end Greatest

/-- What an order is asked: to compare two atoms, for the maximal ones of some, for the rule of a dependency. -/
inductive Question where
  | compare (a b : Atom)
  | maximal (atoms : List Atom)
  | rule (t : Tgd)

inductive Answer where
  | ordering (result : Ordering)
  | atoms (result : List Atom)
  | rule (result : Except Error Rule)

/-- The atoms that a question is about. -/
def Question.atoms : Question → List Atom
  | .compare a b => [a, b]
  | .maximal atoms => atoms
  | .rule t => (Selection.eligible t).atoms

def ask (o : AtomOrder) : Question → Answer × AtomOrder
  | .compare a b => (.ordering (o.compare a b).1, (o.compare a b).2)
  | .maximal atoms => (.atoms (o.maximal atoms).1, (o.maximal atoms).2)
  | .rule t => match Rule.build .ordered o t with
    | .ok (r, o) => (.rule (.ok r), o)
    | .error e => (.rule (.error e), o)

/-- The answers to questions asked one after the other. -/
def session : AtomOrder → List Question → List Answer
  | _, [] => []
  | o, q :: qs => (o.ask q).1 :: (o.ask q).2.session qs

/-- The order when all questions have been answered. -/
def after : AtomOrder → List Question → AtomOrder
  | o, [] => o
  | o, q :: qs => (o.ask q).2.after qs

/-- The answer follows a strict order. A rule is the one that is built without an order, but selects only the greatest one
of the atoms that this one selects. -/
def Agrees (before : Atom → Atom → Prop) : Question → Answer → Prop
  | .compare a b, .ordering result => (result = .lt ↔ before a b) ∧ (result = .eq ↔ a = b) ∧ (result = .gt ↔ before b a)
  | .maximal atoms, .atoms result =>
    atoms = [] ∧ result = [] ∨
      ∃ a, Greatest before atoms a ∧ result = atoms.filter (· = a) ∧ (atoms.Nodup → result = [a])
  | .rule t, .rule (.ok r) =>
    ∃ unordered whole selected, Rule.build .skolemized {} t = .ok (unordered, {}) ∧ unordered.selection? = some whole ∧
      r = { unordered with tier := .ordered ⟨selected, whole.side⟩ } ∧
      (whole.atoms = [] ∧ selected = [] ∨ ∃ a, Greatest before whole.atoms a ∧ selected = [a])
  | .rule t, .rule (.error e) => Rule.build .skolemized {} t = .error e
  | _, _ => False

section Agrees
variable {before : Atom → Atom → Prop} {q : Question} {x y : Answer} {atoms : List Atom}

theorem Greatest.unique (irreflexive : ∀ a, ¬ before a a) (transitive : ∀ a b c, before a b → before b c → before a c)
    (first : Greatest before atoms a) (second : Greatest before atoms b) : a = b := by
  by_contra apart
  exact irreflexive a (transitive a b a (second.above a first.member apart) (first.above b second.member (Ne.symm apart)))

theorem Greatest.ne_nil (greatest : Greatest before atoms a) : atoms ≠ [] := List.ne_nil_of_mem greatest.member

/-- An order leaves no question open. -/
theorem Agrees.unique (irreflexive : ∀ a, ¬ before a a) (transitive : ∀ a b c, before a b → before b c → before a c)
    (first : Agrees before q x) (second : Agrees before q y) : x = y := by
  cases q with
  | compare a b =>
    cases x <;> cases y <;> simp only [Agrees] at first second
    next result result' =>
      cases result <;> cases result' <;> simp_all
  | maximal atoms =>
    cases x <;> cases y <;> simp only [Agrees] at first second
    next result result' =>
      rcases first with ⟨empty, rfl⟩ | ⟨a, greatest, rfl, -⟩ <;> rcases second with ⟨empty', rfl⟩ | ⟨a', greatest', rfl, -⟩
      · rfl
      · exact absurd empty greatest'.ne_nil
      · exact absurd empty' greatest.ne_nil
      · rw [greatest.unique irreflexive transitive greatest']
  | rule t =>
    cases x <;> cases y <;> simp only [Agrees] at first second
    next result result' =>
      cases result with
      | error e => cases result' with
        | error e' => rw [Except.error.inj (first.symm.trans second)]
        | ok r' =>
          obtain ⟨_, _, _, built, -⟩ := second
          cases first.symm.trans built
      | ok r => cases result' with
        | error e' =>
          obtain ⟨_, _, _, built, -⟩ := first
          cases second.symm.trans built
        | ok r' =>
          obtain ⟨unordered, whole, selected, built, all, rfl, chosen⟩ := first
          obtain ⟨unordered', whole', selected', built', all', rfl, chosen'⟩ := second
          obtain rfl : unordered = unordered' := (Prod.mk.inj (Except.ok.inj (built.symm.trans built'))).1
          obtain rfl : whole = whole' := Option.some.inj (all.symm.trans all')
          rcases chosen with ⟨empty, rfl⟩ | ⟨a, greatest, rfl⟩ <;> rcases chosen' with ⟨empty', rfl⟩ | ⟨a', greatest', rfl⟩
          · rfl
          · exact absurd empty greatest'.ne_nil
          · exact absurd empty' greatest.ne_nil
          · rw [greatest.unique irreflexive transitive greatest']

end Agrees

theorem ask_extends (o : AtomOrder) (q : Question) : (o.ask q).2.Extends o := by
  cases q with
  | compare a b => exact o.noteAll_extends [a, b]
  | maximal atoms => exact o.noteAll_extends atoms
  | rule t =>
    cases found : t.guard with
    | error e =>
      simp only [ask, Rule.build, found, bind, Except.bind]
      exact .refl o
    | ok g =>
      simp only [ask, Rule.build, found, bind, Except.bind, pure, Except.pure]
      exact o.noteAll_extends _

theorem after_extends (o : AtomOrder) (questions : List Question) : (o.after questions).Extends o := by
  induction questions generalizing o with
  | nil => exact .refl o
  | cons q qs ih => exact (ih (o.ask q).2).trans (o.ask_extends q)

theorem nodup_eligible (t : Tgd) : (Selection.eligible t).atoms.Nodup := by
  unfold Selection.eligible
  split
  · exact t.body.nodup.filter _
  · split
    · exact t.head.nodup
    · exact t.body.nodup.filter _

/-- Any later order explains the answer to a question, if it knows the atoms of the question. -/
theorem ask_agrees (q : Question) (longer : p.Extends (o.ask q).2) (known : ∀ a ∈ q.atoms, p.Knows a) :
    Agrees p.Before q (o.ask q).1 := by
  cases q with
  | compare a b =>
    have first : (o.noteAll [a, b]).Knows a := o.knows_noteAll List.mem_cons_self
    have second : (o.noteAll [a, b]).Knows b := o.knows_noteAll (List.mem_cons_of_mem a List.mem_cons_self)
    have now : (o.compare a b).1 = p.compareNoted a b := (Extends.compareNoted longer first second).symm
    simp only [ask, Agrees, now]
    exact ⟨.rfl, compareNoted_eq_eq (known a List.mem_cons_self), Std.OrientedCmp.gt_iff_lt⟩
  | maximal atoms =>
    by_cases some : atoms = []
    · exact .inl ⟨some, by subst some; rfl⟩
    · exact .inr (maximal_agrees longer some)
  | rule t =>
    cases found : t.guard with
    | error e => simp only [ask, Agrees, Rule.build, found, bind, Except.bind]
    | ok g =>
      simp only [ask, Rule.build, found, bind, Except.bind, pure, Except.pure] at longer ⊢
      refine ⟨⟨t, g, .skolemized (Selection.eligible t)⟩, Selection.eligible t, _, ?_, rfl, rfl, ?_⟩
      · simp only [Rule.build, found, bind, Except.bind, pure, Except.pure]
      · by_cases some : (Selection.eligible t).atoms = []
        · exact .inl ⟨some, by rw [some]; rfl⟩
        · obtain ⟨a, greatest, -, alone⟩ := maximal_agrees longer some
          exact .inr ⟨a, greatest, alone (nodup_eligible t)⟩

theorem session_agrees_of_extends (questions : List Question) (longer : p.Extends (o.after questions))
    (known : ∀ a ∈ questions.flatMap Question.atoms, p.Knows a) :
    List.Forall₂ (Agrees p.Before) questions (o.session questions) := by
  induction questions generalizing o with
  | nil => exact .nil
  | cons q qs ih =>
    simp only [List.flatMap_cons, List.forall_mem_append] at known
    exact .cons (ask_agrees q (longer.trans ((o.ask q).2.after_extends qs)) known.1) (ih longer known.2)

/-- An order may number the symbols while it makes the keys that it compares by. All answers that it ever gives follow one
strict order all the same, which is total on the atoms that it is asked about; and a question asked again is answered as
before. -/
theorem session_agrees (o : AtomOrder) (questions : List Question) :
    (∀ p a b, compareInTurn p a b = p.compare a b) ∧
    (∀ p atoms, maximalInTurn p atoms = p.maximal atoms) ∧
    (∀ q x y, (q, x) ∈ questions.zip (o.session questions) → (q, y) ∈ questions.zip (o.session questions) → x = y) ∧
    ∃ before : Atom → Atom → Prop,
      (∀ a, ¬ before a a) ∧
      (∀ a b c, before a b → before b c → before a c) ∧
      (∀ a ∈ questions.flatMap Question.atoms, ∀ b ∈ questions.flatMap Question.atoms, before a b ∨ a = b ∨ before b a) ∧
      List.Forall₂ (Agrees before) questions (o.session questions) := by
  let p := (o.after questions).noteAll (questions.flatMap Question.atoms)
  have known : ∀ a ∈ questions.flatMap Question.atoms, p.Knows a := fun a member => knows_noteAll _ member
  have irreflexive (a : Atom) : ¬ p.Before a a := by simp [Before, compareNoted_self]
  have transitive (a b c : Atom) (first : p.Before a b) (second : p.Before b c) : p.Before a c :=
    Std.TransCmp.lt_trans first second
  have agrees := session_agrees_of_extends questions (o := o) (noteAll_extends _ _) known
  refine ⟨compareInTurn_eq, maximalInTurn_eq, fun q x y first second => ?_, p.Before, irreflexive, transitive,
    fun a member b _ => ?_, agrees⟩
  · obtain ⟨-, answers⟩ := List.forall₂_iff_zip.mp agrees
    exact (answers first).unique irreflexive transitive (answers second)
  · cases order : p.compareNoted a b with
    | lt => exact .inl order
    | eq => exact .inr (.inl ((compareNoted_eq_eq (known a member)).mp order))
    | gt => exact .inr (.inr (Std.OrientedCmp.gt_iff_lt.mp order))

end GuardedSaturation.AtomOrder
