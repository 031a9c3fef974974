import Mathlib
import GuardedSaturation.Proofs.AtomOrders
import GuardedSaturation.Proofs.Subsumption.Codes
import GuardedSaturation.Proofs.Vocabulary

/-! The keys that atoms are compared by. Symbols get their numbers while a key is made, and the numbers that they have
later on are the same; so the keys may as well be made when all symbols have their numbers. -/
namespace GuardedSaturation

namespace Numbering
variable {α : Type} [DecidableEq α] {m n : Numbering α}

theorem noteAll_append (n : Numbering α) (ks ls : List α) : n.noteAll (ks ++ ls) = (n.noteAll ks).noteAll ls :=
  List.foldl_append

theorem number_fst (longer : m.Extends (n.note k)) : (n.number k).1 = m.keys.idxOf k := by
  rw [longer.idxOf (n.mem_note k), number, note]
  split
  · rfl
  · next fresh => rw [List.idxOf_append_of_notMem fresh, List.idxOf_of_notMem fresh]; simp

end Numbering

inductive TermKey where
  | var (x : Variable)
  | const (c : String)
  | app (number : Nat) (args : List TermKey)

namespace TermKey

mutual
def compare : TermKey → TermKey → Ordering
  | .var x, .var y => Ord.compare x y
  | .var _, _ => .lt
  | .const _, .var _ => .gt
  | .const c, .const d => Ord.compare c d
  | .const _, .app .. => .lt
  | .app m ss, .app n ts => (Ord.compare m n).then (compareAll ss ts)
  | .app .., _ => .gt

def compareAll : List TermKey → List TermKey → Ordering
  | [], [] => .eq
  | [], _ :: _ => .lt
  | _ :: _, [] => .gt
  | s :: ss, t :: ts => (compare s t).then (compareAll ss ts)
end

mutual
theorem compare_self : (k : TermKey) → compare k k = .eq
  | .var x | .const x => by simp [compare]
  | .app n ks => by simp [compare, compareAll_self ks]

theorem compareAll_self : (ks : List TermKey) → compareAll ks ks = .eq
  | [] => rfl
  | k :: ks => by simp [compareAll, compare_self k, compareAll_self ks]
end

mutual
theorem eq_of_compare : (k l : TermKey) → compare k l = .eq → k = l
  | .var x, l, equal | .const x, l, equal => by
    cases l <;> simp_all [compare]
  | .app m ks, l, equal => by
    cases l with
    | app n ls =>
      rw [compare, Ordering.then_eq_eq, Nat.compare_eq_eq] at equal
      rw [equal.1, eq_of_compareAll ks ls equal.2]
    | _ => simp [compare] at equal

theorem eq_of_compareAll : (ks ls : List TermKey) → compareAll ks ls = .eq → ks = ls
  | [], ls, equal => by cases ls <;> simp_all [compareAll]
  | k :: ks, ls, equal => by
    cases ls with
    | nil => simp [compareAll] at equal
    | cons l ls =>
      rw [compareAll, Ordering.then_eq_eq] at equal
      rw [eq_of_compare k l equal.1, eq_of_compareAll ks ls equal.2]
end

instance : DecidableEq TermKey :=
  fun k l => decidable_of_iff (compare k l = .eq) ⟨eq_of_compare k l, fun same => same ▸ compare_self k⟩

end TermKey

namespace Term
variable {weight weight' : Symbol → Nat}

mutual
/-- The key of a term when all its symbols have their numbers. -/
def key (weight : Symbol → Nat) : Term → TermKey
  | .var x => .var x
  | .const c => .const c
  | .app f args => .app (weight ⟨f, args.length⟩) (keys weight args)

def keys (weight : Symbol → Nat) : List Term → List TermKey
  | [] => []
  | t :: ts => key weight t :: keys weight ts
end

mutual
theorem compare_key : (s t : Term) → (s.key weight).compare (t.key weight) = compareBy weight s t
  | .var x, t | .const x, t => by cases t <;> simp [key, TermKey.compare, compareBy]
  | .app f ss, t => by
    cases t with
    | app g ts => rw [key, key, TermKey.compare, compareBy, compareAll_keys ss ts]
    | _ => simp [key, TermKey.compare, compareBy]

theorem compareAll_keys : (ss ts : List Term) →
    TermKey.compareAll (keys weight ss) (keys weight ts) = compareAllBy weight ss ts
  | [], ts => by cases ts <;> simp [keys, TermKey.compareAll, compareAllBy]
  | s :: ss, ts => by
    cases ts with
    | nil => simp [keys, TermKey.compareAll, compareAllBy]
    | cons t ts => rw [keys, keys, TermKey.compareAll, compareAllBy, compare_key s t, compareAll_keys ss ts]
end

mutual
theorem key_congr : (t : Term) → (∀ f ∈ t.symbols, weight f = weight' f) → t.key weight = t.key weight'
  | .var _, _ | .const _, _ => rfl
  | .app f args, same => by
    rw [symbols, List.forall_mem_cons] at same
    rw [key, key, same.1, keys_congr args same.2]

theorem keys_congr : (ts : List Term) → (∀ f ∈ symbolsAll ts, weight f = weight' f) → keys weight ts = keys weight' ts
  | [], _ => rfl
  | t :: ts, same => by
    rw [symbolsAll, List.forall_mem_append] at same
    rw [keys, keys, key_congr t same.1, keys_congr ts same.2]
end

mutual
/-- Where different symbols weigh differently, different terms have different keys. -/
theorem eq_of_key : (s t : Term) → (∀ f ∈ s.symbols, ∀ g ∈ t.symbols, weight f = weight g → f = g) →
    s.key weight = t.key weight → s = t
  | .var x, t, _, equal | .const x, t, _, equal => by
    cases t <;> simp_all [key]
  | .app f ss, t, apart, equal => by
    cases t with
    | app g ts =>
      rw [key, key, TermKey.app.injEq] at equal
      simp only [symbols, List.forall_mem_cons] at apart
      have symbol := apart.1.1 equal.1
      rw [Symbol.mk.injEq] at symbol
      rw [symbol.1, eq_of_keys ss ts (fun f left g right => (apart.2 f left).2 g right) equal.2]
    | _ => simp [key] at equal

theorem eq_of_keys : (ss ts : List Term) →
    (∀ f ∈ symbolsAll ss, ∀ g ∈ symbolsAll ts, weight f = weight g → f = g) → keys weight ss = keys weight ts → ss = ts
  | [], ts, _, equal => by cases ts <;> simp_all [keys]
  | s :: ss, ts, apart, equal => by
    cases ts with
    | nil => simp [keys] at equal
    | cons t ts =>
      rw [keys, keys, List.cons.injEq] at equal
      simp only [symbolsAll, List.forall_mem_append] at apart
      rw [eq_of_key s t (fun f left g right => (apart.1 f left).1 g right) equal.1,
        eq_of_keys ss ts (fun f left g right => (apart.2 f left).2 g right) equal.2]
end

mutual
/-- The key of a term, and the numbers of its symbols given on the way, outermost first. -/
def keyOf (n : Numbering Symbol) : Term → TermKey × Numbering Symbol
  | .var x => (.var x, n)
  | .const c => (.const c, n)
  | .app f args =>
    let (number, n) := n.number ⟨f, args.length⟩
    let (keys, n) := keysOf n args
    (.app number keys, n)

def keysOf (n : Numbering Symbol) : List Term → List TermKey × Numbering Symbol
  | [] => ([], n)
  | t :: ts =>
    let (key, n) := keyOf n t
    let (keys, n) := keysOf n ts
    (key :: keys, n)
end

mutual
theorem keyOf_eq (n p : Numbering Symbol) : (t : Term) → p.Extends (n.noteAll t.symbols) →
    keyOf n t = (t.key p.keys.idxOf, n.noteAll t.symbols)
  | .var _, _ | .const _, _ => rfl
  | .app f args, longer => by
    have inner := keysOf_eq (n.note ⟨f, args.length⟩) p args longer
    have number := Numbering.number_fst (longer.trans ((n.note ⟨f, args.length⟩).keys_noteAll (symbolsAll args)))
    simp only [keyOf, key, number]
    rw [show (n.number ⟨f, args.length⟩).2 = n.note ⟨f, args.length⟩ from rfl, inner]
    rfl

theorem keysOf_eq (n p : Numbering Symbol) : (ts : List Term) → p.Extends (n.noteAll (symbolsAll ts)) →
    keysOf n ts = (keys p.keys.idxOf ts, n.noteAll (symbolsAll ts))
  | [], _ => rfl
  | t :: ts, longer => by
    rw [symbolsAll, Numbering.noteAll_append] at longer
    have first := keyOf_eq n p t (longer.trans ((n.noteAll t.symbols).keys_noteAll (symbolsAll ts)))
    have rest := keysOf_eq (n.noteAll t.symbols) p ts longer
    simp only [keysOf, first, rest, keys, symbolsAll, Numbering.noteAll_append]
end

theorem mem_symbolsAll_of_symbol? {ts : List Term} {f : Symbol} (member : f ∈ ts.filterMap symbol?) : f ∈ symbolsAll ts := by
  obtain ⟨t, inside, top⟩ := List.mem_filterMap.mp member
  rw [symbolsAll_eq_flatMap]
  refine List.mem_flatMap.mpr ⟨t, inside, ?_⟩
  cases t with
  | app g args =>
    rw [symbol?, Option.some.injEq] at top
    rw [symbols, top]
    exact List.mem_cons_self
  | _ => cases top

/-- The first argument whose symbol has the greatest number, and that number. Symbols get their numbers on the way. -/
def scan (n : Numbering Symbol) (position : Nat) (best : Option (Nat × Nat)) :
    List Term → Option (Nat × Nat) × Numbering Symbol
  | [] => (best, n)
  | t :: ts => match t.symbol? with
    | none => scan n (position + 1) best ts
    | some f =>
      let (number, n) := n.number f
      scan n (position + 1) (if best.all (·.1 < number) then some (number, position) else best) ts

/-- The greatest one of some numbers, and its first place. -/
def top (numbers : List (Option Nat)) : Option (Nat × Nat) :=
  (numbers.reduceOption.max?).bind (fun greatest => (numbers.findIdx? (· = some greatest)).map (greatest, ·))

theorem exists_top {numbers : List (Option Nat)} {greatest : Nat} (max : numbers.reduceOption.max? = some greatest) :
    ∃ place, numbers.findIdx? (· = some greatest) = some place ∧ top numbers = some (greatest, place) := by
  have member : some greatest ∈ numbers := List.reduceOption_mem_iff.mp (List.max?_eq_some_iff.mp max).1
  have found : (numbers.findIdx? (· = some greatest)).isSome := by simpa using member
  obtain ⟨place, here⟩ := Option.isSome_iff_exists.mp found
  exact ⟨place, here, by simp [top, max, here]⟩

theorem top_snoc_none (numbers : List (Option Nat)) : top (numbers ++ [none]) = top numbers := by
  simp [top, List.reduceOption_append]

theorem top_snoc_some (numbers : List (Option Nat)) (n : Nat) :
    top (numbers ++ [some n]) = if (top numbers).all (·.1 < n) then some (n, numbers.length) else top numbers := by
  have absent (above : ∀ m ∈ numbers.reduceOption, m < n) : numbers.findIdx? (· = some n) = none := by
    rw [List.findIdx?_eq_none_iff]
    intro m member
    simp only [decide_eq_false_iff_not]
    rintro rfl
    exact lt_irrefl n (above n (List.reduceOption_mem_iff.mpr member))
  have last (above : ∀ m ∈ numbers.reduceOption, m < n) : top (numbers ++ [some n]) = some (n, numbers.length) := by
    have max : (numbers ++ [some n]).reduceOption.max? = some n := by
      rw [List.reduceOption_append, List.max?_eq_some_iff]
      simpa [or_imp, forall_and] using fun m member => (above m member).le
    simp [top, max, List.findIdx?_append, absent above]
  cases max : numbers.reduceOption.max? with
  | none =>
    rw [List.max?_eq_none_iff] at max
    rw [last (by simp [max])]
    simp [top, max]
  | some greatest =>
    obtain ⟨place, here, first⟩ := exists_top max
    obtain ⟨member, bound⟩ := List.max?_eq_some_iff.mp max
    simp only [first, Option.all_some, decide_eq_true_eq]
    split
    · next above => exact last (fun m inside => (bound m inside).trans_lt above)
    · next below =>
      have still : (numbers ++ [some n]).reduceOption.max? = some greatest := by
        rw [List.reduceOption_append, List.max?_eq_some_iff]
        refine ⟨List.mem_append_left _ member, fun m inside => ?_⟩
        rcases List.mem_append.mp inside with inside | last
        · exact bound m inside
        · simp at last
          omega
      simp [top, still, List.findIdx?_append, here]

theorem scan_eq {n p : Numbering Symbol} (numbers : List (Option Nat)) (ts : List Term)
    (longer : p.Extends (n.noteAll (ts.filterMap symbol?))) :
    scan n numbers.length (top numbers) ts =
      (top (numbers ++ ts.map (fun t => t.symbol?.map p.keys.idxOf)), n.noteAll (ts.filterMap symbol?)) := by
  -- The numbers of the arguments scanned already come along, so that their greatest one is the best so far.
  induction ts generalizing n numbers with
  | nil => simp [scan, Numbering.noteAll]
  | cons t ts ih =>
    rw [List.map_cons, List.append_cons, scan]
    cases symbol : t.symbol? with
    | none =>
      rw [List.filterMap_cons_none symbol] at longer ⊢
      have later := ih (numbers ++ [none]) longer
      rw [List.length_append, top_snoc_none] at later
      exact later
    | some f =>
      rw [List.filterMap_cons_some symbol] at longer ⊢
      have later := ih (numbers ++ [some (p.keys.idxOf f)]) longer
      rw [List.length_append, top_snoc_some] at later
      have number := Numbering.number_fst (longer.trans ((n.note f).keys_noteAll (ts.filterMap symbol?)))
      simp only [number]
      exact later

end Term

/-- What an atom is compared by. -/
structure AtomKey where
  function : Option Nat
  predicate : Nat
  position : Option Nat
  terms : List TermKey
deriving DecidableEq

def AtomKey.compare (k l : AtomKey) : Ordering :=
  (Ord.compare k.function l.function).then <|
  (Ord.compare k.predicate l.predicate).then <|
  (Ord.compare k.position l.position).then <|
  TermKey.compareAll k.terms l.terms

theorem AtomKey.eq_of_compare {k l : AtomKey} (equal : k.compare l = .eq) : k = l := by
  simp only [AtomKey.compare, Ordering.then_eq_eq, Std.LawfulEqOrd.compare_eq_iff_eq] at equal
  obtain ⟨function, predicate, position, terms⟩ := equal
  rw [AtomKey.mk.injEq]
  exact ⟨function, predicate, position, TermKey.eq_of_compareAll _ _ terms⟩

/-- The last one of the greatest keys. -/
def AtomKey.greatest? : List AtomKey → Option AtomKey
  | [] => none
  | k :: ks => some (ks.foldl (fun best l => if best.compare l = .gt then best else l) k)

namespace AtomOrder
variable {o p q : AtomOrder} {a b : Atom}

/-- The key of an atom when all its symbols have their numbers. -/
def key (o : AtomOrder) (a : Atom) : AtomKey where
  function := o.topWeight a
  predicate := o.predicates.keys.idxOf a.symbol
  position := o.topPosition a
  terms := Term.keys o.weight a.args

theorem compareNoted_swap (o : AtomOrder) (a b : Atom) : o.compareNoted a b = (o.compareNoted b a).swap :=
  Std.OrientedCmp.eq_swap

theorem compare_key (o : AtomOrder) (a b : Atom) : (o.key a).compare (o.key b) = o.compareNoted a b := by
  rw [AtomKey.compare, compareNoted]
  simp only [key, Term.compareAll_keys]

theorem top_weights (o : AtomOrder) (a : Atom) :
    (Term.top (a.args.map (fun t => t.symbol?.map o.weight))).map (·.1) = o.topWeight a ∧
    (Term.top (a.args.map (fun t => t.symbol?.map o.weight))).map (·.2) = o.topPosition a := by
  have weights : (a.args.map (fun t => t.symbol?.map o.weight)).reduceOption.max? = o.topWeight a := by
    rw [topWeight, List.reduceOption, List.filterMap_map, List.map_filterMap]
    rfl
  have position (greatest : Nat) : a.args.findIdx? (fun t => t.symbol?.map o.weight = some greatest) =
      (a.args.map (fun t => t.symbol?.map o.weight)).findIdx? (· = some greatest) := by
    rw [List.findIdx?_map]
    rfl
  rw [topPosition]
  cases max : o.topWeight a with
  | none => simp [Term.top, weights, max]
  | some greatest =>
    obtain ⟨place, here, first⟩ := Term.exists_top (weights.trans max)
    rw [first, Option.bind_some, position, here]
    exact ⟨rfl, rfl⟩

/-- The key of an atom. Its predicate is numbered first, then the symbols of its arguments, then those inside them. -/
def keyOf (o : AtomOrder) (a : Atom) : AtomKey × AtomOrder :=
  let (predicate, predicates) := o.predicates.number a.symbol
  let (best, functions) := Term.scan o.functions 0 none a.args
  let (terms, functions) := Term.keysOf functions a.args
  (⟨best.map (·.1), predicate, best.map (·.2), terms⟩, ⟨predicates, functions⟩)

/-- One order goes on from the other. -/
structure Extends (p o : AtomOrder) : Prop where
  predicates : p.predicates.Extends o.predicates
  functions : p.functions.Extends o.functions

theorem keyOf_eq (longer : p.Extends (o.note a)) : o.keyOf a = (p.key a, o.note a) := by
  have functions := longer.functions
  simp only [note, Numbering.noteAll_append] at functions
  have best := Term.scan_eq [] a.args (functions.trans ((o.functions.noteAll _).keys_noteAll (Term.symbolsAll a.args)))
  have terms := Term.keysOf_eq (o.functions.noteAll (a.args.filterMap Term.symbol?)) p.functions a.args functions
  have predicate := Numbering.number_fst longer.predicates
  obtain ⟨weight, position⟩ := p.top_weights a
  simp only [List.length_nil, List.nil_append, show Term.top [] = none from rfl] at best
  simp only [keyOf, best, terms, predicate]
  rw [key, ← weight, ← position]
  simp only [note, Numbering.noteAll_append]
  rfl

/-- All symbols of the atom have numbers. -/
structure Knows (o : AtomOrder) (a : Atom) : Prop where
  predicate : a.symbol ∈ o.predicates.keys
  functions : ∀ f ∈ Term.symbolsAll a.args, f ∈ o.functions.keys

theorem Extends.refl (o : AtomOrder) : o.Extends o := ⟨⟨[], by simp⟩, ⟨[], by simp⟩⟩

theorem Extends.trans (first : q.Extends p) (second : p.Extends o) : q.Extends o :=
  ⟨first.predicates.trans second.predicates, first.functions.trans second.functions⟩

theorem Knows.mono (longer : p.Extends o) (known : o.Knows a) : p.Knows a :=
  ⟨longer.predicates.mem known.predicate, fun f member => longer.functions.mem (known.functions f member)⟩

theorem note_extends (o : AtomOrder) (a : Atom) : (o.note a).Extends o :=
  ⟨o.predicates.keys_note _, o.functions.keys_noteAll _⟩

theorem knows_note (o : AtomOrder) (a : Atom) : (o.note a).Knows a :=
  ⟨o.predicates.mem_note _, fun _ member => o.functions.mem_noteAll (List.mem_append_right _ member)⟩

theorem noteAll_extends (o : AtomOrder) (atoms : List Atom) : (o.noteAll atoms).Extends o := by
  induction atoms generalizing o with
  | nil => exact .refl o
  | cons a atoms ih => exact (ih (o.note a)).trans (o.note_extends a)

theorem knows_noteAll (o : AtomOrder) {atoms : List Atom} (member : a ∈ atoms) : (o.noteAll atoms).Knows a := by
  induction atoms generalizing o with
  | nil => cases member
  | cons b atoms ih =>
    rcases List.mem_cons.mp member with rfl | member
    · exact (o.knows_note a).mono ((o.note a).noteAll_extends atoms)
    · exact ih (o.note b) member

theorem Extends.key (longer : p.Extends o) (known : o.Knows a) : p.key a = o.key a := by
  have weight (f : Symbol) (member : f ∈ Term.symbolsAll a.args) : p.weight f = o.weight f :=
    longer.functions.idxOf (known.functions f member)
  have weights : a.args.map (fun t => t.symbol?.map p.weight) = a.args.map (fun t => t.symbol?.map o.weight) := by
    refine List.map_congr_left (fun t member => Option.map_congr (fun f top => weight f ?_))
    exact Term.mem_symbolsAll_of_symbol? (List.mem_filterMap.mpr ⟨t, member, top⟩)
  rw [AtomOrder.key, AtomOrder.key, longer.predicates.idxOf known.predicate, Term.keys_congr a.args weight,
    ← (p.top_weights a).1, ← (p.top_weights a).2, weights, (o.top_weights a).1, (o.top_weights a).2]

/-- Atoms that are known compare at any later time as they do now. -/
theorem Extends.compareNoted (longer : p.Extends o) (known : o.Knows a) (known' : o.Knows b) :
    p.compareNoted a b = o.compareNoted a b := by
  rw [← compare_key, ← compare_key, longer.key known, longer.key known']

theorem Knows.eq_of_key (known : o.Knows a) (same : o.key a = o.key b) : a = b := by
  rw [key, key, AtomKey.mk.injEq] at same
  obtain ⟨-, predicate, -, terms⟩ := same
  have symbol : a.symbol = b.symbol := (List.idxOf_inj known.predicate).mp predicate
  have args := Term.eq_of_keys a.args b.args
    (fun f left g _ same => (List.idxOf_inj (known.functions f left)).mp same) terms
  rw [Atom.symbol, Atom.symbol, Symbol.mk.injEq] at symbol
  exact Atom.eq_iff.mpr ⟨symbol.1, args⟩

theorem compareNoted_eq_eq (known : o.Knows a) : o.compareNoted a b = .eq ↔ a = b := by
  refine ⟨fun equal => known.eq_of_key (AtomKey.eq_of_compare ?_), fun same => same ▸ compareNoted_self a⟩
  rw [compare_key, equal]

/-- Compares by keys that are made one after the other. -/
def compareInTurn (o : AtomOrder) (a b : Atom) : Ordering × AtomOrder :=
  let (k, o) := o.keyOf a
  let (l, o) := o.keyOf b
  (k.compare l, o)

theorem compareInTurn_eq (o : AtomOrder) (a b : Atom) : o.compareInTurn a b = o.compare a b := by
  have first := keyOf_eq (o := o) ((o.note a).note_extends b)
  have second := keyOf_eq (o := o.note a) (.refl ((o.note a).note b))
  simp only [compareInTurn, first, second, compare_key]
  rfl

def keysOf (o : AtomOrder) : List Atom → List AtomKey × AtomOrder
  | [] => ([], o)
  | a :: atoms =>
    let (k, o) := o.keyOf a
    let (ks, o) := o.keysOf atoms
    (k :: ks, o)

theorem keysOf_eq {atoms : List Atom} (longer : p.Extends (o.noteAll atoms)) :
    o.keysOf atoms = (atoms.map p.key, o.noteAll atoms) := by
  induction atoms generalizing o with
  | nil => rfl
  | cons a atoms ih =>
    have first := keyOf_eq (longer.trans ((o.note a).noteAll_extends atoms))
    simp only [keysOf, first, ih (o := o.note a) longer]
    rfl

/-- Looks for the greatest of keys that are made one after the other. -/
def maximalInTurn (o : AtomOrder) (atoms : List Atom) : List Atom × AtomOrder :=
  let (keys, o) := o.keysOf atoms
  match AtomKey.greatest? keys with
  | none => ([], o)
  | some greatest => (((atoms.zip keys).filter (·.2 = greatest)).map (·.1), o)

theorem exists_greatest_key (o : AtomOrder) (a : Atom) (atoms : List Atom) :
    ∃ b ∈ a :: atoms, AtomKey.greatest? ((a :: atoms).map o.key) = some (o.key b) ∧
      ∀ c ∈ a :: atoms, (o.compareNoted c b).isLE := by
  -- The first atom stands for the best so far: the larger one of the first two takes its place.
  induction atoms generalizing a with
  | nil => exact ⟨a, List.mem_cons_self, rfl, by simp [compareNoted_self]⟩
  | cons c atoms ih =>
    have next : AtomKey.greatest? ((a :: c :: atoms).map o.key) =
        AtomKey.greatest? (((if o.compareNoted a c = .gt then a else c) :: atoms).map o.key) := by
      simp only [AtomKey.greatest?, List.map_cons, List.foldl_cons, compare_key]
      split <;> rfl
    obtain ⟨b, member, found, greatest⟩ := ih (if o.compareNoted a c = .gt then a else c)
    obtain ⟨best, above⟩ := List.forall_mem_cons.mp greatest
    refine ⟨b, ?_, next.trans found, ?_⟩
    · split at member <;> grind
    · split at best
      · next order =>
        refine List.forall_mem_cons.mpr ⟨best, List.forall_mem_cons.mpr ⟨?_, above⟩⟩
        have below : o.compareNoted c a = .lt := Std.OrientedCmp.lt_of_gt order
        exact Std.TransCmp.isLE_trans (by rw [below]; rfl) best
      · next order =>
        refine List.forall_mem_cons.mpr ⟨?_, List.forall_mem_cons.mpr ⟨best, above⟩⟩
        refine Std.TransCmp.isLE_trans ?_ best
        cases first : o.compareNoted a c <;> simp_all

theorem maximalInTurn_eq (o : AtomOrder) (atoms : List Atom) : o.maximalInTurn atoms = o.maximal atoms := by
  have made : o.keysOf atoms = (atoms.map (o.noteAll atoms).key, o.noteAll atoms) := keysOf_eq (.refl _)
  cases atoms with
  | nil => rfl
  | cons a rest =>
    obtain ⟨b, member, found, greatest⟩ := exists_greatest_key (o.noteAll (a :: rest)) a rest
    simp only [maximalInTurn, made, found, maximal, Prod.mk.injEq, and_true]
    generalize o.noteAll (a :: rest) = p at *
    generalize a :: rest = atoms at *
    rw [← List.map_prod_left_eq_zip, List.filter_map, List.map_map]
    change (atoms.filter (fun c => p.key c = p.key b)).map id = _
    rw [List.map_id]
    refine List.filter_congr (fun c inside => Bool.eq_iff_iff.mpr ?_)
    simp only [decide_eq_true_eq, List.all_eq_true, ne_eq]
    constructor
    · intro same d within
      rw [← compare_key, same, compare_key, compareNoted_swap]
      have := greatest d within
      cases order : p.compareNoted d b <;> simp_all
    · intro unexceeded
      have below := greatest c inside
      refine AtomKey.eq_of_compare ?_
      rw [compare_key]
      have := unexceeded b member
      cases order : p.compareNoted c b <;> simp_all

end AtomOrder
end GuardedSaturation
