import GuardedSaturation.Random.ChaCha

/-! Shuffling a list by a seed. -/
namespace GuardedSaturation.Shuffle

/-- The greatest low half with which a product by `r` is accepted: `r` shifted up to the top
of the word, less one. -/
def zone (r : Nat) : Nat := (r <<< (31 - Nat.log2 r)) - 1

/-- The index below `r` that the first acceptable word at or after a position gives, with the
position after it. Looks at `n` words at most. -/
def index (stream : Nat → UInt32) (r : Nat) : Nat → Nat → Nat × Nat
  | 0, position => (0, position)
  | n + 1, position =>
    let product := (stream position).toNat * r
    if product % UInt32.size ≤ zone r then (product / UInt32.size, position + 1)
    else index stream r n (position + 1)

/-- The number of words after which the stream starts again: each block has 16. -/
def period : Nat := 16 * UInt64.size

/-- Exchanges each element, from the `i`-th down, with one at or below it. -/
def exchange {α : Type} (stream : Nat → UInt32) : Nat → Nat → Array α → Array α
  | 0, _, items => items
  | i + 1, position, items =>
    let (j, position) := index stream (i + 2) period position
    exchange stream i position (items.swapIfInBounds (i + 1) j)

def bySeed {α : Type} (seed : Nat) (items : List α) : List α :=
  let key := ChaCha.keyOfSeed (UInt64.ofNat seed)
  (exchange (ChaCha.word key) (items.length - 1) 0 items.toArray).toList

end GuardedSaturation.Shuffle
