/-! A stream of 32-bit words: the blocks of the ChaCha cipher with eight rounds, one after
the other, under a key grown from a 64-bit seed. -/
namespace GuardedSaturation.ChaCha

abbrev Key := Vector UInt32 8

abbrev Block := Vector UInt32 16

def rotateLeft (x : UInt32) (n : UInt32) : UInt32 := (x <<< n) ||| (x >>> (32 - n))

/-- `n` is taken modulo 32. -/
def rotateRight (x : UInt32) (n : UInt32) : UInt32 :=
  let n := n % 32
  if n = 0 then x else (x >>> n) ||| (x <<< (32 - n))

/-- Adds the second word to the first and turns the sum into the third. -/
def mix (a b d : Fin 16) (n : UInt32) (s : Block) : Block :=
  let s := s.set a (s[a] + s[b])
  s.set d (rotateLeft (s[d] ^^^ s[a]) n)

def quarterRound (a b c d : Fin 16) (s : Block) : Block :=
  mix c d b 7 (mix a b d 8 (mix c d b 12 (mix a b d 16 s)))

/-- The four columns, then the four diagonals. -/
def doubleRound (s : Block) : Block :=
  let s := quarterRound 0 4 8 12 s
  let s := quarterRound 1 5 9 13 s
  let s := quarterRound 2 6 10 14 s
  let s := quarterRound 3 7 11 15 s
  let s := quarterRound 0 5 10 15 s
  let s := quarterRound 1 6 11 12 s
  let s := quarterRound 2 7 8 13 s
  quarterRound 3 4 9 14 s

/-- The constants, the key, the counter and a nonce of zero. -/
def initial (key : Key) (counter : UInt64) : Block :=
  #v[0x61707865, 0x3320646e, 0x79622d32, 0x6b206574,
    key[0], key[1], key[2], key[3], key[4], key[5], key[6], key[7],
    counter.toUInt32, (counter >>> 32).toUInt32, 0, 0]

def block (key : Key) (counter : UInt64) : Block :=
  let start := initial key counter
  let mixed := doubleRound (doubleRound (doubleRound (doubleRound start)))
  Vector.zipWith (· + ·) mixed start

/-- A word of the stream. The counter, and with it the stream, starts again after `2 ^ 64` blocks. -/
def word (key : Key) (position : Nat) : UInt32 :=
  (block key (UInt64.ofNat (position / 16)))[position % 16]

/-- One step of the congruential generator that seeds are grown with. -/
def growStep (state : UInt64) : UInt64 := state * 6364136223846793005 + 11634580027462260723

/-- The output of a generator state: its high bits, rotated by the highest. -/
def growWord (state : UInt64) : UInt32 :=
  rotateRight ((((state >>> 18) ^^^ state) >>> 27).toUInt32) ((state >>> 59).toUInt32)

def keyOfSeed (seed : UInt64) : Key :=
  let states : Vector UInt64 8 := Vector.ofFn (fun i => Nat.repeat growStep (i + 1) seed)
  states.map growWord

end GuardedSaturation.ChaCha
