import Recoding.Naturals

/-!
# The random word stream

A seed is stretched to a key of eight words by a permuted congruential generator. The
words of the stream are those of the ChaCha stream cipher with twelve rounds under that
key, with a 64-bit block counter and stream number 0. Any word can be computed on its
own, so the stream is a function of the position.
-/

namespace Recoding.Keystream

/-! ## The key of a seed -/

def seedStep (state : UInt64) : UInt64 := state * 6364136223846793005 + 11634580027462260723

def rotateLeft (x n : UInt32) : UInt32 := (x <<< n) ||| (x >>> (32 - n))

def rotateRight (x n : UInt32) : UInt32 := (x >>> (n % 32)) ||| (x <<< ((32 - n) % 32))

/-- The word that a state of the seed generator stands for. -/
def seedWord (state : UInt64) : UInt32 :=
  rotateRight ((((state >>> 18) ^^^ state) >>> 27).toUInt32) ((state >>> 59).toUInt32)

def seedWords : Nat → UInt64 → List UInt32
  | 0, _ => []
  | n + 1, state => seedWord (seedStep state) :: seedWords n (seedStep state)

def key (seed : UInt64) : List UInt32 := seedWords 8 seed

/-! ## The block function -/

/-- The four by four words on which the rounds work. -/
abbrev Block := Vector UInt32 16

/-- Mixes four words of a block. -/
def quarterRound (s : Block) (a b c d : Fin 16) : Block :=
  let xa := s[a] + s[b]
  let xd := rotateLeft (s[d] ^^^ xa) 16
  let xc := s[c] + xd
  let xb := rotateLeft (s[b] ^^^ xc) 12
  let xa := xa + xb
  let xd := rotateLeft (xd ^^^ xa) 8
  let xc := xc + xd
  let xb := rotateLeft (xb ^^^ xc) 7
  (((s.set a xa).set b xb).set c xc).set d xd

def doubleRound (s : Block) : Block :=
  let s := quarterRound s 0 4 8 12
  let s := quarterRound s 1 5 9 13
  let s := quarterRound s 2 6 10 14
  let s := quarterRound s 3 7 11 15
  let s := quarterRound s 0 5 10 15
  let s := quarterRound s 1 6 11 12
  let s := quarterRound s 2 7 8 13
  quarterRound s 3 4 9 14

/-- The block before the rounds: four constants, the key and the counter. -/
def start (key : List UInt32) (counter : Nat) : Block :=
  let words := [0x61707865, 0x3320646e, 0x79622d32, 0x6b206574] ++ key ++
    [UInt32.ofNat counter, UInt32.ofNat (counter / 2 ^ 32), 0, 0]
  Vector.ofFn fun i => words.getD i.val 0

/-- One block of the stream: twelve rounds, added to where they started. -/
def block (key : List UInt32) (counter : Nat) : Block :=
  let s := start key counter
  let mixed := Nat.repeat doubleRound 6 s
  Vector.ofFn fun i => s[i] + mixed[i]

def word (key : List UInt32) (position : Nat) : UInt32 :=
  (block key (position / 16)).get ⟨position % 16, Nat.mod_lt _ (by decide)⟩

/-- Two successive words as one number, the low half first. -/
def longWord (key : List UInt32) (position : Nat) : UInt64 :=
  (word key (2 * position)).toUInt64 ||| ((word key (2 * position + 1)).toUInt64 <<< 32)

end Recoding.Keystream
