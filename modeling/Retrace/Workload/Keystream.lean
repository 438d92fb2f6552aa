import Retrace.Bytes

/-!
# A keystream

A reproducible stream of 32-bit words: the ChaCha stream cipher with eight rounds, its key drawn
from a 64-bit seed.

* `Keystream.ofSeed`: the stream of a seed;
* `Keystream.word`, `Keystream.wide`, `Keystream.bytes`: a word, two words as one number, and bytes
  from the stream, with the stream that is left.
-/

namespace Retrace.Workload

/-- `x` with its bits moved left by `n < 32`, those at the top coming in at the bottom. -/
def rotateLeft (x n : UInt32) : UInt32 := (x <<< n) ||| (x >>> (32 - n))

/-! ## One block -/

/-- The sixteen words that the cipher works on. -/
abbrev Block := Vector UInt32 16

/-- Mixes four words of a block. -/
def quarterRound (s : Block) (i j k l : Fin 16) : Block :=
  let a := s[i] + s[j]
  let d := rotateLeft (s[l] ^^^ a) 16
  let c := s[k] + d
  let b := rotateLeft (s[j] ^^^ c) 12
  let a := a + b
  let d := rotateLeft (d ^^^ a) 8
  let c := c + d
  let b := rotateLeft (b ^^^ c) 7
  (((s.set i a).set j b).set k c).set l d

/-- A round on the columns and a round on the diagonals. -/
def doubleRound (s : Block) : Block :=
  let s := quarterRound s 0 4 8 12
  let s := quarterRound s 1 5 9 13
  let s := quarterRound s 2 6 10 14
  let s := quarterRound s 3 7 11 15
  let s := quarterRound s 0 5 10 15
  let s := quarterRound s 1 6 11 12
  let s := quarterRound s 2 7 8 13
  quarterRound s 3 4 9 14

/-- The words of the stream's block number `counter`. -/
def block (key : Vector UInt32 8) (counter : UInt64) : Block :=
  let start : Block := #v[0x61707865, 0x3320646e, 0x79622d32, 0x6b206574,
    key[0], key[1], key[2], key[3], key[4], key[5], key[6], key[7],
    counter.toUInt32, (counter >>> 32).toUInt32, 0, 0]
  let mixed := doubleRound (doubleRound (doubleRound (doubleRound start)))
  mixed.zipWith (· + ·) start

/-! ## The stream -/

/-- The next state of the generator that the key is drawn from. -/
def nextKeyState (s : UInt64) : UInt64 := s * 6364136223846793005 + 11634580027462260723

/-- The key word of a state: its high bits, turned by as many places as the highest ones say. -/
def keyWord (s : UInt64) : UInt32 :=
  let x := (((s >>> 18) ^^^ s) >>> 27).toUInt32
  let n := (s >>> 59).toUInt32
  (x >>> n) ||| (x <<< ((32 - n) % 32))

/-- The next `n` words of the key, after the state `s`. -/
def keyWords (s : UInt64) : Nat → List UInt32
  | 0 => []
  | n + 1 => keyWord (nextKeyState s) :: keyWords (nextKeyState s) n

/-- The key of a seed. -/
def keyOfSeed (seed : UInt64) : Vector UInt32 8 :=
  Vector.ofFn fun i => (keyWords seed 8).getD i 0

/-- A stream: its key, the number of its next block, and the words left of the block before. -/
structure Keystream where
  key : Vector UInt32 8
  counter : UInt64
  pending : List UInt32

namespace Keystream

/-- The stream of a seed. -/
def ofSeed (seed : UInt64) : Keystream := ⟨keyOfSeed seed, 0, []⟩

/-- The next word. -/
def word (s : Keystream) : UInt32 × Keystream :=
  match s.pending with
  | w :: rest => (w, { s with pending := rest })
  | [] =>
    let words := (block s.key s.counter).toList
    (words.headD 0, { s with counter := s.counter + 1, pending := words.tail })

/-- The next two words as one number, the first one low. -/
def wide (s : Keystream) : UInt64 × Keystream :=
  let (low, s) := s.word
  let (high, s) := s.word
  (low.toUInt64 ||| (high.toUInt64 <<< 32), s)

/-- `out` followed by the next `words` words, each in four bytes. -/
def pushWords (s : Keystream) (out : Bytes) : Nat → Bytes × Keystream
  | 0 => (out, s)
  | words + 1 =>
    let (w, s) := s.word
    pushWords s (out.pushLE w.toNat 4) words

/-- The next `n` bytes.  What is left of the last word is dropped. -/
def bytes (s : Keystream) (n : Nat) : Bytes × Keystream :=
  let (out, s) := s.pushWords Bytes.empty ((n + 3) / 4)
  (out.extract 0 n, s)

end Keystream

end Retrace.Workload
