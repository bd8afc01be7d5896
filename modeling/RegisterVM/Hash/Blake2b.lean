/-!
# BLAKE2b

The hash function BLAKE2b with a digest of 32 bytes and no key. The input is cut into blocks of 128
bytes, the last filled up with zeros. Each block is mixed into a state of eight words; a counter of
the bytes read so far and a mark on the last block tell inputs apart that differ only in their end.
-/

namespace RegisterVM.Hash.Blake2b

/-- The digest length in bytes. -/
def digestSize : Nat := 32

/-- The block length in bytes. -/
def blockSize : Nat := 128

/-- The initial words. -/
def initial : Vector UInt64 8 :=
  #v[0x6A09E667F3BCC908, 0xBB67AE8584CAA73B, 0x3C6EF372FE94F82B, 0xA54FF53A5F1D36F1,
    0x510E527FADE682D1, 0x9B05688C2B3E6C1F, 0x1F83D9ABFB41BD6B, 0x5BE0CD19137E2179]

/-- The order in which the rounds take the words of a block. -/
def schedule : List (Vector (Fin 16) 16) :=
  let orders : List (Vector (Fin 16) 16) :=
    [#v[0, 1, 2, 3, 4, 5, 6, 7, 8, 9, 10, 11, 12, 13, 14, 15],
      #v[14, 10, 4, 8, 9, 15, 13, 6, 1, 12, 0, 2, 11, 7, 5, 3],
      #v[11, 8, 12, 0, 5, 2, 15, 13, 10, 14, 3, 6, 7, 1, 9, 4],
      #v[7, 9, 3, 1, 13, 12, 11, 14, 2, 6, 5, 10, 4, 0, 15, 8],
      #v[9, 0, 5, 7, 2, 4, 10, 15, 14, 1, 11, 12, 6, 8, 3, 13],
      #v[2, 12, 6, 10, 0, 11, 8, 3, 4, 13, 7, 5, 15, 14, 1, 9],
      #v[12, 5, 1, 15, 14, 13, 4, 10, 0, 7, 6, 3, 9, 2, 8, 11],
      #v[13, 11, 7, 14, 12, 1, 3, 9, 5, 0, 15, 4, 8, 6, 2, 10],
      #v[6, 15, 14, 9, 11, 3, 0, 8, 12, 2, 13, 7, 1, 4, 10, 5],
      #v[10, 2, 8, 4, 7, 6, 1, 5, 15, 11, 9, 14, 3, 12, 13, 0]]
  orders ++ orders.take 2

/-- Rotates a word to the right. -/
def rotateRight (word : UInt64) (count : UInt64) : UInt64 :=
  (word >>> count) ||| (word <<< (64 - count))

/-- Mixes two words of a block into four words of the working state. -/
def mix (v : Vector UInt64 16) (a b c d : Fin 16) (x y : UInt64) : Vector UInt64 16 :=
  let va := v[a] + v[b] + x
  let vd := rotateRight (v[d] ^^^ va) 32
  let vc := v[c] + vd
  let vb := rotateRight (v[b] ^^^ vc) 24
  let va := va + vb + y
  let vd := rotateRight (vd ^^^ va) 16
  let vc := vc + vd
  let vb := rotateRight (vb ^^^ vc) 63
  (((v.set a va).set b vb).set c vc).set d vd

/-- One round: the four columns, then the four diagonals. -/
def round (words : Vector UInt64 16) (v : Vector UInt64 16) (order : Vector (Fin 16) 16) :
    Vector UInt64 16 :=
  let word (i : Fin 16) : UInt64 := words[order[i]]
  let v := mix v 0 4 8 12 (word 0) (word 1)
  let v := mix v 1 5 9 13 (word 2) (word 3)
  let v := mix v 2 6 10 14 (word 4) (word 5)
  let v := mix v 3 7 11 15 (word 6) (word 7)
  let v := mix v 0 5 10 15 (word 8) (word 9)
  let v := mix v 1 6 11 12 (word 10) (word 11)
  let v := mix v 2 7 8 13 (word 12) (word 13)
  mix v 3 4 9 14 (word 14) (word 15)

/-- The word that eight bytes spell, least significant byte first. -/
def littleWord (bytes : List UInt8) : UInt64 :=
  bytes.foldr (fun b word => (word <<< 8) ||| b.toUInt64) 0

/-- The words of a block, missing bytes counting as zero. -/
def wordsOf (block : List UInt8) : Vector UInt64 16 :=
  Vector.ofFn fun i => littleWord ((block.drop (8 * i.val)).take 8)

/-- Mixes a block into the state. `count` is the number of bytes up to and including this block. -/
def compress (state : Vector UInt64 8) (block : List UInt8) (count : UInt64) (last : Bool) :
    Vector UInt64 8 :=
  let start : Vector UInt64 16 := state ++ initial
  let start := start.set 12 (start[12] ^^^ count)
  let start := if last then start.set 14 (~~~ start[14]) else start
  let words := wordsOf block
  let mixed := schedule.foldl (round words) start
  Vector.ofFn fun i => state[i] ^^^ mixed[i] ^^^ mixed[i.val + 8]

/-- Mixes all blocks of the input into the state; `blocks` counts those before the last. -/
def absorb (state : Vector UInt64 8) (count : Nat) : (blocks : Nat) → List UInt8 → Vector UInt64 8
  | 0, bytes => compress state bytes (UInt64.ofNat (count + bytes.length)) true
  | blocks + 1, bytes =>
      absorb (compress state (bytes.take blockSize) (UInt64.ofNat (count + blockSize)) false)
        (count + blockSize) blocks (bytes.drop blockSize)

/-- The state before the first block: the initial words with the parameters of this variant. -/
def start : Vector UInt64 8 := initial.set 0 (initial[0] ^^^ 0x01010020)

/-- The bytes of a word, least significant first. -/
def wordBytes (word : UInt64) : List UInt8 :=
  (List.range 8).map fun i => (word >>> (8 * UInt64.ofNat i)).toUInt8

/-- The digest of a byte sequence. -/
def hash (bytes : List UInt8) : List UInt8 :=
  ((absorb start 0 ((bytes.length - 1) / blockSize) bytes).toList.flatMap wordBytes).take digestSize

end RegisterVM.Hash.Blake2b
