/-
The BLAKE3 digest of a block of bytes: chunks of 1024 bytes are leaves of a binary tree whose left halves are full, and
every compression works on 64 bytes.
-/
import ByteAtlas.Word

namespace ByteAtlas.Blake3

/-- eight words handed from one compression to the next -/
abbrev Chain := Vector UInt32 8

/-- sixteen words that a compression takes in -/
abbrev Block := Vector UInt32 16

/-- the chaining value that everything starts from -/
def start : Chain :=
  #v[0x6a09e667, 0xbb67ae85, 0x3c6ef372, 0xa54ff53a, 0x510e527f, 0x9b05688c, 0x1f83d9ab, 0x5be0cd19]

/-- the order in which the words of a block enter the next round -/
def schedule : Vector (Fin 16) 16 := #v[2, 6, 3, 10, 7, 0, 4, 13, 1, 11, 12, 5, 9, 14, 15, 8]

/-- marks on a compression: first and last of a chunk, joining of two subtrees, whole digest -/
def chunkStart : UInt32 := 1
def chunkEnd : UInt32 := 2
def parent : UInt32 := 4
def root : UInt32 := 8

def rotate (x n : UInt32) : UInt32 := (x >>> n) ||| (x <<< (32 - n))

/-- mixes two words into four -/
def mix (v : Block) (a b c d : Fin 16) (x y : UInt32) : Block :=
  let va := v[a] + v[b] + x
  let vd := rotate (v[d] ^^^ va) 16
  let vc := v[c] + vd
  let vb := rotate (v[b] ^^^ vc) 12
  let va := va + vb + y
  let vd := rotate (vd ^^^ va) 8
  let vc := vc + vd
  let vb := rotate (vb ^^^ vc) 7
  (((v.set a va).set b vb).set c vc).set d vd

/-- one round: the columns, then the diagonals -/
def round (v m : Block) : Block :=
  let v := mix v 0 4 8 12 m[0] m[1]
  let v := mix v 1 5 9 13 m[2] m[3]
  let v := mix v 2 6 10 14 m[4] m[5]
  let v := mix v 3 7 11 15 m[6] m[7]
  let v := mix v 0 5 10 15 m[8] m[9]
  let v := mix v 1 6 11 12 m[10] m[11]
  let v := mix v 2 7 8 13 m[12] m[13]
  mix v 3 4 9 14 m[14] m[15]

/-- so many rounds, the words of the block in a new order for each -/
def rounds : Nat → Block → Block → Block
  | 0, v, _ => v
  | n + 1, v, m => rounds n (round v m) (schedule.map fun i => m[i])

/-- a compression before its marks are complete -/
structure Step where
  chain : Chain
  block : Block
  counter : Nat
  length : Nat
  marks : UInt32

/-- the chaining value after a compression with further marks -/
def Step.run (s : Step) (marks : UInt32) : Chain :=
  let v : Block := (s.chain ++ #v[start[0], start[1], start[2], start[3], UInt32.ofNat s.counter,
    UInt32.ofNat (s.counter / UInt32.size), UInt32.ofNat s.length, s.marks ||| marks]).cast rfl
  let v := rounds 7 v s.block
  Vector.ofFn fun i : Fin 8 => v[i.val] ^^^ v[i.val + 8]

/-- the words of at most 64 bytes, zeros after them -/
def blockOf (bs : Bytes) : Block := Vector.ofFn fun i => UInt32.ofNat (Bytes.toNat ((bs.drop (4 * i)).take 4))

/-- the last compression of a chunk, which has at most so many blocks after the next one -/
def chunkStep (counter : Nat) : Nat → Chain → UInt32 → Bytes → Step
  | 0, chain, marks, bs => ⟨chain, blockOf bs, counter, bs.length, marks ||| chunkEnd⟩
  | more + 1, chain, marks, bs =>
    if bs.length ≤ 64 then ⟨chain, blockOf bs, counter, bs.length, marks ||| chunkEnd⟩
    else chunkStep counter more ((Step.mk chain (blockOf (bs.take 64)) counter 64 marks).run 0) 0 (bs.drop 64)

/-- the largest power of two below a number of chunks, of two chunks or more -/
def leftChunks (chunks : Nat) : Nat := Nat.pow 2 (Nat.log2 (chunks - 1))

/-- the last compression of a subtree of at most `2 ^ height` chunks, the first of them with number `counter` -/
def treeStep : Nat → Nat → Bytes → Step
  | 0, counter, bs => chunkStep counter 15 start chunkStart bs
  | height + 1, counter, bs =>
    let chunks := (bs.length + 1023) / 1024
    if chunks ≤ 1 then chunkStep counter 15 start chunkStart bs
    else
      let left := leftChunks chunks
      let l := (treeStep height counter (bs.take (1024 * left))).run 0
      let r := (treeStep height (counter + left) (bs.drop (1024 * left))).run 0
      ⟨start, (l ++ r).cast rfl, 0, 64, parent⟩

/-- the digest: 32 bytes -/
def digest (bs : Bytes) : Bytes :=
  ((treeStep (Nat.log2 (bs.length + 1) + 1) 0 bs).run root).toList.flatMap fun w => Bytes.ofNat 4 w.toNat

end ByteAtlas.Blake3
