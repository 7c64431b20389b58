/-
Machine words and bytes. Addresses, offsets and lengths are 64-bit words: places in memory wrap around
(`+` on `UInt64`), sizes stop at the largest word (`Word.satAdd`, `Word.satMul`). Numbers are laid out in memory
with the least significant byte first (`Bytes.ofNat`, `Bytes.toNat`).
-/
namespace ByteAtlas

/-- a block of memory contents, in address order -/
abbrev Bytes := List UInt8

namespace Word

def top : Nat := UInt64.size - 1

/-- the word nearest to a number from below -/
def clamp (n : Nat) : UInt64 := UInt64.ofNat (min n top)

/-- sum that stops at the largest word -/
def satAdd (a b : UInt64) : UInt64 := clamp (a.toNat + b.toNat)

def satMul (a b : UInt64) : UInt64 := clamp (a.toNat * b.toNat)

theorem toNat_clamp (n : Nat) : (clamp n).toNat = min n top := by
  simp only [clamp, UInt64.toNat_ofNat', top, UInt64.size]
  omega

theorem toNat_satAdd (a b : UInt64) : (satAdd a b).toNat = min (a.toNat + b.toNat) top := toNat_clamp _

theorem toNat_le_top (a : UInt64) : a.toNat ≤ top := by
  have h := a.toNat_lt
  simp only [top, UInt64.size]
  omega

theorem toNat_max (a b : UInt64) : (max a b).toNat = max a.toNat b.toNat := by
  show (if a ≤ b then b else a).toNat = _
  by_cases h : a ≤ b
  · rw [if_pos h, Nat.max_eq_right (UInt64.le_iff_toNat_le.1 h)]
  · rw [if_neg h, Nat.max_eq_left (Nat.le_of_not_le fun hc => h (UInt64.le_iff_toNat_le.2 hc))]

end Word

namespace Bytes

/-- the `n` least significant bytes of a number, least significant first -/
def ofNat : Nat → Nat → Bytes
  | 0, _ => []
  | n + 1, v => UInt8.ofNat v :: ofNat n (v / 256)

/-- the number that a block holds, least significant byte first -/
def toNat : Bytes → Nat
  | [] => 0
  | b :: rest => b.toNat + 256 * toNat rest

/-- how many numbers `n` bytes can tell apart -/
def capacity (n : Nat) : Nat := Nat.pow 256 n

/-- exactly `n` bytes: cut at the end, or filled up with zeros -/
def resize (n : Nat) (bs : Bytes) : Bytes := bs.take n ++ List.replicate (n - bs.length) 0

/-- the block with `new` written over it from position `start` on -/
def patch (bs : Bytes) (start : Nat) (new : Bytes) : Bytes :=
  bs.take start ++ new ++ bs.drop (start + new.length)

/-- where `n` bytes at an address start in a block whose first byte lies at `origin`, if all of them lie inside -/
def start? (bs : Bytes) (origin address : UInt64) (n : Nat) : Option Nat :=
  if origin ≤ address ∧ address.toNat - origin.toNat + n ≤ bs.length then some (address.toNat - origin.toNat) else none

/-- `n` bytes at an address of a block; none of them is read unless all can be -/
def readAt (bs : Bytes) (origin address : UInt64) (n : Nat) : Option Bytes :=
  (bs.start? origin address n).map fun i => (bs.drop i).take n

/-- the block with bytes written at an address; none of them is written unless all can be -/
def writeAt (bs : Bytes) (origin address : UInt64) (new : Bytes) : Option Bytes :=
  (bs.start? origin address new.length).map fun i => bs.patch i new

theorem length_ofNat (n v : Nat) : (ofNat n v).length = n := by
  induction n generalizing v with
  | zero => rfl
  | succ n ih => simp [ofNat, ih]

theorem length_resize (n : Nat) (bs : Bytes) : (resize n bs).length = n := by
  simp only [resize, List.length_append, List.length_take, List.length_replicate]
  omega

theorem capacity_succ (n : Nat) : capacity (n + 1) = 256 * capacity n := Nat.mul_comm _ _

/-- a number below `capacity n` is read back from its `n` bytes -/
theorem toNat_ofNat (n v : Nat) : toNat (ofNat n v) = v % capacity n := by
  induction n generalizing v with
  | zero => exact (Nat.mod_one v).symm
  | succ n ih =>
    have byte : (UInt8.ofNat v).toNat = v % 256 := by simp
    rw [ofNat, toNat, ih, byte, capacity_succ, Nat.mod_mul]

/-- every block is the layout of the number it holds -/
theorem ofNat_toNat (bs : Bytes) : ofNat bs.length (toNat bs) = bs := by
  induction bs with
  | nil => rfl
  | cons b rest ih =>
    have hb := b.toNat_lt
    simp only [toNat, List.length_cons, ofNat]
    rw [show (b.toNat + 256 * toNat rest) / 256 = toNat rest by omega, ih]
    congr 1
    apply UInt8.toNat_inj.1
    simp only [UInt8.toNat_ofNat']
    omega

end Bytes

end ByteAtlas
