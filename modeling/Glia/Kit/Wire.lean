import Mathlib.Algebra.Order.Group.Nat
import Mathlib.Tactic.Common

/-! Numbers as little-endian bytes, and bytes laid out at padded offsets. -/
namespace Glia.Kit.Wire

/-- The number little-endian bytes spell. -/
def word : List UInt8 → Nat
  | [] => 0
  | b :: rest => b.toNat + 256 * word rest

/-- The low `k` bytes of a number, lowest first. -/
def le : Nat → Nat → List UInt8
  | 0, _ => []
  | k + 1, n => UInt8.ofNat n :: le k (n / 256)

@[simp] theorem length_le (k n : Nat) : (le k n).length = k := by
  induction k generalizing n with
  | zero => rfl
  | succ k ih => rw [le, List.length_cons, ih]

theorem word_le {k n : Nat} (small : n < 256 ^ k) : word (le k n) = n := by
  induction k generalizing n with
  | zero =>
    rw [Nat.pow_zero] at small
    rw [le, word]
    omega
  | succ k ih =>
    have low : (UInt8.ofNat n).toNat = n % 256 := UInt8.toNat_ofNat'
    have high : n / 256 < 256 ^ k := by
      apply Nat.div_lt_of_lt_mul
      rw [← Nat.pow_succ']
      exact small
    rw [le, word, low, ih high]
    omega

section Slice
variable {α : Type}

def slice (l : List α) (start len : Nat) : List α := (l.drop start).take len

theorem length_slice {l : List α} {start len : Nat} (inside : start + len ≤ l.length) :
    (slice l start len).length = len := by
  rw [slice, List.length_take, List.length_drop]
  omega

theorem slice_append_left {a : List α} {start len : Nat} (inside : start + len ≤ a.length)
    (b : List α) : slice (a ++ b) start len = slice a start len := by
  rw [slice, slice, List.drop_append_of_le_length (by omega), List.take_append_of_le_length]
  rw [List.length_drop]
  omega

theorem slice_middle (a b c : List α) {start len : Nat} (at_ : start = a.length)
    (len_ : len = b.length) : slice (a ++ b ++ c) start len = b := by
  rw [slice, at_, len_, List.append_assoc, List.drop_left, List.take_left]

theorem slice_last (a b : List α) {start len : Nat} (at_ : start = a.length)
    (len_ : len = b.length) : slice (a ++ b) start len = b := by
  rw [← List.append_nil (a ++ b)]
  exact slice_middle a b [] at_ len_

def resize (x : α) (l : List α) (n : Nat) : List α := l.take n ++ List.replicate (n - l.length) x

theorem resize_eq (x : α) {l : List α} {n : Nat} (grows : l.length ≤ n) :
    resize x l n = l ++ List.replicate (n - l.length) x := by
  rw [resize, List.take_of_length_le grows]

@[simp] theorem length_resize (x : α) (l : List α) (n : Nat) : (resize x l n).length = n := by
  rw [resize, List.length_append, List.length_take, List.length_replicate]
  omega

end Slice

end Glia.Kit.Wire

/-! The 64-bit xxHash of a byte string. -/
namespace Glia.Kit.XxHash

open Glia.Kit.Wire (word slice)

def prime1 : UInt64 := 0x9E3779B185EBCA87
def prime2 : UInt64 := 0xC2B2AE3D27D4EB4F
def prime3 : UInt64 := 0x165667B19E3779F9
def prime4 : UInt64 := 0x85EBCA77C2B2AE63
def prime5 : UInt64 := 0x27D4EB2F165667C5

def rotl (x r : UInt64) : UInt64 := (x <<< r) ||| (x >>> (64 - r))

def lane (s : List UInt8) (start len : Nat) : UInt64 := UInt64.ofNat (word (slice s start len))

def round (acc lane : UInt64) : UInt64 := rotl (acc + lane * prime2) 31 * prime1

def mergeRound (h acc : UInt64) : UInt64 := (h ^^^ round 0 acc) * prime1 + prime4

structure Accs where
  a : UInt64
  b : UInt64
  c : UInt64
  d : UInt64

namespace Accs

def init (seed : UInt64) : Accs := ⟨seed + prime1 + prime2, seed + prime2, seed, seed - prime1⟩

def stripes : Nat → List UInt8 → Accs → Accs
  | 0, _, x => x
  | n + 1, s, x =>
    stripes n (s.drop 32)
      ⟨round x.a (lane s 0 8), round x.b (lane s 8 8), round x.c (lane s 16 8),
        round x.d (lane s 24 8)⟩

def merge (x : Accs) : UInt64 :=
  let h := rotl x.a 1 + rotl x.b 7 + rotl x.c 12 + rotl x.d 18
  mergeRound (mergeRound (mergeRound (mergeRound h x.a) x.b) x.c) x.d

end Accs

def words : Nat → List UInt8 → UInt64 → UInt64
  | 0, _, h => h
  | n + 1, s, h => words n (s.drop 8) (rotl (h ^^^ round 0 (lane s 0 8)) 27 * prime1 + prime4)

def halfWord (s : List UInt8) (h : UInt64) : UInt64 :=
  rotl (h ^^^ lane s 0 4 * prime1) 23 * prime2 + prime3

def lastBytes (s : List UInt8) (h : UInt64) : UInt64 :=
  s.foldl (fun h b => rotl (h ^^^ b.toUInt64 * prime5) 11 * prime1) h

def avalanche (h : UInt64) : UInt64 :=
  let h := (h ^^^ (h >>> 33)) * prime2
  let h := (h ^^^ (h >>> 29)) * prime3
  h ^^^ (h >>> 32)

def xxh64 (seed : UInt64) (s : List UInt8) : UInt64 :=
  let n := s.length
  let h := if n < 32 then seed + prime5 else (Accs.stripes (n / 32) s (.init seed)).merge
  let s := s.drop (n / 32 * 32)
  let h := words (s.length / 8) s (h + UInt64.ofNat n)
  let s := s.drop (s.length / 8 * 8)
  avalanche (if s.length < 4 then lastBytes s h else lastBytes (s.drop 4) (halfWord s h))

example : xxh64 0 "abc".toUTF8.toList = 0x44BC2CF5AD770999 := by decide +kernel

example : xxh64 0 "Nobody inspects the spammish repetition".toUTF8.toList = 0xFBCEA83C8A378BF1 := by
  decide +kernel

end Glia.Kit.XxHash
