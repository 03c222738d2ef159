import Glia.Core
import Mathlib.Tactic.Ring
import Mathlib.Order.Compare

/-! The integer gains Leiden decides by: a difference of two products of three words, kept and
compared in 256 bits. -/
namespace Glia.Algo.Leiden

structure Resolution where
  num : UInt32
  den : UInt32
  deriving DecidableEq

/-- The terms, a zero denominator read as 1. -/
def Resolution.ratio (res : Resolution) : UInt32 × UInt32 :=
  (res.num, if res.den = 0 then 1 else res.den)

structure U256 where
  hi : BitVec 128
  lo : BitVec 128
  deriving DecidableEq

namespace U256

def value (x : U256) : Nat := x.hi.toNat * 2 ^ 128 + x.lo.toNat

def cmp (x y : U256) : Ordering :=
  (compare x.hi.toNat y.hi.toNat).then (compare x.lo.toNat y.lo.toNat)

def carry (overflow : Bool) : BitVec 128 := if overflow then 1 else 0

/-- `a * b` from the two partial products of `a`'s halves. -/
def mul (a : BitVec 128) (b : UInt64) : U256 :=
  let b := b.toBitVec.setWidth 128
  let low := (a &&& 0xFFFFFFFFFFFFFFFF#128) * b
  let high := (a >>> 64) * b
  { hi := (high >>> 64) + carry ((high <<< 64).uaddOverflow low)
    lo := (high <<< 64) + low }

def add (x y : U256) : U256 where
  hi := x.hi + y.hi + carry (x.lo.uaddOverflow y.lo)
  lo := x.lo + y.lo

end U256

/-- The scale Leiden decides at: the resolution's numerator, and its denominator times `2m`. -/
structure Scale where
  num : UInt64
  denTotal : BitVec 128
  deriving DecidableEq

structure Gain where
  pos : U256
  neg : U256
  deriving DecidableEq

def Scale.new (res : Resolution) (total : UInt64) : Scale where
  num := res.ratio.1.toUInt64
  denTotal := res.ratio.2.toBitVec.setWidth 128 * total.toBitVec.setWidth 128

def Scale.gain (s : Scale) (link k tot : UInt64) : Gain where
  pos := U256.mul s.denTotal link
  neg := U256.mul (s.num.toBitVec.setWidth 128 * k.toBitVec.setWidth 128) tot

namespace Gain

/-- `a - b` against `c - d` as `a + d` against `c + b`. -/
def compare (x y : Gain) : Ordering := (x.pos.add y.neg).cmp (y.pos.add x.neg)

def nonNegative (x : Gain) : Bool := x.pos.cmp x.neg ≠ .lt

def exact (x : Gain) : Int := (x.pos.value : Int) - x.neg.value

end Gain

/-- No partial product of `a * b` wraps, nor the high word. -/
structure U256.MulFits (a : BitVec 128) (b : UInt64) : Prop where
  low : (a &&& 0xFFFFFFFFFFFFFFFF#128).umulOverflow (b.toBitVec.setWidth 128) = false
  high : (a >>> 64).umulOverflow (b.toBitVec.setWidth 128) = false
  hi : (((a >>> 64) * b.toBitVec.setWidth 128) >>> 64).uaddOverflow
    (U256.carry ((((a >>> 64) * b.toBitVec.setWidth 128) <<< 64).uaddOverflow
      ((a &&& 0xFFFFFFFFFFFFFFFF#128) * b.toBitVec.setWidth 128))) = false

structure U256.AddFits (x y : U256) : Prop where
  hi : x.hi.uaddOverflow y.hi = false
  carried : (x.hi + y.hi).uaddOverflow (U256.carry (x.lo.uaddOverflow y.lo)) = false

section Exact

namespace U256

theorem value_lt_iff (x y : U256) : x.value < y.value ↔
    x.hi.toNat < y.hi.toNat ∨ x.hi.toNat = y.hi.toNat ∧ x.lo.toNat < y.lo.toNat := by
  have := x.lo.isLt
  have := y.lo.isLt
  unfold value
  omega

theorem cmp_eq (x y : U256) : x.cmp y = Ord.compare x.value y.value := by
  have lt := value_lt_iff x y
  have gt := value_lt_iff y x
  unfold cmp
  rcases lt_trichotomy x.hi.toNat y.hi.toNat with h | h | h
  · rw [compare_lt_iff_lt.mpr h, compare_lt_iff_lt.mpr (lt.mpr (.inl h))]
    rfl
  · rw [compare_eq_iff_eq.mpr h]
    rcases lt_trichotomy x.lo.toNat y.lo.toNat with l | l | l
    · rw [compare_lt_iff_lt.mpr l, compare_lt_iff_lt.mpr (lt.mpr (.inr ⟨h, l⟩))]
      rfl
    · rw [compare_eq_iff_eq.mpr l, compare_eq_iff_eq.mpr (by unfold value; omega)]
      rfl
    · rw [compare_gt_iff_gt.mpr l, compare_gt_iff_gt.mpr (gt.mpr (.inr ⟨h.symm, l⟩))]
      rfl
  · rw [compare_gt_iff_gt.mpr h, compare_gt_iff_gt.mpr (gt.mpr (.inl h))]
    rfl

theorem carry_toNat (x y : BitVec 128) :
    (carry (x.uaddOverflow y)).toNat = (x.toNat + y.toNat) / 2 ^ 128 := by
  have := x.isLt
  have := y.isLt
  unfold carry BitVec.uaddOverflow
  split
  · rename_i over'
    have := of_decide_eq_true over'
    have : (1 : BitVec 128).toNat = 1 := rfl
    omega
  · rename_i under
    have := of_decide_eq_false (Bool.not_eq_true _ ▸ under)
    have : (0 : BitVec 128).toNat = 0 := rfl
    omega

theorem word_mul_lt {m n : Nat} (hm : m < 2 ^ 64) (hn : n < 2 ^ 64) : m * n < 2 ^ 128 :=
  calc m * n ≤ (2 ^ 64 - 1) * (2 ^ 64 - 1) := Nat.mul_le_mul (by omega) (by omega)
    _ < 2 ^ 128 := by decide

theorem word_mul_toNat {x y : BitVec 128} (hx : x.toNat < 2 ^ 64) (hy : y.toNat < 2 ^ 64) :
    (x * y).toNat = x.toNat * y.toNat := by
  rw [BitVec.toNat_mul, Nat.mod_eq_of_lt (word_mul_lt hx hy)]

theorem low_toNat (a : BitVec 128) : (a &&& 0xFFFFFFFFFFFFFFFF#128).toNat = a.toNat % 2 ^ 64 := by
  rw [BitVec.toNat_and]
  exact Nat.and_two_pow_sub_one_eq_mod a.toNat 64

theorem high_toNat (a : BitVec 128) : (a >>> 64).toNat = a.toNat / 2 ^ 64 := by
  rw [BitVec.toNat_ushiftRight, Nat.shiftRight_eq_div_pow]

theorem value_halves (h l : BitVec 128) :
    value ⟨(h >>> 64) + carry ((h <<< 64).uaddOverflow l), (h <<< 64) + l⟩ =
      h.toNat * 2 ^ 64 + l.toNat := by
  have carried := carry_toNat (h <<< 64) l
  have shifted : (h <<< 64).toNat = h.toNat * 2 ^ 64 % 2 ^ 128 := by
    rw [BitVec.toNat_shiftLeft, Nat.shiftLeft_eq]
  have := h.isLt
  have := l.isLt
  rw [shifted] at carried
  simp only [value, BitVec.toNat_add, high_toNat, shifted, carried]
  omega

theorem mul_words (a : BitVec 128) (b : UInt64) :
    (a &&& 0xFFFFFFFFFFFFFFFF#128).toNat < 2 ^ 64 ∧ (a >>> 64).toNat < 2 ^ 64 ∧
      (b.toBitVec.setWidth 128).toNat < 2 ^ 64 := by
  have := a.isLt
  have := b.toNat_lt
  rw [low_toNat, high_toNat, BitVec.toNat_setWidth, UInt64.toNat_toBitVec]
  omega

theorem value_mul (a : BitVec 128) (b : UInt64) : (mul a b).value = a.toNat * b.toNat := by
  obtain ⟨lowFits, highFits, wordFits⟩ := mul_words a b
  have word : (b.toBitVec.setWidth 128).toNat = b.toNat := by
    have := b.toNat_lt
    rw [BitVec.toNat_setWidth, UInt64.toNat_toBitVec]
    omega
  have split : a.toNat * b.toNat = a.toNat / 2 ^ 64 * b.toNat * 2 ^ 64 +
      a.toNat % 2 ^ 64 * b.toNat := by
    conv_lhs => rw [← Nat.div_add_mod a.toNat (2 ^ 64)]
    ring
  rw [split, ← low_toNat, ← high_toNat, ← word, ← word_mul_toNat lowFits wordFits,
    ← word_mul_toNat highFits wordFits]
  exact value_halves _ _

theorem mulFits (a : BitVec 128) (b : UInt64) : MulFits a b := by
  obtain ⟨lowFits, highFits, wordFits⟩ := mul_words a b
  refine ⟨decide_eq_false (Nat.not_le_of_lt (word_mul_lt lowFits wordFits)),
    decide_eq_false (Nat.not_le_of_lt (word_mul_lt highFits wordFits)), ?_⟩
  have carried := carry_toNat (((a >>> 64) * b.toBitVec.setWidth 128) <<< 64)
    ((a &&& 0xFFFFFFFFFFFFFFFF#128) * b.toBitVec.setWidth 128)
  have := (((a >>> 64) * b.toBitVec.setWidth 128) <<< 64).isLt
  have := ((a &&& 0xFFFFFFFFFFFFFFFF#128) * b.toBitVec.setWidth 128).isLt
  have := ((a >>> 64) * b.toBitVec.setWidth 128).isLt
  refine decide_eq_false (Nat.not_le_of_lt ?_)
  rw [carried, high_toNat]
  omega

theorem addFits {x y : U256} (small : x.hi.toNat + y.hi.toNat + 1 < 2 ^ 128) : AddFits x y := by
  have carried := carry_toNat x.lo y.lo
  have := x.lo.isLt
  have := y.lo.isLt
  refine ⟨decide_eq_false (by omega), decide_eq_false ?_⟩
  rw [carried, BitVec.toNat_add]
  omega

theorem value_add {x y : U256} (small : x.hi.toNat + y.hi.toNat + 1 < 2 ^ 128) :
    (x.add y).value = x.value + y.value := by
  have carried := carry_toNat x.lo y.lo
  have := x.lo.isLt
  have := y.lo.isLt
  simp only [value, add, BitVec.toNat_add, carried]
  omega

end U256

variable (res : Resolution) (total link k tot : UInt64)

def Gain.terms : Nat × Nat :=
  (res.ratio.2.toNat * total.toNat * link.toNat, res.ratio.1.toNat * k.toNat * tot.toNat)

theorem setWidth_word (x : UInt64) : (x.toBitVec.setWidth 128).toNat = x.toNat := by
  have := x.toNat_lt
  rw [BitVec.toNat_setWidth, UInt64.toNat_toBitVec]
  omega

theorem setWidth_half (x : UInt32) : (x.toBitVec.setWidth 128).toNat = x.toNat := by
  have := x.toNat_lt
  rw [BitVec.toNat_setWidth, UInt32.toNat_toBitVec]
  omega

theorem half_mul_lt {m n : Nat} (hm : m < 2 ^ 32) (hn : n < 2 ^ 64) : m * n < 2 ^ 96 :=
  calc m * n ≤ (2 ^ 32 - 1) * (2 ^ 64 - 1) := Nat.mul_le_mul (by omega) (by omega)
    _ < 2 ^ 96 := by decide

theorem term_lt {m n l : Nat} (hm : m < 2 ^ 32) (hn : n < 2 ^ 64) (hl : l < 2 ^ 64) :
    m * n * l < 2 ^ 160 :=
  calc m * n * l ≤ (2 ^ 96 - 1) * (2 ^ 64 - 1) :=
        Nat.mul_le_mul (Nat.le_sub_one_of_lt (half_mul_lt hm hn)) (by omega)
    _ < 2 ^ 160 := by decide

theorem scale_exact : (Scale.new res total).num.toNat = res.ratio.1.toNat ∧
    (Scale.new res total).denTotal.toNat = res.ratio.2.toNat * total.toNat := by
  refine ⟨UInt32.toNat_toUInt64 _, ?_⟩
  have fits := half_mul_lt res.ratio.2.toNat_lt total.toNat_lt
  rw [Scale.new, BitVec.toNat_mul, setWidth_half, setWidth_word, Nat.mod_eq_of_lt (by omega)]

theorem gain_value :
    ((Scale.new res total).gain link k tot).pos.value = (Gain.terms res total link k tot).1 ∧
      ((Scale.new res total).gain link k tot).neg.value = (Gain.terms res total link k tot).2 := by
  obtain ⟨num, den⟩ := scale_exact res total
  have fits := half_mul_lt res.ratio.1.toNat_lt k.toNat_lt
  constructor
  · rw [Scale.gain, U256.value_mul, den]
    rfl
  · rw [Scale.gain, U256.value_mul, BitVec.toNat_mul, setWidth_word, setWidth_word, num,
      Nat.mod_eq_of_lt (by omega)]
    rfl

theorem terms_lt : (Gain.terms res total link k tot).1 < 2 ^ 160 ∧
    (Gain.terms res total link k tot).2 < 2 ^ 160 :=
  ⟨term_lt res.ratio.2.toNat_lt total.toNat_lt link.toNat_lt,
    term_lt res.ratio.1.toNat_lt k.toNat_lt tot.toNat_lt⟩

theorem hi_lt {x : U256} (small : x.value < 2 ^ 160) : x.hi.toNat < 2 ^ 32 := by
  unfold U256.value at small
  omega

theorem compare_sums (a b c d : Nat) :
    Ord.compare (a + d) (c + b) = Ord.compare ((a : Int) - b) ((c : Int) - d) := by
  rcases lt_trichotomy (a + d) (c + b) with h | h | h
  · rw [compare_lt_iff_lt.mpr h, compare_lt_iff_lt.mpr (by omega)]
  · rw [compare_eq_iff_eq.mpr h, compare_eq_iff_eq.mpr (by omega)]
  · rw [compare_gt_iff_gt.mpr h, compare_gt_iff_gt.mpr (by omega)]

theorem compare_exact {x y : Gain} (px : x.pos.value < 2 ^ 160) (nx : x.neg.value < 2 ^ 160)
    (py : y.pos.value < 2 ^ 160) (ny : y.neg.value < 2 ^ 160) :
    x.compare y = Ord.compare x.exact y.exact := by
  have := hi_lt px
  have := hi_lt nx
  have := hi_lt py
  have := hi_lt ny
  rw [Gain.compare, U256.cmp_eq, U256.value_add (by omega), U256.value_add (by omega)]
  exact compare_sums _ _ _ _

theorem nonNegative_exact (x : Gain) : x.nonNegative = true ↔ 0 ≤ x.exact := by
  rw [Gain.nonNegative, decide_eq_true_eq, U256.cmp_eq, ne_eq, compare_lt_iff_lt, Gain.exact]
  omega

/-- Leiden's gains are exact: for any resolution, weights, totals and strengths a gain holds its two
products, each under 160 bits, nothing formed on the way wraps, and the order of any two gains and
the sign of one are those of the differences themselves. -/
theorem gain_exact (res res' : Resolution)
    (total link k tot total' link' k' tot' : UInt64) :
    let g := (Scale.new res total).gain link k tot
    let g' := (Scale.new res' total').gain link' k' tot'
    let t := Gain.terms res total link k tot
    let t' := Gain.terms res' total' link' k' tot'
    (g.pos.value = t.1 ∧ g.neg.value = t.2 ∧ t.1 < 2 ^ 160 ∧ t.2 < 2 ^ 160) ∧
    (res.ratio.2.toBitVec.setWidth 128).umulOverflow (total.toBitVec.setWidth 128) = false ∧
    ((Scale.new res total).num.toBitVec.setWidth 128).umulOverflow (k.toBitVec.setWidth 128) =
      false ∧
    U256.MulFits (Scale.new res total).denTotal link ∧
    U256.MulFits ((Scale.new res total).num.toBitVec.setWidth 128 * k.toBitVec.setWidth 128) tot ∧
    U256.AddFits g.pos g'.neg ∧ U256.AddFits g'.pos g.neg ∧
    g.compare g' = Ord.compare ((t.1 : Int) - t.2) ((t'.1 : Int) - t'.2) ∧
    (g.nonNegative = true ↔ 0 ≤ (t.1 : Int) - t.2) := by
  obtain ⟨pos, neg⟩ := gain_value res total link k tot
  obtain ⟨pos', neg'⟩ := gain_value res' total' link' k' tot'
  obtain ⟨posLt, negLt⟩ := terms_lt res total link k tot
  obtain ⟨posLt', negLt'⟩ := terms_lt res' total' link' k' tot'
  have posHi := hi_lt (pos ▸ posLt)
  have negHi := hi_lt (neg ▸ negLt)
  have posHi' := hi_lt (pos' ▸ posLt')
  have negHi' := hi_lt (neg' ▸ negLt')
  dsimp only
  refine ⟨⟨pos, neg, posLt, negLt⟩, ?_, ?_, U256.mulFits _ _, U256.mulFits _ _,
    U256.addFits (by omega), U256.addFits (by omega), ?_, ?_⟩
  · have fits := half_mul_lt res.ratio.2.toNat_lt total.toNat_lt
    refine decide_eq_false (Nat.not_le_of_lt ?_)
    rw [setWidth_half, setWidth_word]
    omega
  · have fits := half_mul_lt res.ratio.1.toNat_lt k.toNat_lt
    refine decide_eq_false (Nat.not_le_of_lt ?_)
    rw [setWidth_word, setWidth_word, (scale_exact res total).1]
    omega
  · rw [compare_exact (pos ▸ posLt) (neg ▸ negLt) (pos' ▸ posLt') (neg' ▸ negLt'), Gain.exact,
      Gain.exact, pos, neg, pos', neg']
  · rw [nonNegative_exact, Gain.exact, pos, neg]

end Exact

end Glia.Algo.Leiden
