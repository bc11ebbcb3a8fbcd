import Mathlib.Order.Compare
import Mathlib.Tactic.Ring
import Wednesday.Lib.Bytes

/-!
Big-endian numbers in memory. Comparing bytes from the left is comparing the
numbers they spell.
-/

namespace Wednesday.Lib

/-- Numbers with a common base are compared digit by digit. -/
theorem compare_mul_add {k x x' y y' : Nat} (hy : y < k) (hy' : y' < k) :
    compare (x * k + y) (x' * k + y') = (compare x x').then (compare y y') := by
  rcases Nat.lt_trichotomy x x' with hlt | rfl | hgt
  · have hmul := Nat.mul_le_mul_right k (Nat.succ_le_of_lt hlt)
    rw [Nat.succ_mul] at hmul
    rw [compare_lt_iff_lt.mpr hlt, compare_lt_iff_lt.mpr (by omega)]
    rfl
  · rw [compare_eq_iff_eq.mpr rfl, Ordering.eq_then]
    rcases Nat.lt_trichotomy y y' with h | rfl | h
    · rw [compare_lt_iff_lt.mpr h, compare_lt_iff_lt.mpr (by omega)]
    · rw [compare_eq_iff_eq.mpr rfl, compare_eq_iff_eq.mpr rfl]
    · rw [compare_gt_iff_gt.mpr h, compare_gt_iff_gt.mpr (show x * k + y > x * k + y' by omega)]
  · have hmul := Nat.mul_le_mul_right k (Nat.succ_le_of_lt hgt)
    rw [Nat.succ_mul] at hmul
    rw [compare_gt_iff_gt.mpr hgt, compare_gt_iff_gt.mpr (show x * k + y > x' * k + y' by omega)]
    rfl

namespace Mem

/-- The big-endian number of the first `n` bytes. -/
def getBE (m : Mem) : Nat → Nat
  | 0 => 0
  | n + 1 => getBE m n * 256 + (m n).toNat

theorem getBE_lt (m : Mem) (n : Nat) : getBE m n < 256 ^ n := by
  induction n with
  | zero => exact Nat.one_pos
  | succ n ih =>
      have hbyte := (m n).toNat_lt
      rw [getBE, Nat.pow_succ]
      omega

theorem getBE_congr {m m' : Mem} {n : Nat} (h : ∀ i < n, m i = m' i) : getBE m n = getBE m' n := by
  induction n with
  | zero => rfl
  | succ n ih =>
      rw [getBE, getBE, ih fun i hi => h i (Nat.lt_succ_of_lt hi), h n (Nat.lt_succ_self n)]

/-- A number is read in two parts. -/
theorem getBE_add (m : Mem) (a b : Nat) :
    getBE m (a + b) = getBE m a * 256 ^ b + getBE (m.drop a) b := by
  induction b with
  | zero => simp [getBE]
  | succ b ih =>
      rw [← Nat.add_assoc, getBE, ih, getBE, drop_apply]
      ring

theorem getBE_injective {m m' : Mem} {n : Nat} (h : getBE m n = getBE m' n) :
    ∀ i < n, m i = m' i := by
  induction n with
  | zero => exact fun i hi => absurd hi (Nat.not_lt_zero i)
  | succ n ih =>
      have hlast := (m n).toNat_lt
      have hlast' := (m' n).toNat_lt
      rw [getBE, getBE] at h
      intro i hi
      rcases Nat.lt_succ_iff_lt_or_eq.mp hi with hlt | rfl
      · exact ih (by omega) i hlt
      · apply UInt8.toNat_inj.mp
        omega

/-- `memcmp`: the first `n` bytes, from the left. -/
def memcmp : Mem → Mem → Nat → Ordering
  | _, _, 0 => .eq
  | a, b, n + 1 => (compare (a 0).toNat (b 0).toNat).then (memcmp (a.drop 1) (b.drop 1) n)

theorem memcmp_eq_compare (a b : Mem) (n : Nat) :
    memcmp a b n = compare (getBE a n) (getBE b n) := by
  induction n generalizing a b with
  | zero => exact (compare_eq_iff_eq.mpr rfl).symm
  | succ n ih =>
      have hone (m : Mem) : getBE m 1 = (m 0).toNat := by
        rw [getBE, getBE, Nat.zero_mul, Nat.zero_add]
      rw [memcmp, ih, Nat.add_comm n 1, getBE_add a 1 n, getBE_add b 1 n, hone, hone]
      exact (compare_mul_add (getBE_lt _ n) (getBE_lt _ n)).symm

/-- The `n` bytes at `off` become the low bytes of the number, the high ones first. -/
def putBE (m : Mem) (off value n : Nat) : Mem :=
  (List.range n).foldl (fun m i => m.store (off + i) (UInt8.ofNat (value >>> (8 * (n - i - 1))))) m

theorem putBE_prefix (m : Mem) (off value n : Nat) {k : Nat} (i : Nat) :
    ((List.range k).foldl (fun m i => m.store (off + i) (UInt8.ofNat (value >>> (8 * (n - i - 1)))))
      m) i =
      if off ≤ i ∧ i < off + k then UInt8.ofNat (value >>> (8 * (n - (i - off) - 1))) else m i := by
  induction k with
  | zero => rw [if_neg (by omega)]; rfl
  | succ k ih =>
      rw [List.range_succ, List.foldl_append, List.foldl_cons, List.foldl_nil]
      by_cases hi : i = off + k
      · rw [hi, store_self, if_pos (by omega), Nat.add_sub_cancel_left]
      · rw [store_of_ne hi, ih]
        exact if_congr (by omega) rfl rfl

theorem putBE_inside {m : Mem} {off value n i : Nat} (hi : i < n) :
    (m.putBE off value n) (off + i) = UInt8.ofNat (value >>> (8 * (n - i - 1))) := by
  rw [putBE, putBE_prefix, if_pos (by omega), Nat.add_sub_cancel_left]

theorem putBE_outside {m : Mem} {off value n i : Nat} (hi : i < off ∨ off + n ≤ i) :
    (m.putBE off value n) i = m i := by
  rw [putBE, putBE_prefix, if_neg (by omega)]

/-- The low bytes of a number are read back. -/
theorem getBE_putBE (m : Mem) (off value n : Nat) :
    getBE ((m.putBE off value n).drop off) n = value % 256 ^ n := by
  have hprefix : ∀ k ≤ n, getBE ((m.putBE off value n).drop off) k =
      value / 256 ^ (n - k) % 256 ^ k := by
    intro k hk
    induction k with
    | zero => simp [getBE, Nat.mod_one]
    | succ k ih =>
        have hpow : (256 : Nat) ^ (n - k) = 256 ^ (n - (k + 1)) * 256 := by
          rw [← Nat.pow_succ]
          congr 1
          omega
        have hbyte : ((m.putBE off value n).drop off k).toNat = value / 256 ^
            (n - (k + 1)) % 256 := by
          rw [drop_apply, putBE_inside (by omega), UInt8.toNat_ofNat',
            Nat.shiftRight_eq_div_pow, Nat.pow_mul, Nat.sub_sub]
        rw [getBE, ih (by omega), hbyte, hpow, ← Nat.div_div_eq_div_mul, Nat.pow_succ,
          Nat.mul_comm (256 ^ k), Nat.mod_mul]
        ring
  have hall := hprefix n le_rfl
  rwa [Nat.sub_self, Nat.pow_zero, Nat.div_one] at hall

end Mem

end Wednesday.Lib
