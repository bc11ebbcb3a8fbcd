import Mathlib.Tactic.Common
import Mathlib.Tactic.IntervalCases
import Mathlib.Tactic.Linarith
import Mathlib.Tactic.NormNum
import Mathlib.Tactic.Ring
import Mathlib.Data.List.Basic

/-!
Byte memories. A pointer is the memory that starts at it, so pointer
arithmetic drops a prefix and a copy overlays a block. Little-endian words of
any width are read and written through one pair of functions.
-/

namespace Wednesday.Lib

/-- The bytes from a pointer onwards. -/
abbrev Mem := Nat → UInt8

abbrev Bytes := List UInt8

namespace Mem

/-- The pointer `m + off`. -/
def drop (m : Mem) (off : Nat) : Mem := fun i => m (off + i)

/-- `memcpy (m + off, src, n)`. -/
def blit (m : Mem) (off : Nat) (src : Mem) (n : Nat) : Mem :=
  fun i => if off ≤ i ∧ i < off + n then src (i - off) else m i

/-- `m[off] = b`. -/
def store (m : Mem) (off : Nat) (b : UInt8) : Mem :=
  fun i => if i = off then b else m i

/-- The `n` bytes at `off`. -/
def read (m : Mem) (off n : Nat) : Bytes := (List.range n).map fun i => m (off + i)

/-- A memory that starts with the given bytes. -/
def ofBytes (bs : Bytes) : Mem := fun i => bs.getD i 0

@[simp] theorem drop_apply (m : Mem) (off i : Nat) : m.drop off i = m (off + i) := rfl

@[simp] theorem drop_zero (m : Mem) : m.drop 0 = m := by
  funext i
  simp

@[simp] theorem drop_drop (m : Mem) (a b : Nat) : (m.drop a).drop b = m.drop (a + b) := by
  funext i
  simp [Nat.add_assoc]

theorem blit_inside {m src : Mem} {off n i : Nat} (hlo : off ≤ i) (hhi : i < off + n) :
    m.blit off src n i = src (i - off) := by
  simp [blit, hlo, hhi]

theorem blit_outside {m src : Mem} {off n i : Nat} (h : i < off ∨ off + n ≤ i) :
    m.blit off src n i = m i := by
  simp only [blit]
  rw [if_neg (by omega)]

theorem store_self (m : Mem) (off : Nat) (b : UInt8) : m.store off b off = b := by
  simp [store]

theorem store_of_ne {m : Mem} {off i : Nat} {b : UInt8} (h : i ≠ off) :
    m.store off b i = m i := by
  simp [store, h]

@[simp] theorem length_read (m : Mem) (off n : Nat) : (m.read off n).length = n := by
  simp [read]

/-- The bytes `bs` stand in `m` from `off` on. -/
def Holds (m : Mem) (off : Nat) (bs : Bytes) : Prop :=
  ∀ k (h : k < bs.length), m (off + k) = bs[k]

theorem holds_nil (m : Mem) (off : Nat) : m.Holds off [] := by
  intro k h
  simp at h

theorem holds_read (m : Mem) (off n : Nat) : m.Holds off (m.read off n) := by
  intro k h
  simp [read]

theorem holds_iff_read {m : Mem} {off : Nat} {bs : Bytes} :
    m.Holds off bs ↔ m.read off bs.length = bs := by
  constructor
  · intro h
    refine List.ext_getElem (by simp) fun k h₁ h₂ => ?_
    simp [read, h k h₂]
  · intro h
    rw [← h]
    exact holds_read m off _

theorem holds_append {m : Mem} {off : Nat} {as bs : Bytes} :
    m.Holds off (as ++ bs) ↔ m.Holds off as ∧ m.Holds (off + as.length) bs := by
  constructor
  · intro h
    constructor
    · intro k hk
      rw [h k (by rw [List.length_append]; omega), List.getElem_append_left hk]
    · intro k hk
      have := h (as.length + k) (by rw [List.length_append]; omega)
      rw [Nat.add_assoc, this, List.getElem_append_right (by omega)]
      simp
  · rintro ⟨ha, hb⟩ k hk
    by_cases hlt : k < as.length
    · rw [List.getElem_append_left hlt, ha k hlt]
    · rw [List.getElem_append_right (by omega)]
      have := hb (k - as.length) (by rw [List.length_append] at hk; omega)
      rw [← this]
      congr 1
      omega

/-- What stands at `off` only depends on the bytes there. -/
theorem Holds.congr {m m' : Mem} {off : Nat} {bs : Bytes} (h : m.Holds off bs)
    (heq : ∀ i, off ≤ i → i < off + bs.length → m' i = m i) : m'.Holds off bs := by
  intro k hk
  rw [heq _ (by omega) (by omega), h k hk]

theorem Holds.drop {m : Mem} {off : Nat} {bs : Bytes} (h : m.Holds off bs) :
    (m.drop off).Holds 0 bs := by
  intro k hk
  rw [drop_apply, Nat.zero_add, h k hk]

theorem holds_drop_iff {m : Mem} {a off : Nat} {bs : Bytes} :
    (m.drop a).Holds off bs ↔ m.Holds (a + off) bs := by
  simp [Holds, Nat.add_assoc]

theorem holds_ofBytes (bs : Bytes) : (ofBytes bs).Holds 0 bs := by
  intro k hk
  simp [ofBytes, hk]

/-- A copy puts at its target what stood at its source. -/
theorem Holds.blit {m src : Mem} {off s : Nat} {bs : Bytes} (h : src.Holds s bs) :
    (m.blit off (src.drop s) bs.length).Holds off bs := by
  intro k hk
  rw [blit_inside (by omega) (by omega)]
  simpa using h k hk

/-- The `n` bytes of a number, least significant first. -/
def leBytes (v : Nat) : Mem := fun i => UInt8.ofNat (v / 256 ^ i)

/-- Store `v` in the `n` bytes at `off`. -/
def putLE (m : Mem) (off n v : Nat) : Mem := m.blit off (leBytes v) n

/-- The number in the `n` bytes at `off`. -/
def getLE (m : Mem) (off : Nat) : Nat → Nat
  | 0 => 0
  | n + 1 => getLE m off n + (m (off + n)).toNat * 256 ^ n

theorem getLE_congr {m m' : Mem} {off off' n : Nat}
    (h : ∀ i < n, m (off + i) = m' (off' + i)) : m.getLE off n = m'.getLE off' n := by
  induction n with
  | zero => rfl
  | succ n ih => simp only [getLE, ih fun i hi => h i (by omega), h n (by omega)]

theorem getLE_lt (m : Mem) (off n : Nat) : m.getLE off n < 256 ^ n := by
  induction n with
  | zero => simp [getLE]
  | succ n ih =>
      have hb : (m (off + n)).toNat ≤ 255 := by
        have := (m (off + n)).toNat_lt
        omega
      have := Nat.mul_le_mul_right (256 ^ n) hb
      rw [getLE, Nat.pow_succ]
      omega

theorem getLE_leBytes (v n : Nat) : (leBytes v).getLE 0 n = v % 256 ^ n := by
  induction n with
  | zero => simp [getLE, Nat.mod_one]
  | succ n ih =>
      have hbyte : (leBytes v (0 + n)).toNat = v / 256 ^ n % 256 := by simp [leBytes]
      rw [getLE, ih, hbyte, Nat.pow_succ, Nat.mod_mul]
      ring

theorem getLE_putLE_self (m : Mem) (off n v : Nat) :
    (m.putLE off n v).getLE off n = v % 256 ^ n := by
  rw [← getLE_leBytes]
  refine getLE_congr fun i hi => ?_
  rw [putLE, blit_inside (by omega) (by omega)]
  simp

theorem getLE_blit_outside {m src : Mem} {off n off' n' : Nat}
    (h : off' + n' ≤ off ∨ off + n ≤ off') :
    (m.blit off src n).getLE off' n' = m.getLE off' n' := by
  refine getLE_congr fun i hi => ?_
  exact blit_outside (by omega)

theorem getLE_blit_inside {m src : Mem} {off n off' n' : Nat} (hlo : off ≤ off')
    (hhi : off' + n' ≤ off + n) :
    (m.blit off src n).getLE off' n' = src.getLE (off' - off) n' := by
  refine getLE_congr fun i hi => ?_
  rw [blit_inside (by omega) (by omega)]
  congr 1
  omega

@[simp] theorem getLE_drop (m : Mem) (a off n : Nat) :
    (m.drop a).getLE off n = m.getLE (a + off) n := by
  refine getLE_congr fun i _ => ?_
  rw [drop_apply, Nat.add_assoc]

theorem getLE_putLE_outside {m : Mem} {off n v off' n' : Nat}
    (h : off' + n' ≤ off ∨ off + n ≤ off') :
    (m.putLE off n v).getLE off' n' = m.getLE off' n' :=
  getLE_blit_outside h

theorem putLE_outside {m : Mem} {off n v i : Nat} (h : i < off ∨ off + n ≤ i) :
    m.putLE off n v i = m i :=
  blit_outside h

/-- The `n` bytes of `v` as a list. -/
def leList (n v : Nat) : Bytes := (leBytes v).read 0 n

@[simp] theorem length_leList (n v : Nat) : (leList n v).length = n := by
  simp [leList]

theorem Holds.getLE {m : Mem} {off n v : Nat} (h : m.Holds off (leList n v)) :
    m.getLE off n = v % 256 ^ n := by
  rw [← getLE_leBytes]
  refine getLE_congr fun i hi => ?_
  rw [h i (by simpa using hi)]
  simp [leList, read]

theorem holds_putLE (m : Mem) (off n v : Nat) : (m.putLE off n v).Holds off (leList n v) := by
  intro k hk
  rw [length_leList] at hk
  rw [putLE, blit_inside (by omega) (by omega)]
  simp [leList, read]

end Mem

end Wednesday.Lib
