import Mathlib.Data.Nat.Bitwise
import Wednesday.Lib.Bytes

/-!
The variable-length integers of `varint.c`: seven bits to a byte, the high bit
announcing another byte, and a ninth byte that carries eight bits. Values are
`uint64_t`, pointers are memories.
-/

namespace Wednesday

open Lib

/-- The loop of `varint_put` for values that use the top byte. Its counter is
decremented, so the iteration at `0` wraps to `65535` and is the last one. -/
def varintPutTop (dst : Mem) (value : Nat) : Nat → Mem × Nat
  | 0 => (dst.store 0 (UInt8.ofNat (value &&& 0x7f ||| 0x80)), value >>> 7)
  | i + 1 =>
      varintPutTop (dst.store (i + 1) (UInt8.ofNat (value &&& 0x7f ||| 0x80))) (value >>> 7) i

/-- The `do`-`while` loop of `varint_put`; a 64-bit value has at most ten groups. -/
def varintPutLoop : Nat → Mem → Nat → Nat → Mem × Nat
  | 0, dst, _, i => (dst, i)
  | fuel + 1, dst, value, i =>
      let dst := dst.store i (UInt8.ofNat (value &&& 0x7f ||| 0x80))
      let value := value >>> 7
      if 0 < value then varintPutLoop fuel dst value (i + 1) else (dst, i + 1)

/-- `varint_put`: the buffer afterwards and the number of bytes reported. -/
def varintPut (dst : Mem) (value : Nat) : Mem × Nat :=
  if value &&& 0xff <<< 56 ≠ 0 then
    let (dst, value) := varintPutTop dst value 0
    (dst.store 8 (UInt8.ofNat (value &&& 0xff)), 9)
  else
    let (dst, i) := varintPutLoop 10 dst value 0
    (dst.store (i - 1) (dst (i - 1) &&& 0x7f), i)

def varintPutLenLoop : Nat → Nat → Nat → Nat
  | 0, _, i => i
  | fuel + 1, value, i =>
      let value := value >>> 7
      if value ≠ 0 ∧ i + 1 < 9 then varintPutLenLoop fuel value (i + 1) else i + 1

def varintPutLen (value : Nat) : Nat := varintPutLenLoop 9 value 0

/-- The loop of `varint_get`: the decoded value and the number of bytes read. -/
def varintGetLoop (src : Mem) : Nat → Nat → Nat → Nat × Nat
  | 0, i, result => (result, i)
  | fuel + 1, i, result =>
      let c := (src i).toNat
      let result :=
        if i < 8 then result ||| (c &&& 0x7f) <<< (7 * i) else result ||| c <<< (7 * 8)
      if c &&& 0x80 = 0 ∨ 9 ≤ i + 1 then (result, i + 1)
      else varintGetLoop src fuel (i + 1) result

def varintGet (src : Mem) : Nat × Nat := varintGetLoop src 9 0 0

def varintGetLenLoop (src : Mem) : Nat → Nat → Nat
  | 0, i => i
  | fuel + 1, i =>
      if i < 8 ∧ 0 < (src i).toNat &&& 0x80 then varintGetLenLoop src fuel (i + 1) else i

def varintGetLen (src : Mem) : Nat := varintGetLenLoop src 8 0 + 1

/-! ### Single bytes -/

theorem and_7f (n : Nat) : n &&& 0x7f = n % 128 := by
  exact Nat.and_two_pow_sub_one_eq_mod n 7

theorem and_80 (c : UInt8) : c.toNat &&& 0x80 = if c.toNat < 128 then 0 else 0x80 := by
  have hc := c.toNat_lt
  have hbit : c.toNat.testBit 7 = decide (128 ≤ c.toNat) := by
    rw [Nat.testBit_eq_decide_div_mod_eq]
    congr 1
    simp only [eq_iff_iff]
    omega
  rw [show (0x80 : Nat) = 2 ^ 7 from rfl, Nat.and_two_pow, hbit]
  split
  · rw [decide_eq_false (by omega)]
    rfl
  · rw [decide_eq_true (by omega)]
    rfl

theorem group_byte (v : Nat) : v &&& 0x7f ||| 0x80 = v % 128 + 128 := by
  rw [and_7f]
  have hlt : v % 128 < 128 := Nat.mod_lt _ (by omega)
  have h : 2 ^ 7 * 1 + v % 128 = 2 ^ 7 * 1 ||| v % 128 :=
    Nat.two_pow_add_eq_or_of_lt hlt 1
  rw [Nat.or_comm, Nat.add_comm]
  exact h.symm

theorem clear_high (c : UInt8) : (c &&& 0x7f).toNat = c.toNat % 128 := by
  rw [UInt8.toNat_and]
  exact and_7f _

theorem or_shift {r d k : Nat} (hr : r < 2 ^ k) : r ||| d <<< k = r + d * 2 ^ k := by
  rw [Nat.shiftLeft_eq, Nat.or_comm, Nat.mul_comm, ← Nat.two_pow_add_eq_or_of_lt hr]
  omega

/-! ### What the decoder computes -/

/-- The value of the first `n` seven-bit groups. -/
def varintGroups (src : Mem) : Nat → Nat
  | 0 => 0
  | n + 1 => varintGroups src n + (src n).toNat % 128 * 128 ^ n

theorem varintGroups_lt (src : Mem) (n : Nat) : varintGroups src n < 128 ^ n := by
  induction n with
  | zero => simp [varintGroups]
  | succ n ih =>
      have hd : (src n).toNat % 128 ≤ 127 := by omega
      have := Nat.mul_le_mul_right (128 ^ n) hd
      rw [varintGroups, Nat.pow_succ]
      omega

theorem varintGroups_congr {src src' : Mem} {n : Nat} (h : ∀ i < n, src i = src' i) :
    varintGroups src n = varintGroups src' n := by
  induction n with
  | zero => rfl
  | succ n ih => simp only [varintGroups, ih fun i hi => h i (by omega), h n (by omega)]

theorem pow_128 (n : Nat) : 128 ^ n = 2 ^ (7 * n) := by
  rw [Nat.pow_mul]

theorem varintGetLenLoop_le (src : Mem) (fuel i : Nat) (hi : i ≤ 8) :
    i ≤ varintGetLenLoop src fuel i ∧ varintGetLenLoop src fuel i ≤ 8 := by
  induction fuel generalizing i with
  | zero => simp [varintGetLenLoop, hi]
  | succ fuel ih =>
      rw [varintGetLenLoop]
      split
      · have := ih (i + 1) (by omega)
        omega
      · omega

theorem varintGetLen_pos (src : Mem) : 1 ≤ varintGetLen src := by
  simp [varintGetLen]

theorem varintGetLen_le (src : Mem) : varintGetLen src ≤ 9 := by
  have := (varintGetLenLoop_le src 8 0 (by omega)).2
  rw [varintGetLen]
  omega

/-- The length loop stops at the first byte below `128`, and at the ninth. -/
theorem varintGetLenLoop_spec (src : Mem) (fuel i : Nat) (hf : fuel + i = 8) :
    (∀ j, i ≤ j → j < varintGetLenLoop src fuel i → 128 ≤ (src j).toNat) ∧
      (varintGetLenLoop src fuel i < 8 → (src (varintGetLenLoop src fuel i)).toNat < 128) := by
  induction fuel generalizing i with
  | zero =>
      simp only [varintGetLenLoop]
      exact ⟨fun j h₁ h₂ => by omega, fun h => by omega⟩
  | succ fuel ih =>
      rw [varintGetLenLoop]
      split
      · rename_i hc
        obtain ⟨hhigh, hstop⟩ := ih (i + 1) (by omega)
        refine ⟨fun j h₁ h₂ => ?_, hstop⟩
        rcases Nat.lt_or_ge i j with hij | hij
        · exact hhigh j (by omega) h₂
        · obtain rfl : i = j := by omega
          have := hc.2
          rw [and_80] at this
          split at this <;> omega
      · rename_i hc
        refine ⟨fun j h₁ h₂ => by omega, fun h => ?_⟩
        rw [and_80] at hc
        by_contra hge
        exact hc ⟨h, by rw [if_neg hge]; omega⟩

theorem varintGetLen_high {src : Mem} {j : Nat} (h : j + 1 < varintGetLen src) :
    128 ≤ (src j).toNat := by
  rw [varintGetLen] at h
  exact (varintGetLenLoop_spec src 8 0 rfl).1 j (by omega) (by omega)

theorem varintGetLen_last {src : Mem} (h : varintGetLen src < 9) :
    (src (varintGetLen src - 1)).toNat < 128 := by
  rw [varintGetLen] at h ⊢
  exact (varintGetLenLoop_spec src 8 0 rfl).2 (by omega)

/-- The two facts that pin the length down. -/
theorem varintGetLen_eq {src : Mem} {n : Nat} (hn : 1 ≤ n) (hn9 : n ≤ 9)
    (hhigh : ∀ j, j + 1 < n → 128 ≤ (src j).toNat)
    (hlast : n < 9 → (src (n - 1)).toNat < 128) : varintGetLen src = n := by
  rcases Nat.lt_trichotomy (varintGetLen src) n with h | h | h
  · have hlow : (src (varintGetLen src - 1)).toNat < 128 := varintGetLen_last (by omega)
    have hpos := varintGetLen_pos src
    have := hhigh (varintGetLen src - 1) (by omega)
    omega
  · exact h
  · have hle := varintGetLen_le src
    have : 128 ≤ (src (n - 1)).toNat := varintGetLen_high (by omega)
    have := hlast (by omega)
    omega

/-- The value read from the first `n` bytes: groups of seven bits, and all
eight bits of a ninth byte. -/
def varintValue (src : Mem) (n : Nat) : Nat :=
  if n ≤ 8 then varintGroups src n else varintGroups src 8 + (src 8).toNat * 128 ^ 8

theorem varintGetLoop_eq (src : Mem) (fuel i result : Nat) (hf : fuel + i = 9)
    (hi : i < varintGetLen src) (hr : result = varintGroups src i) :
    varintGetLoop src fuel i result =
      (varintValue src (varintGetLen src), varintGetLen src) := by
  have hlen := varintGetLen_le src
  induction fuel generalizing i result with
  | zero => omega
  | succ fuel ih =>
      have hlt : result < 2 ^ (7 * i) := by
        rw [hr, ← pow_128]
        exact varintGroups_lt src i
      rw [varintGetLoop]
      simp only [and_80, and_7f]
      rcases Nat.lt_or_ge (i + 1) (varintGetLen src) with hnext | hnext
      · have hhigh := varintGetLen_high hnext
        rw [if_neg (show ¬ (src i).toNat < 128 by omega), if_pos (show i < 8 by omega),
          if_neg (by omega), or_shift hlt, ← pow_128]
        exact ih (i + 1) _ (by omega) hnext (by rw [hr, varintGroups])
      · obtain hn : varintGetLen src = i + 1 := by omega
        rw [hn]
        rcases Nat.lt_or_ge i 8 with h8 | h8
        · have hlast : (src (varintGetLen src - 1)).toNat < 128 := varintGetLen_last (by omega)
          rw [hn, Nat.add_sub_cancel] at hlast
          rw [if_pos hlast, if_pos h8, or_shift hlt, ← pow_128, if_pos (Or.inl rfl),
            varintValue, if_pos (by omega), varintGroups, hr]
        · obtain rfl : i = 8 := by omega
          rw [if_neg (show ¬ 8 < 8 by omega), or_shift hlt, if_pos (Or.inr (by omega)),
            varintValue, if_neg (by omega), hr]
          norm_num

theorem varintGet_eq (src : Mem) :
    varintGet src = (varintValue src (varintGetLen src), varintGetLen src) :=
  varintGetLoop_eq src 9 0 0 rfl (varintGetLen_pos src) rfl

@[simp] theorem varintGet_snd (src : Mem) : (varintGet src).2 = varintGetLen src := by
  rw [varintGet_eq]

theorem varintGet_fst_lt (src : Mem) : (varintGet src).1 < 2 ^ 64 := by
  rw [varintGet_eq]
  simp only [varintValue]
  split
  · rename_i h
    calc
      varintGroups src (varintGetLen src) < 128 ^ varintGetLen src := varintGroups_lt src _
      _ ≤ 128 ^ 8 := Nat.pow_le_pow_right (by omega) h
      _ ≤ 2 ^ 64 := by norm_num
  · have h8 := varintGroups_lt src 8
    have := (src 8).toNat_lt
    norm_num at h8 ⊢
    omega

/-- Length and value are determined by the bytes that are read. -/
theorem varintGet_congr {src src' : Mem} (h : ∀ i < varintGetLen src, src i = src' i) :
    varintGetLen src' = varintGetLen src ∧ (varintGet src').1 = (varintGet src).1 := by
  have hpos := varintGetLen_pos src
  have hlen : varintGetLen src' = varintGetLen src := by
    refine varintGetLen_eq hpos (varintGetLen_le src) (fun j hj => ?_) fun h9 => ?_
    · rw [← h j (by omega)]
      exact varintGetLen_high hj
    · rw [← h _ (by omega)]
      exact varintGetLen_last h9
  refine ⟨hlen, ?_⟩
  rw [varintGet_eq, varintGet_eq, hlen]
  simp only [varintValue]
  split
  · exact (varintGroups_congr h).symm
  · have hle := varintGetLen_le src
    rw [h 8 (by omega)]
    congr 1
    exact varintGroups_congr fun i hi => (h i (by omega)).symm

/-! ### What the encoder writes -/

/-- The loop writes the groups of `value` from `i` on and leaves the rest of
the buffer alone; it stops after the last non-zero group. -/
theorem varintPutLoop_spec (fuel k : Nat) (dst : Mem) (value i : Nat) (hk : k < fuel)
    (hv : value < 128 ^ (k + 1)) :
    ∃ d n, varintPutLoop fuel dst value i = (d, i + n + 1) ∧ n ≤ k ∧ value < 128 ^ (n + 1) ∧
      (∀ j ≤ n, (d (i + j)).toNat = value / 128 ^ j % 128 + 128) ∧
      ∀ j, j < i ∨ i + n < j → d j = dst j := by
  induction fuel generalizing k dst value i with
  | zero => omega
  | succ fuel ih =>
      rw [varintPutLoop]
      simp only [group_byte, Nat.shiftRight_eq_div_pow, show 2 ^ 7 = 128 from rfl]
      have hbyte : (UInt8.ofNat (value % 128 + 128)).toNat = value % 128 + 128 := by
        rw [UInt8.toNat_ofNat']
        omega
      by_cases h : 0 < value / 128
      · rw [if_pos h]
        obtain ⟨k, rfl⟩ : ∃ k', k = k' + 1 := by
          cases k with
          | zero => omega
          | succ k => exact ⟨k, rfl⟩
        have hv' : value / 128 < 128 ^ (k + 1) := by
          rw [Nat.div_lt_iff_lt_mul (by omega), ← Nat.pow_succ]
          exact hv
        obtain ⟨d, n, heq, hn, hlt, hin, hout⟩ :=
          ih k (dst.store i (UInt8.ofNat (value % 128 + 128))) (value / 128) (i + 1)
            (by omega) hv'
        refine ⟨d, n + 1, ?_, by omega, ?_, fun j hj => ?_, fun j hj => ?_⟩
        · rw [heq]
          congr 1
          omega
        · rw [Nat.pow_succ]
          exact (Nat.div_lt_iff_lt_mul (by omega)).mp hlt
        · cases j with
          | zero =>
              rw [Nat.add_zero, hout i (Or.inl (by omega)), Mem.store_self, hbyte, Nat.pow_zero,
                Nat.div_one]
          | succ j =>
              rw [show i + (j + 1) = i + 1 + j by omega, hin j (by omega), Nat.div_div_eq_div_mul,
                Nat.pow_succ, Nat.mul_comm 128]
        · rw [hout j (by omega), Mem.store_of_ne (by omega)]
      · rw [if_neg h]
        refine ⟨_, 0, rfl, by omega, by omega, fun j hj => ?_, fun j hj => ?_⟩
        · obtain rfl : j = 0 := by omega
          simp only [Nat.add_zero, Mem.store_self, hbyte, Nat.pow_zero, Nat.div_one]
        · exact Mem.store_of_ne (by omega)

theorem top_byte_clear {value : Nat} (h : value < 2 ^ 56) : value &&& 0xff <<< 56 = 0 := by
  apply Nat.eq_of_testBit_eq
  intro i
  simp only [Nat.testBit_and, Nat.testBit_shiftLeft, Nat.zero_testBit]
  rcases Nat.lt_or_ge i 56 with hi | hi
  · simp [show ¬ i ≥ 56 by omega]
  · rw [Nat.testBit_lt_two_pow (Nat.lt_of_lt_of_le h (Nat.pow_le_pow_right (by omega) hi))]
    simp

theorem varintGroups_digits {src : Mem} (value : Nat) {n : Nat}
    (h : ∀ j < n, (src j).toNat % 128 = value / 128 ^ j % 128) :
    varintGroups src n = value % 128 ^ n := by
  induction n with
  | zero => simp [varintGroups, Nat.mod_one]
  | succ n ih =>
      rw [varintGroups, ih fun j hj => h j (by omega), h n (by omega), Nat.pow_succ, Nat.mod_mul]
      ring

/-- Below `2 ^ 56` the encoder and the decoder are inverse to each other,
whatever the buffer held and whatever follows. -/
theorem varintPut_spec (dst : Mem) {value : Nat} (hv : value < 2 ^ 56) :
    ∃ d n, varintPut dst value = (d, n) ∧ 1 ≤ n ∧ n ≤ 8 ∧ varintGetLen d = n ∧
      (varintGet d).1 = value ∧ ∀ j, n ≤ j → d j = dst j := by
  obtain ⟨d, n, heq, hn, hlt, hin, hout⟩ :=
    varintPutLoop_spec 10 7 dst value 0 (by omega) (by norm_num at hv ⊢; exact hv)
  simp only [Nat.zero_add] at heq hin hout
  have hlast : (d n &&& 0x7f).toNat = value / 128 ^ n % 128 := by
    rw [clear_high, hin n (by omega)]
    omega
  have hother {j : Nat} (hj : j ≠ n) : d.store n (d n &&& 0x7f) j = d j := Mem.store_of_ne hj
  have hlen : varintGetLen (d.store n (d n &&& 0x7f)) = n + 1 := by
    refine varintGetLen_eq (by omega) (by omega) (fun j hj => ?_) fun _ => ?_
    · rw [hother (by omega), hin j (by omega)]
      omega
    · rw [Nat.add_sub_cancel, Mem.store_self, hlast]
      omega
  refine ⟨d.store n (d n &&& 0x7f), n + 1, ?_, by omega, by omega, hlen, ?_, fun j hj => ?_⟩
  · rw [varintPut, if_neg (by rw [top_byte_clear hv]; simp), heq]
    rfl
  · rw [varintGet_eq, hlen]
    simp only [varintValue]
    rw [if_pos (by omega), varintGroups_digits value fun j hj => ?_,
      Nat.mod_eq_of_lt hlt]
    rcases Nat.lt_or_ge j n with hjn | hjn
    · rw [hother (by omega), hin j (by omega)]
      omega
    · obtain rfl : j = n := by omega
      rw [Mem.store_self, hlast]
      omega
  · rw [hother (by omega), hout j (by omega)]

end Wednesday
