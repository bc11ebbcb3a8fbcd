import Wednesday.Varint

/-!
Which values survive `varint_put`. Values below `2 ^ 56` do in every buffer. The
loop for the larger ones stops after one group, and leaves the rest to what the
buffer held. Bytes that no `varint_put` wrote are read and skipped by one length.
-/

namespace Wednesday

open Lib

/-! ### Groups determine the value, and the value the groups -/

theorem groups_of_varintGroups {src : Mem} {value n : Nat}
    (h : varintGroups src n = value % 128 ^ n) {j : Nat} (hj : j < n) :
    (src j).toNat % 128 = value / 128 ^ j % 128 := by
  induction n with
  | zero => omega
  | succ n ih =>
      have hlow := varintGroups_lt src n
      have hlow' := Nat.mod_lt value (Nat.pow_pos (n := n) (show 0 < 128 by decide))
      rw [varintGroups, Nat.pow_succ, Nat.mod_mul, Nat.mul_comm (128 ^ n)] at h
      have hgroup : (src n).toNat % 128 = value / 128 ^ n % 128 := by
        have hdiv := congrArg (· / 128 ^ n) h
        simpa [Nat.add_mul_div_right _ _ (Nat.pow_pos (n := n) (show 0 < 128 by decide)),
          Nat.div_eq_of_lt hlow, Nat.div_eq_of_lt hlow'] using hdiv
      rcases Nat.lt_or_ge j n with hjn | hjn
      · refine ih ?_ hjn
        rw [hgroup] at h
        omega
      · obtain rfl : j = n := by omega
        exact hgroup

/-! ### The length -/

theorem varintPutLenLoop_eq (k fuel fuel' : Nat) (dst : Mem) (value i : Nat) (hk : k < fuel)
    (hk' : k < fuel') (hv : value < 128 ^ (k + 1)) (hi : i + k ≤ 8) :
    varintPutLenLoop fuel' value i = (varintPutLoop fuel dst value i).2 := by
  induction k generalizing fuel fuel' dst value i with
  | zero =>
      obtain ⟨fuel, rfl⟩ := Nat.exists_eq_add_of_lt hk
      obtain ⟨fuel', rfl⟩ := Nat.exists_eq_add_of_lt hk'
      have hzero : value >>> 7 = 0 := by
        rw [Nat.shiftRight_eq_div_pow]
        omega
      simp [varintPutLenLoop, varintPutLoop, hzero]
  | succ k ih =>
      obtain ⟨fuel, rfl⟩ : ∃ m, fuel = m + 1 := ⟨fuel - 1, by omega⟩
      obtain ⟨fuel', rfl⟩ : ∃ m, fuel' = m + 1 := ⟨fuel' - 1, by omega⟩
      rw [varintPutLenLoop, varintPutLoop]
      by_cases hzero : value >>> 7 = 0
      · simp [hzero]
      · have hv' : value >>> 7 < 128 ^ (k + 1) := by
          rw [Nat.shiftRight_eq_div_pow, Nat.div_lt_iff_lt_mul (by decide)]
          rwa [Nat.pow_succ] at hv
        rw [if_pos ⟨hzero, by omega⟩, if_pos (Nat.pos_of_ne_zero hzero)]
        exact ih fuel fuel' _ _ (i + 1) (by omega) (by omega) hv' (by omega)

theorem varintPutLenLoop_top (fuel value i : Nat) (hf : fuel + i = 9) (hfuel : 1 ≤ fuel)
    (hv : 128 ^ (fuel - 1) ≤ value) : varintPutLenLoop fuel value i = 9 := by
  induction fuel generalizing value i with
  | zero => omega
  | succ fuel ih =>
      rw [varintPutLenLoop, Nat.shiftRight_eq_div_pow]
      rcases Nat.eq_zero_or_pos fuel with rfl | hpos
      · rw [if_neg (by omega)]
        omega
      · have hv' : 128 ^ (fuel - 1) ≤ value / 2 ^ 7 := by
          rw [Nat.le_div_iff_mul_le (by decide)]
          calc 128 ^ (fuel - 1) * 2 ^ 7 = 128 ^ (fuel - 1 + 1) := (Nat.pow_succ ..).symm
            _ = 128 ^ fuel := by rw [Nat.sub_add_cancel hpos]
            _ ≤ value := hv
        have hne : value / 2 ^ 7 ≠ 0 :=
          (Nat.lt_of_lt_of_le (Nat.pow_pos (by decide)) hv').ne'
        rw [if_pos ⟨hne, by omega⟩]
        exact ih _ (i + 1) (by omega) hpos hv'

/-- The length announced is the length written. -/
theorem varintPutLen_eq (dst : Mem) {value : Nat} (hv : value < 2 ^ 56) :
    varintPutLen value = (varintPut dst value).2 := by
  rw [varintPut, if_neg (by rw [top_byte_clear hv]; simp), varintPutLen]
  exact varintPutLenLoop_eq 7 10 9 dst value 0 (by decide) (by decide)
    (by norm_num at hv ⊢; exact hv)
    (by decide)

theorem varintPutLen_top {value : Nat} (hv : 2 ^ 56 ≤ value) : varintPutLen value = 9 :=
  varintPutLenLoop_top 9 value 0 rfl (by decide) (by norm_num at hv ⊢; exact hv)

/-! ### Values that use the top byte -/

theorem top_byte_set {value : Nat} (hv : 2 ^ 56 ≤ value) (hlt : value < 2 ^ 64) :
    value &&& 0xff <<< 56 ≠ 0 := by
  obtain ⟨i, hi, hbit⟩ := Nat.exists_ge_and_testBit_of_ge_two_pow hv
  have hi' : i < 64 := by
    by_contra hge
    rw [Nat.testBit_lt_two_pow (Nat.lt_of_lt_of_le hlt (Nat.pow_le_pow_right (by decide)
      (by omega)))] at hbit
    cases hbit
  intro hzero
  have hand := congrArg (Nat.testBit · i) hzero
  have hmask : Nat.testBit 0xff (i - 56) = true := by
    rw [show (0xff : Nat) = 2 ^ 8 - 1 from rfl, Nat.testBit_two_pow_sub_one]
    exact decide_eq_true (by omega)
  rw [Nat.testBit_and, Nat.testBit_shiftLeft, hbit, hmask, decide_eq_true hi,
    Nat.zero_testBit] at hand
  cases hand

/-- The bytes that are written: the first group, and two groups further the last byte. -/
theorem varintPut_top (dst : Mem) {value : Nat} (hv : 2 ^ 56 ≤ value) (hlt : value < 2 ^ 64) :
    varintPut dst value = ((dst.store 0 (UInt8.ofNat (value % 128 + 128))).store 8
      (UInt8.ofNat (value / 128 % 256)), 9) := by
  have hlast : value >>> 7 &&& 0xff = value / 128 % 256 := by
    rw [Nat.shiftRight_eq_div_pow]
    exact Nat.and_two_pow_sub_one_eq_mod _ 8
  rw [varintPut, if_pos (top_byte_set hv hlt), varintPutTop]
  dsimp only
  rw [hlast, group_byte]

/-- The nine bytes the decoder expects for a value that uses the top byte. -/
theorem varintGet_nine_iff (src : Mem) (value : Nat) :
    varintGetLen src = 9 ∧ (varintGet src).1 = value ↔
      (∀ j < 8, (src j).toNat = 128 + value / 128 ^ j % 128) ∧ (src 8).toNat = value / 2 ^ 56 := by
  have hsplit : value = value % 128 ^ 8 + value / 2 ^ 56 * 128 ^ 8 := by
    have := Nat.mod_add_div value (128 ^ 8)
    norm_num at this ⊢
    omega
  constructor
  · rintro ⟨hlen, hget⟩
    have hgroups := varintGroups_lt src 8
    have hlow := Nat.mod_lt value (show 0 < 128 ^ 8 by decide)
    rw [varintGet_eq, hlen] at hget
    simp only [varintValue, show ¬ 9 ≤ 8 by decide, if_false] at hget
    have hlast : (src 8).toNat = value / 2 ^ 56 := by
      norm_num at hget hsplit hgroups hlow ⊢
      omega
    have hrest : varintGroups src 8 = value % 128 ^ 8 := by
      norm_num at hget hsplit hgroups hlow ⊢
      omega
    refine ⟨fun j hj => ?_, hlast⟩
    have hhigh : 128 ≤ (src j).toNat := varintGetLen_high (by omega)
    have hbyte := (src j).toNat_lt
    have hgroup := groups_of_varintGroups hrest hj
    omega
  · rintro ⟨hgroups, hlast⟩
    have hlen : varintGetLen src = 9 := by
      refine varintGetLen_eq (by decide) le_rfl (fun j hj => ?_) fun h => by omega
      rw [hgroups j (by omega)]
      omega
    refine ⟨hlen, ?_⟩
    rw [varintGet_eq, hlen]
    simp only [varintValue, show ¬ 9 ≤ 8 by decide, if_false]
    rw [varintGroups_digits value fun j hj => ?_, hlast]
    · exact hsplit.symm
    · rw [hgroups j hj]
      omega

/-! ### The round trip -/

/-- Encoding and decoding: every buffer that starts with the bytes reported to be
written decodes to the value and the length, which is the announced one. -/
def VarintRoundTrip (dst : Mem) (value : Nat) : Prop :=
  let (d, n) := varintPut dst value
  (∀ src : Mem, (∀ i < n, src i = d i) → varintGet src = (value, n) ∧ varintGetLen src = n) ∧
    n = varintPutLen value ∧ n ≤ 9

theorem varintRoundTrip_iff {dst d : Mem} {value n : Nat} (hput : varintPut dst value = (d, n))
    (hlen : n = varintPutLen value) (hle : n ≤ 9) :
    VarintRoundTrip dst value ↔ varintGetLen d = n ∧ (varintGet d).1 = value := by
  simp only [VarintRoundTrip, hput]
  constructor
  · rintro ⟨h, -⟩
    obtain ⟨hget, hn⟩ := h d fun _ _ => rfl
    exact ⟨hn, by rw [hget]⟩
  · rintro ⟨hn, hget⟩
    refine ⟨fun src hsrc => ?_, hlen, hle⟩
    have hsame : ∀ i < varintGetLen d, d i = src i := fun i hi => (hsrc i (hn ▸ hi)).symm
    obtain ⟨hlen', hget'⟩ := varintGet_congr hsame
    exact ⟨Prod.ext (hget'.trans hget) ((varintGet_snd src).trans (hlen'.trans hn)), hlen'.trans hn⟩

/-- A value survives if it leaves the top byte unused, or if the buffer already
holds the groups that are not written and the byte written for the last one is
that one. -/
theorem varint_round_trip (dst : Mem) {value : Nat} (hlt : value < 2 ^ 64) :
    VarintRoundTrip dst value ↔ value < 2 ^ 56 ∨
      ((∀ j, 1 ≤ j → j ≤ 7 → (dst j).toNat = 128 + value / 128 ^ j % 128) ∧
        value / 128 % 256 = value / 2 ^ 56) := by
  rcases Nat.lt_or_ge value (2 ^ 56) with hv | hv
  · obtain ⟨d, n, hput, -, hn, hlen, hget, -⟩ := varintPut_spec dst hv
    have hput' : n = varintPutLen value := by
      rw [varintPutLen_eq dst hv, hput]
    rw [varintRoundTrip_iff hput hput' (by omega)]
    exact ⟨fun _ => Or.inl hv, fun _ => ⟨hlen, hget⟩⟩
  · rw [varintRoundTrip_iff (varintPut_top dst hv hlt) (varintPutLen_top hv).symm le_rfl,
      varintGet_nine_iff, or_iff_right (by omega)]
    set d := (dst.store 0 (UInt8.ofNat (value % 128 + 128))).store 8
      (UInt8.ofNat (value / 128 % 256)) with hd
    have hfirst : (d 0).toNat = 128 + value / 128 ^ 0 % 128 := by
      rw [hd, Mem.store_of_ne (by decide), Mem.store_self, UInt8.toNat_ofNat']
      omega
    have hmid : ∀ j, 1 ≤ j → j ≤ 7 → d j = dst j := fun j h₁ h₇ => by
      rw [hd, Mem.store_of_ne (by omega), Mem.store_of_ne (by omega)]
    have hlast : (d 8).toNat = value / 128 % 256 := by
      rw [hd, Mem.store_self, UInt8.toNat_ofNat']
      omega
    rw [hlast]
    refine and_congr_left fun _ => ⟨fun h j h₁ h₇ => ?_, fun h j hj => ?_⟩
    · rw [← hmid j h₁ h₇]
      exact h j (by omega)
    · rcases Nat.eq_zero_or_pos j with rfl | hpos
      · exact hfirst
      · rw [hmid j hpos (by omega)]
        exact h j hpos (by omega)

theorem varint_round_trip_once : VarintRoundTrip (fun _ => 0xff) (2 ^ 64 - 1) :=
  (varint_round_trip _ (by decide)).mpr (Or.inr ⟨by decide, by decide⟩)

/-- The smallest value with a top byte, in a buffer of zeros. -/
theorem varint_loses_top_byte : ¬ ∀ (dst : Mem) (value : Nat), value < 2 ^ 64 →
    VarintRoundTrip dst value := by
  intro h
  have hzero := ((h (fun _ => 0) (2 ^ 56) (by decide)).1 _ fun _ _ => rfl).2
  exact absurd hzero (by decide)

/-! ### Arbitrary bytes -/

/-- `varint_get` reads as many bytes as `varint_get_len` skips, between one and
nine, and length and value are those of every sequence that starts with them. -/
structure MeasuresAgree (src : Mem) : Prop where
  length : (varintGet src).2 = varintGetLen src
  pos : 1 ≤ varintGetLen src
  le : varintGetLen src ≤ 9
  leading : ∀ src' : Mem, (∀ i < varintGetLen src, src' i = src i) →
    varintGetLen src' = varintGetLen src ∧ (varintGet src').2 = (varintGet src).2 ∧
      (varintGet src').1 = (varintGet src).1

/-- The two measures agree on all bytes, whether or not they are an encoding. -/
theorem varint_measures_agree (src : Mem) : MeasuresAgree src := by
  refine ⟨varintGet_snd src, varintGetLen_pos src, varintGetLen_le src, fun src' hsame => ?_⟩
  obtain ⟨hlen, hvalue⟩ := varintGet_congr fun i hi => (hsame i hi).symm
  refine ⟨hlen, ?_, hvalue⟩
  calc
    (varintGet src').2 = varintGetLen src' := varintGet_snd src'
    _ = varintGetLen src := hlen
    _ = (varintGet src).2 := (varintGet_snd src).symm

end Wednesday
