import Wednesday.Lib.BigEndian

/-!
The packing of `uuid.c`: three big-endian copies, and two patches for the
version and the variant.
-/

namespace Wednesday

open Lib

/-- `intcpy (dst + off, src, n)`. -/
def intcpy (dst : Mem) (off src n : Nat) : Mem := dst.putBE off src n

/-- `uuid_v7_package`; the arguments are `uint64_t`. -/
def uuidV7Package (out : Mem) (timestamp randA randB : Nat) : Mem :=
  let out := intcpy out 0 timestamp 6
  let out := intcpy out 6 randA 2
  let out := intcpy out 8 randB 8
  -- set version to 7
  let out := out.store 6 (UInt8.ofNat ((out 6).toNat &&& 0x0f ||| 7 <<< 4))
  -- set variant to 2
  out.store 8 (UInt8.ofNat ((out 8).toNat &&& 0x3f ||| 2 <<< 6))

def uuidTimestamp (uuid : Mem) : Nat := uuid.getBE 6

def uuidVersion (uuid : Mem) : Nat := (uuid 6).toNat / 2 ^ 4

def uuidRandA (uuid : Mem) : Nat := (uuid.drop 6).getBE 2 % 2 ^ 12

def uuidVariant (uuid : Mem) : Nat := (uuid 8).toNat / 2 ^ 6

def uuidRandB (uuid : Mem) : Nat := (uuid.drop 8).getBE 8 % 2 ^ 62

variable {out : Mem} {timestamp randA randB i : Nat}

/-! ### The patches -/

/-- The high bits `v` are set and the low `k` bits are kept. -/
theorem patch_toNat (c : UInt8) {v k : Nat} (hk : k ≤ 8) (hv : v < 2 ^ (8 - k)) :
    (UInt8.ofNat (c.toNat &&& 2 ^ k - 1 ||| v <<< k)).toNat = v * 2 ^ k + c.toNat % 2 ^ k := by
  have hlow : c.toNat % 2 ^ k < 2 ^ k := Nat.mod_lt _ (Nat.two_pow_pos k)
  have hsum : c.toNat % 2 ^ k ||| v <<< k = v * 2 ^ k + c.toNat % 2 ^ k := by
    rw [Nat.shiftLeft_eq, Nat.or_comm, Nat.mul_comm]
    exact (Nat.two_pow_add_eq_or_of_lt hlow v).symm
  have hfits : v * 2 ^ k + c.toNat % 2 ^ k < 2 ^ 8 := by
    calc
      v * 2 ^ k + c.toNat % 2 ^ k < (v + 1) * 2 ^ k := by
        rw [Nat.succ_mul]
        omega
      _ ≤ 2 ^ (8 - k) * 2 ^ k := Nat.mul_le_mul_right _ hv
      _ = 2 ^ 8 := by rw [← Nat.pow_add, Nat.sub_add_cancel hk]
  rw [Nat.and_two_pow_sub_one_eq_mod, hsum, UInt8.toNat_ofNat', Nat.mod_eq_of_lt hfits]

theorem version_patch (c : UInt8) :
    (UInt8.ofNat (c.toNat &&& 0x0f ||| 7 <<< 4)).toNat = 7 * 2 ^ 4 + c.toNat % 2 ^ 4 :=
  patch_toNat c (k := 4) (v := 7) (by decide) (by decide)

theorem variant_patch (c : UInt8) :
    (UInt8.ofNat (c.toNat &&& 0x3f ||| 2 <<< 6)).toNat = 2 * 2 ^ 6 + c.toNat % 2 ^ 6 :=
  patch_toNat c (k := 6) (v := 2) (by decide) (by decide)

/-! ### The three fields -/

/-- A number cut above its lowest digit is cut in its other digits. -/
theorem mul_add_mod_mul {x y k n : Nat} (hy : y < k) : (x * k + y) % (n * k) = x % n * k + y := by
  have hdiv : (x * k + y) / k = x := by
    rw [Nat.mul_comm, Nat.mul_add_div (Nat.zero_lt_of_lt hy), Nat.div_eq_of_lt hy, Nat.add_zero]
  have hmod : (x * k + y) % k = y := by
    rw [Nat.mul_comm, Nat.mul_add_mod, Nat.mod_eq_of_lt hy]
  rw [Nat.mul_comm n k, Nat.mod_mul, hdiv, hmod]
  ring

theorem package_timestamp (out : Mem) (timestamp randA randB : Nat) :
    (uuidV7Package out timestamp randA randB).getBE 6 = timestamp % 2 ^ 48 := by
  have hsame : ∀ i < 6, uuidV7Package out timestamp randA randB i =
      (intcpy out 0 timestamp 6).drop 0 i := by
    intro i hi
    rw [Mem.drop_zero, uuidV7Package, Mem.store_of_ne (by omega), Mem.store_of_ne (by omega),
      intcpy, Mem.putBE_outside (Or.inl (by omega)), intcpy, Mem.putBE_outside (Or.inl hi)]
  rw [Mem.getBE_congr hsame, intcpy, Mem.getBE_putBE, show (256 : Nat) ^ 6 = 2 ^ 48 from rfl]

/-- The version stands above the bits kept of the first random part. -/
theorem package_randA (out : Mem) (timestamp randA randB : Nat) :
    ((uuidV7Package out timestamp randA randB).drop 6).getBE 2 = 7 * 2 ^ 12 + randA % 2 ^ 12 := by
  obtain ⟨m, hm⟩ : ∃ m, m = intcpy (intcpy out 0 timestamp 6) 6 randA 2 := ⟨_, rfl⟩
  have hkeep {i : Nat} (hi : i < 8) : intcpy m 8 randB 8 i = m i := Mem.putBE_outside (Or.inl hi)
  have hfirst : (uuidV7Package out timestamp randA randB 6).toNat = 7 * 2 ^ 4 +
      (m 6).toNat % 2 ^ 4 := by
    rw [uuidV7Package, Mem.store_of_ne (by decide), Mem.store_self, version_patch,
      ← hm, hkeep (by decide)]
  have hsecond : uuidV7Package out timestamp randA randB 7 = m 7 := by
    rw [uuidV7Package, Mem.store_of_ne (by decide), Mem.store_of_ne (by decide),
      ← hm, hkeep (by decide)]
  have hcopy : (m.drop 6).getBE 2 = randA % 256 ^ 2 := by
    rw [hm, intcpy, Mem.getBE_putBE]
  have hlow : randA % 2 ^ 12 = (m 6).toNat % 2 ^ 4 * 256 + (m 7).toNat := by
    rw [← mul_add_mod_mul (m 7).toNat_lt, ← Nat.mod_mod_of_dvd randA
      (show 2 ^ 12 ∣ 256 ^ 2 by decide), ← hcopy]
    simp [Mem.getBE]
  simp only [Mem.getBE, Mem.drop_apply, Nat.add_zero]
  rw [hfirst, hsecond, hlow]
  ring

/-- The variant stands above the bits kept of the second random part. -/
theorem package_randB (out : Mem) (timestamp randA randB : Nat) :
    ((uuidV7Package out timestamp randA randB).drop 8).getBE 8 = 2 * 2 ^ 62 + randB % 2 ^ 62 := by
  obtain ⟨m, hm⟩ : ∃ m, m = intcpy (intcpy (intcpy out 0 timestamp 6) 6 randA 2) 8 randB 8 :=
    ⟨_, rfl⟩
  have hfirst : (uuidV7Package out timestamp randA randB 8).toNat = 2 * 2 ^ 6 +
      (m 8).toNat % 2 ^ 6 := by
    rw [uuidV7Package, Mem.store_self, variant_patch, ← hm, Mem.store_of_ne (by decide)]
  have hrest : ∀ i < 7, (uuidV7Package out timestamp randA randB).drop 9 i = m.drop 9 i := by
    intro i _
    rw [Mem.drop_apply, Mem.drop_apply, uuidV7Package, Mem.store_of_ne (by omega),
      Mem.store_of_ne (by omega), hm]
  have hsplit (u : Mem) : (u.drop 8).getBE 8 = (u 8).toNat * 256 ^ 7 + (u.drop 9).getBE 7 := by
    rw [Mem.getBE_add _ 1 7, Mem.drop_drop]
    simp [Mem.getBE]
  have hcopy : (m.drop 8).getBE 8 = randB % 256 ^ 8 := by
    rw [hm, intcpy, Mem.getBE_putBE]
  have hlow : randB % 2 ^ 62 = (m 8).toNat % 2 ^ 6 * 256 ^ 7 + (m.drop 9).getBE 7 := by
    rw [← mul_add_mod_mul (Mem.getBE_lt _ 7), ← Nat.mod_mod_of_dvd randB
      (show 2 ^ 62 ∣ 256 ^ 8 by decide), ← hcopy, hsplit, show (2 : Nat) ^ 62 =
      2 ^ 6 * 256 ^ 7 by decide]
  rw [hsplit, hfirst, Mem.getBE_congr hrest, hlow]
  ring

/-- The 16 bytes as one number. -/
theorem package_number (out : Mem) (timestamp randA randB : Nat) :
    (uuidV7Package out timestamp randA randB).getBE 16 =
      (timestamp % 2 ^ 48 * 256 ^ 2 + (7 * 2 ^ 12 + randA % 2 ^ 12)) * 256 ^ 8 +
        (2 * 2 ^ 62 + randB % 2 ^ 62) := by
  rw [Mem.getBE_add _ 8 8, Mem.getBE_add _ 6 2, package_timestamp, package_randA, package_randB]

/-! ### Order -/

theorem compare_add_left (k x y : Nat) : compare (k + x) (k + y) = compare x y := by
  rcases Nat.lt_trichotomy x y with h | rfl | h
  · rw [compare_lt_iff_lt.mpr h, compare_lt_iff_lt.mpr (by omega)]
  · rw [compare_eq_iff_eq.mpr rfl, compare_eq_iff_eq.mpr rfl]
  · rw [compare_gt_iff_gt.mpr h, compare_gt_iff_gt.mpr (show k + x > k + y by omega)]

/-- The fields, compared one after the other. -/
def compareFields (t a b t' a' b' : Nat) : Ordering :=
  (compare (t % 2 ^ 48) (t' % 2 ^ 48)).then
    ((compare (a % 2 ^ 12) (a' % 2 ^ 12)).then (compare (b % 2 ^ 62) (b' % 2 ^ 62)))

theorem memcmp_package (out out' : Mem) (t a b t' a' b' : Nat) :
    Mem.memcmp (uuidV7Package out t a b) (uuidV7Package out' t' a' b') 16 =
      compareFields t a b t' a' b' := by
  have hb (x : Nat) : 2 * 2 ^ 62 + x % 2 ^ 62 < 256 ^ 8 := by
    have := Nat.mod_lt x (show 0 < 2 ^ 62 by decide)
    norm_num at this ⊢
    omega
  have ha (x : Nat) : 7 * 2 ^ 12 + x % 2 ^ 12 < 256 ^ 2 := by omega
  rw [Mem.memcmp_eq_compare, package_number, package_number, compare_mul_add (hb b) (hb b'),
    compare_mul_add (ha a) (ha a'), compare_add_left, compare_add_left, Ordering.then_assoc,
      compareFields]

/-- The packing keeps the low bits of the three fields around the version and the
variant, and the order of the bytes is that of the fields. -/
theorem uuid_v7_package_fields (out out' : Mem) (t a b t' a' b' : Nat) :
    uuidVersion (uuidV7Package out t a b) = 7 ∧ uuidVariant (uuidV7Package out t a b) = 2 ∧
    uuidTimestamp (uuidV7Package out t a b) = t % 2 ^ 48 ∧
    uuidRandA (uuidV7Package out t a b) = a % 2 ^ 12 ∧
    uuidRandB (uuidV7Package out t a b) = b % 2 ^ 62 ∧
    Mem.memcmp (uuidV7Package out t a b) (uuidV7Package out' t' a' b') 16 =
      compareFields t a b t' a' b' ∧
    ((∀ i < 16, uuidV7Package out t a b i = uuidV7Package out' t' a' b' i) ↔
      t % 2 ^ 48 = t' % 2 ^ 48 ∧ a % 2 ^ 12 = a' % 2 ^ 12 ∧ b % 2 ^ 62 = b' % 2 ^ 62) ∧
    (t % 2 ^ 48 < t' % 2 ^ 48 →
      Mem.memcmp (uuidV7Package out t a b) (uuidV7Package out' t' a' b') 16 = .lt) := by
  have hcompare := memcmp_package out out' t a b t' a' b'
  have hequal : (∀ i < 16, uuidV7Package out t a b i = uuidV7Package out' t' a' b' i) ↔
      compareFields t a b t' a' b' = .eq := by
    rw [← hcompare, Mem.memcmp_eq_compare, compare_eq_iff_eq]
    exact ⟨Mem.getBE_congr, Mem.getBE_injective⟩
  refine ⟨?_, ?_, package_timestamp out t a b, ?_, ?_, hcompare, ?_, fun hlt => ?_⟩
  · rw [uuidVersion, uuidV7Package, Mem.store_of_ne (by decide), Mem.store_self, version_patch]
    omega
  · rw [uuidVariant, uuidV7Package, Mem.store_self, variant_patch]
    omega
  · rw [uuidRandA, package_randA]
    omega
  · rw [uuidRandB, package_randB, Nat.add_comm, Nat.add_mul_mod_self_right, Nat.mod_mod]
  · rw [hequal, compareFields, Ordering.then_eq_eq, Ordering.then_eq_eq, compare_eq_iff_eq,
      compare_eq_iff_eq, compare_eq_iff_eq]
  · rw [hcompare, compareFields, compare_lt_iff_lt.mpr hlt, Ordering.lt_then]

example : (uuidV7Package (fun _ => 0xff) 1 2 3).read 0 16 =
    [0, 0, 0, 0, 0, 1, 0x70, 2, 0x80, 0, 0, 0, 0, 0, 0, 3] := by
  decide

end Wednesday
