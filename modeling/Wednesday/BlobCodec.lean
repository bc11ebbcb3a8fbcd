import Wednesday.Blob
import Wednesday.VarintRoundTrip

/-!
The codec of blobs: `blob_put`, `blob_put_len`, `blob_get` and `blob_get_len`
measure an encoding alike, and the blob put is the blob got.
-/

namespace Wednesday

open Lib

/-- The bytes `varint_put` writes: groups of seven bits, all but the last with the high bit. -/
theorem varintPut_byte (dst : Mem) {value j : Nat} (hv : value < 2 ^ 56)
    (hj : j < varintPutLen value) :
    ((varintPut dst value).1 j).toNat =
      value / 128 ^ j % 128 + if j + 1 < varintPutLen value then 128 else 0 := by
  obtain ⟨d, n, hput, hpos, hn, hlen, hval, -⟩ := varintPut_spec dst hv
  have hputLen : varintPutLen value = n := by
    rw [varintPutLen_eq dst hv, hput]
  rw [hputLen] at hj ⊢
  rw [hput]
  show (d j).toNat = _
  have hgroups : varintGroups d n = value % 128 ^ n := by
    have hlt := varintGroups_lt d n
    rw [varintGet_eq, hlen] at hval
    simp only [varintValue, if_pos hn] at hval
    rw [← hval, Nat.mod_eq_of_lt hlt]
  have hlow := groups_of_varintGroups hgroups hj
  have hbyte := (d j).toNat_lt
  split
  · rename_i hnext
    have hhigh := @varintGetLen_high d j (by omega)
    omega
  · have hlast := @varintGetLen_last d (by omega)
    obtain rfl : j = n - 1 := by omega
    rw [hlen] at hlast
    omega

/-- The encoding of a blob: a prefix of `n` bytes, and the bytes of the blob. -/
structure Encodes (dst : Mem) (blob : Blob) (d : Mem) (n : Nat) : Prop where
  run : blobPut dst blob = (d.blit n blob.data blob.size, n + blob.size)
  total : blobPutLen blob = n + blob.size
  vint : varintPut dst blob.size = (d, n)
  vintLen : varintPutLen blob.size = n
  vintGetLen : varintGetLen d = n
  vintGet : (varintGet d).1 = blob.size
  behind : ∀ j, n ≤ j → d j = dst j
  small : n ≤ 8

theorem exists_encodes (dst : Mem) {blob : Blob} (hsize : blob.size < 2 ^ 56) :
    ∃ d n, Encodes dst blob d n := by
  obtain ⟨d, n, hput, hpos, hn, hlen, hval, hrest⟩ := varintPut_spec dst hsize
  have hputLen : varintPutLen blob.size = n := by
    rw [varintPutLen_eq dst hsize, hput]
  have hmod : (n + blob.size) % 2 ^ 64 = n + blob.size := Nat.mod_eq_of_lt (by omega)
  refine ⟨d, n, ?_, ?_, hput, hputLen, hlen, hval, hrest, hn⟩
  · simp only [blobPut, hput, hmod]
  · rw [blobPutLen, hputLen, hmod]

/-- What is written does not depend on what the buffer held. -/
theorem blobPut_congr (dst dst' : Mem) {blob : Blob} {i : Nat} (hsize : blob.size < 2 ^ 56)
    (hi : i < blobPutLen blob) : (blobPut dst blob).1 i = (blobPut dst' blob).1 i := by
  obtain ⟨d, n, h⟩ := exists_encodes dst hsize
  obtain ⟨d', n', h'⟩ := exists_encodes dst' hsize
  obtain rfl : n = n' := h.vintLen.symm.trans h'.vintLen
  rw [h.total] at hi
  simp only [h.run, h'.run]
  rcases Nat.lt_or_ge i n with hprefix | hpayload
  · rw [Mem.blit_outside (Or.inl hprefix), Mem.blit_outside (Or.inl hprefix)]
    apply UInt8.toNat_inj.mp
    have hbyte := varintPut_byte dst hsize (h.vintLen.symm ▸ hprefix)
    have hbyte' := varintPut_byte dst' hsize (h.vintLen.symm ▸ hprefix)
    rw [h.vint] at hbyte
    rw [h'.vint] at hbyte'
    exact hbyte.trans hbyte'.symm
  · rw [Mem.blit_inside hpayload hi, Mem.blit_inside hpayload hi]

/-- Nothing is written behind the encoding. -/
theorem blobPut_behind (dst : Mem) {blob : Blob} {i : Nat} (hsize : blob.size < 2 ^ 56)
    (hi : blobPutLen blob ≤ i) : (blobPut dst blob).1 i = dst i := by
  obtain ⟨d, n, h⟩ := exists_encodes dst hsize
  rw [h.total] at hi
  simp only [h.run]
  rw [Mem.blit_outside (Or.inr hi)]
  exact h.behind i (by omega)

/-- Wherever the encoding stands, the blob is read from it. -/
theorem blobGet_of_put (dst : Mem) {blob : Blob} {src : Mem} (hsize : blob.size < 2 ^ 56)
    (hsrc : ∀ i < blobPutLen blob, src i = (blobPut dst blob).1 i) :
    (blobGet src).2 = blobPutLen blob ∧ (blobGet src).1.size = blob.size ∧
      (blobGet src).1.bytes = blob.bytes := by
  obtain ⟨d, n, h⟩ := exists_encodes dst hsize
  have hn := h.small
  have hlen := h.vintGetLen
  simp only [h.run, h.total] at hsrc ⊢
  have hprefix : ∀ i < varintGetLen d, d i = src i := by
    intro i hi
    rw [hsrc i (by omega), Mem.blit_outside (Or.inl (by omega))]
  obtain ⟨hlen', hval⟩ := varintGet_congr hprefix
  have hget : varintGet src = (blob.size, n) := by
    apply Prod.ext
    · exact hval.trans h.vintGet
    · rw [varintGet_snd, hlen', hlen]
  have hbytes : (⟨blob.size, src.drop n⟩ : Blob).bytes = blob.bytes := by
    apply List.map_congr_left
    intro i hi
    have hlt : i < blob.size := List.mem_range.mp hi
    simp only [Mem.drop_apply, Nat.zero_add]
    rw [hsrc (n + i) (by omega), Mem.blit_inside (by omega) (by omega), Nat.add_sub_cancel_left]
  rw [blobGet, hget]
  exact ⟨Nat.mod_eq_of_lt (by omega), rfl, hbytes⟩

/-- `blob_put` writes the bytes it counts and no others, and the blob is got back
from them, whatever stood there before and whatever follows; on any bytes
`blob_get` and `blob_get_len` measure alike. -/
theorem blob_codec :
    (∀ (dst : Mem) (blob : Blob), blob.size < 2 ^ 56 →
      (blobPut dst blob).2 = blobPutLen blob ∧
      (∀ i, blobPutLen blob ≤ i → (blobPut dst blob).1 i = dst i) ∧
      (∀ dst' i, i < blobPutLen blob → (blobPut dst blob).1 i = (blobPut dst' blob).1 i) ∧
      ∀ src : Mem, (∀ i < blobPutLen blob, src i = (blobPut dst blob).1 i) →
        (blobGet src).2 = blobPutLen blob ∧ (blobGet src).1.size = blob.size ∧
          (blobGet src).1.bytes = blob.bytes) ∧
    ∀ src, blobGetLen src = (blobGet src).2 := by
  refine ⟨fun dst blob hsize => ⟨?_, ?_, ?_, ?_⟩, fun _ => rfl⟩
  · obtain ⟨d, n, h⟩ := exists_encodes dst hsize
    rw [h.run, h.total]
  · exact fun i hi => blobPut_behind dst hsize hi
  · exact fun dst' i hi => blobPut_congr dst dst' hsize hi
  · exact fun src hsrc => blobGet_of_put dst hsize hsrc

/-- A blob of 200 bytes takes two more for its length. -/
theorem blob_codec_once : ∃ blob : Blob, blob.size = 200 ∧ ∀ dst : Mem,
    (blobPut dst blob).2 = 202 ∧ (blobPut dst blob).1 202 = dst 202 ∧
      (blobGet (blobPut dst blob).1).1.bytes = blob.bytes := by
  refine ⟨⟨200, fun _ => 7⟩, rfl, fun dst => ?_⟩
  have hlen : blobPutLen ⟨200, fun _ => 7⟩ = 202 := by decide
  obtain ⟨hput, hbehind, -, hget⟩ := blob_codec.1 dst ⟨200, fun _ => 7⟩ (by decide)
  exact ⟨hput.trans hlen, hbehind 202 hlen.le, (hget _ fun _ _ => rfl).2.2⟩

example : (blobGet (blobPut (fun _ => 0xff) (Blob.ofBytes [7, 8, 9])).1).1.bytes = [7, 8, 9] := by
  decide

end Wednesday
