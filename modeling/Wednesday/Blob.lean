import Wednesday.Varint

/-!
Blobs: a size and a pointer, and the length-prefixed encoding of `blob.c`.
-/

namespace Wednesday

open Lib

structure Blob where
  size : Nat
  data : Mem

/-- The bytes of a blob. -/
def Blob.bytes (blob : Blob) : Bytes := blob.data.read 0 blob.size

/-- The blob whose bytes are given. -/
def Blob.ofBytes (bs : Bytes) : Blob := ⟨bs.length, Mem.ofBytes bs⟩

/-- `blob_put`: the buffer afterwards and the number of bytes reported. -/
def blobPut (dst : Mem) (blob : Blob) : Mem × Nat :=
  let (dst, vintLen) := varintPut dst blob.size
  (dst.blit vintLen blob.data blob.size, (vintLen + blob.size) % 2 ^ 64)

def blobPutLen (blob : Blob) : Nat := (varintPutLen blob.size + blob.size) % 2 ^ 64

def blobGet (src : Mem) : Blob × Nat :=
  let (size, vintLen) := varintGet src
  (⟨size, src.drop vintLen⟩, (vintLen + size) % 2 ^ 64)

def blobGetLen (src : Mem) : Nat :=
  let (blobLen, vintLen) := varintGet src
  (vintLen + blobLen) % 2 ^ 64

@[simp] theorem Blob.length_bytes (blob : Blob) : blob.bytes.length = blob.size := by
  simp [Blob.bytes]

@[simp] theorem Blob.bytes_ofBytes (bs : Bytes) : (Blob.ofBytes bs).bytes = bs := by
  simp only [Blob.bytes, Blob.ofBytes]
  exact Mem.holds_iff_read.mp (Mem.holds_ofBytes bs)

theorem Blob.holds_bytes (blob : Blob) : blob.data.Holds 0 blob.bytes :=
  Mem.holds_read blob.data 0 blob.size

/-- A complete encoding: a length prefix and exactly that many bytes. -/
def IsBlob (bs : Bytes) : Prop :=
  ∃ n payload, bs = n ++ payload ∧ varintGet (Mem.ofBytes bs) = (payload.length, n.length)

/-- `blob_get_len` measures a complete encoding, whatever follows it. -/
theorem blobGetLen_of_holds {bs : Bytes} (hbs : IsBlob bs) (hlen : bs.length < 2 ^ 64)
    {m : Mem} (h : m.Holds 0 bs) : blobGetLen m = bs.length := by
  obtain ⟨n, payload, rfl, hget⟩ := hbs
  have hn : varintGetLen (Mem.ofBytes (n ++ payload)) = n.length := by
    rw [← varintGet_snd, hget]
  have hagree : ∀ i < varintGetLen (Mem.ofBytes (n ++ payload)),
      Mem.ofBytes (n ++ payload) i = m i := by
    intro i hi
    have hlt : i < (n ++ payload).length := by
      rw [List.length_append]
      omega
    have := h i hlt
    rw [Nat.zero_add] at this
    rw [this, ← Mem.holds_ofBytes (n ++ payload) i hlt, Nat.zero_add]
  obtain ⟨hlen', hval⟩ := varintGet_congr hagree
  rw [List.length_append] at hlen ⊢
  rw [blobGetLen, varintGet_eq m]
  simp only [varintGet_eq m] at hval
  rw [hval, hlen', hget, hn]
  exact Nat.mod_eq_of_lt hlen

/-- What `blob_put` writes is a complete encoding, and `blob_get` reads the blob
back from wherever these bytes stand. -/
theorem blobPut_spec (dst : Mem) {blob : Blob} (hsize : blob.size < 2 ^ 56) :
    ∃ m n, blobPut dst blob = (m, n) ∧ blob.size < n ∧ n ≤ blob.size + 8 ∧
      IsBlob (m.read 0 n) ∧
      ∀ m' : Mem, m'.Holds 0 (m.read 0 n) → (blobGet m').1.bytes = blob.bytes := by
  obtain ⟨d, k, hput, hk1, hk8, hlen, hval, -⟩ := varintPut_spec dst hsize
  have hmod : (k + blob.size) % 2 ^ 64 = k + blob.size := Nat.mod_eq_of_lt (by omega)
  have hprefix : ∀ m' : Mem, m'.Holds 0 ((d.blit k blob.data blob.size).read 0 (k + blob.size)) →
      varintGet m' = (blob.size, k) ∧ m'.Holds k blob.bytes := by
    intro m' hm'
    have hread : ∀ i < k + blob.size, m' i = d.blit k blob.data blob.size i := by
      intro i hi
      have := hm' i (by simpa using hi)
      simpa [Mem.read] using this
    have hagree : ∀ i < varintGetLen d, d i = m' i := by
      intro i hi
      rw [hread i (by omega), Mem.blit_outside (by omega)]
    obtain ⟨hlen', hval'⟩ := varintGet_congr hagree
    constructor
    · rw [Prod.ext_iff]
      exact ⟨by rw [hval', hval], by rw [varintGet_snd, hlen', hlen]⟩
    · intro i hi
      rw [Blob.length_bytes] at hi
      rw [hread _ (by omega), Mem.blit_inside (by omega) (by omega)]
      simp [Blob.bytes, Mem.read]
  refine ⟨d.blit k blob.data blob.size, k + blob.size, ?_, ?_, ?_, ?_, fun m' hm' => ?_⟩
  · simp only [blobPut, hput, hmod]
  · omega
  · omega
  · have hself := Mem.holds_ofBytes ((d.blit k blob.data blob.size).read 0 (k + blob.size))
    obtain ⟨hget, -⟩ := hprefix _ hself
    refine ⟨((d.blit k blob.data blob.size).read 0 (k + blob.size)).take k,
      ((d.blit k blob.data blob.size).read 0 (k + blob.size)).drop k,
      (List.take_append_drop _ _).symm, ?_⟩
    rw [hget]
    simp
  · obtain ⟨hget, hdata⟩ := hprefix m' hm'
    rw [blobGet, hget]
    have := Mem.holds_iff_read.mp hdata.drop
    rwa [Blob.length_bytes] at this

end Wednesday
