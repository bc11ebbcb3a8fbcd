import Wednesday.Page

/-!
Reading one header field or slot after another has been written. The simp
lemmas collapse the chains of updates that the page operations produce; writes
behind the header are covered by their offset.
-/

namespace Wednesday

open Lib

theorem u16_lt (x : Int) : u16 x < 65536 := by
  simp only [u16]
  omega

theorem u16_of_bounds {x : Int} (h₀ : 0 ≤ x) (h : x < 65536) : u16 x = x.toNat := by
  simp only [u16]
  omega

@[simp] theorem u16_mod (x : Int) : u16 x % 65536 = u16 x :=
  Nat.mod_eq_of_lt (u16_lt x)

section

variable (page : Mem) (v : Nat)

theorem cellCount_lt : cellCount page < 65536 := Mem.getLE_lt page 0 2
theorem dataStart_lt : dataStart page < 65536 := Mem.getLE_lt page 2 2
theorem freeSpace_lt : freeSpace page < 65536 := Mem.getLE_lt page 4 2
theorem pageRight_lt : pageRight page < 2 ^ 32 := Mem.getLE_lt page 8 4

@[simp] theorem cellCount_setCellCount : cellCount (setCellCount page v) = v % 65536 :=
  Mem.getLE_putLE_self page 0 2 v
@[simp] theorem dataStart_setDataStart : dataStart (setDataStart page v) = v % 65536 :=
  Mem.getLE_putLE_self page 2 2 v
@[simp] theorem freeSpace_setFreeSpace : freeSpace (setFreeSpace page v) = v % 65536 :=
  Mem.getLE_putLE_self page 4 2 v
@[simp] theorem pageFlags_setPageFlags : pageFlags (setPageFlags page v) = v % 65536 :=
  Mem.getLE_putLE_self page 6 2 v
@[simp] theorem pageRight_setPageRight : pageRight (setPageRight page v) = v % 2 ^ 32 :=
  Mem.getLE_putLE_self page 8 4 v

@[simp] theorem dataStart_setCellCount : dataStart (setCellCount page v) = dataStart page :=
  Mem.getLE_putLE_outside (by omega)
@[simp] theorem freeSpace_setCellCount : freeSpace (setCellCount page v) = freeSpace page :=
  Mem.getLE_putLE_outside (by omega)
@[simp] theorem pageFlags_setCellCount : pageFlags (setCellCount page v) = pageFlags page :=
  Mem.getLE_putLE_outside (by omega)
@[simp] theorem pageRight_setCellCount : pageRight (setCellCount page v) = pageRight page :=
  Mem.getLE_putLE_outside (by omega)

@[simp] theorem cellCount_setDataStart : cellCount (setDataStart page v) = cellCount page :=
  Mem.getLE_putLE_outside (by omega)
@[simp] theorem freeSpace_setDataStart : freeSpace (setDataStart page v) = freeSpace page :=
  Mem.getLE_putLE_outside (by omega)
@[simp] theorem pageFlags_setDataStart : pageFlags (setDataStart page v) = pageFlags page :=
  Mem.getLE_putLE_outside (by omega)
@[simp] theorem pageRight_setDataStart : pageRight (setDataStart page v) = pageRight page :=
  Mem.getLE_putLE_outside (by omega)

@[simp] theorem cellCount_setFreeSpace : cellCount (setFreeSpace page v) = cellCount page :=
  Mem.getLE_putLE_outside (by omega)
@[simp] theorem dataStart_setFreeSpace : dataStart (setFreeSpace page v) = dataStart page :=
  Mem.getLE_putLE_outside (by omega)
@[simp] theorem pageFlags_setFreeSpace : pageFlags (setFreeSpace page v) = pageFlags page :=
  Mem.getLE_putLE_outside (by omega)
@[simp] theorem pageRight_setFreeSpace : pageRight (setFreeSpace page v) = pageRight page :=
  Mem.getLE_putLE_outside (by omega)

@[simp] theorem cellCount_setPageFlags : cellCount (setPageFlags page v) = cellCount page :=
  Mem.getLE_putLE_outside (by omega)
@[simp] theorem dataStart_setPageFlags : dataStart (setPageFlags page v) = dataStart page :=
  Mem.getLE_putLE_outside (by omega)
@[simp] theorem freeSpace_setPageFlags : freeSpace (setPageFlags page v) = freeSpace page :=
  Mem.getLE_putLE_outside (by omega)
@[simp] theorem pageRight_setPageFlags : pageRight (setPageFlags page v) = pageRight page :=
  Mem.getLE_putLE_outside (by omega)

@[simp] theorem cellCount_setPageRight : cellCount (setPageRight page v) = cellCount page :=
  Mem.getLE_putLE_outside (by omega)
@[simp] theorem dataStart_setPageRight : dataStart (setPageRight page v) = dataStart page :=
  Mem.getLE_putLE_outside (by omega)
@[simp] theorem freeSpace_setPageRight : freeSpace (setPageRight page v) = freeSpace page :=
  Mem.getLE_putLE_outside (by omega)
@[simp] theorem pageFlags_setPageRight : pageFlags (setPageRight page v) = pageFlags page :=
  Mem.getLE_putLE_outside (by omega)

end

/-! ### Writes behind the header -/

section

variable {page src : Mem} {off n v i j : Nat}

@[simp] theorem cellCount_blit (h : sizeofHeader ≤ off) :
    cellCount (page.blit off src n) = cellCount page :=
  Mem.getLE_blit_outside (by simp only [sizeofHeader] at h; omega)
@[simp] theorem dataStart_blit (h : sizeofHeader ≤ off) :
    dataStart (page.blit off src n) = dataStart page :=
  Mem.getLE_blit_outside (by simp only [sizeofHeader] at h; omega)
@[simp] theorem freeSpace_blit (h : sizeofHeader ≤ off) :
    freeSpace (page.blit off src n) = freeSpace page :=
  Mem.getLE_blit_outside (by simp only [sizeofHeader] at h; omega)
@[simp] theorem pageFlags_blit (h : sizeofHeader ≤ off) :
    pageFlags (page.blit off src n) = pageFlags page :=
  Mem.getLE_blit_outside (by simp only [sizeofHeader] at h; omega)
@[simp] theorem pageRight_blit (h : sizeofHeader ≤ off) :
    pageRight (page.blit off src n) = pageRight page :=
  Mem.getLE_blit_outside (by simp only [sizeofHeader] at h; omega)

@[simp] theorem cellCount_setPageCell : cellCount (setPageCell page i v) = cellCount page :=
  cellCount_blit (by simp only [sizeofHeader]; omega)
@[simp] theorem dataStart_setPageCell : dataStart (setPageCell page i v) = dataStart page :=
  dataStart_blit (by simp only [sizeofHeader]; omega)
@[simp] theorem freeSpace_setPageCell : freeSpace (setPageCell page i v) = freeSpace page :=
  freeSpace_blit (by simp only [sizeofHeader]; omega)
@[simp] theorem pageFlags_setPageCell : pageFlags (setPageCell page i v) = pageFlags page :=
  pageFlags_blit (by simp only [sizeofHeader]; omega)
@[simp] theorem pageRight_setPageCell : pageRight (setPageCell page i v) = pageRight page :=
  pageRight_blit (by simp only [sizeofHeader]; omega)

theorem pageCell_setPageCell_self : pageCell (setPageCell page i v) i = v % 65536 :=
  Mem.getLE_putLE_self page _ 2 v

theorem pageCell_setPageCell_ne (h : j ≠ i) :
    pageCell (setPageCell page i v) j = pageCell page j :=
  Mem.getLE_putLE_outside (by simp only [sizeofHeader]; omega)

theorem pageCell_blit (h : sizeofHeader + 2 * (i + 1) ≤ off) :
    pageCell (page.blit off src n) i = pageCell page i :=
  Mem.getLE_blit_outside (by simp only [sizeofHeader] at *; omega)

@[simp] theorem pageCell_setCellCount : pageCell (setCellCount page v) i = pageCell page i :=
  Mem.getLE_putLE_outside (by simp only [sizeofHeader]; omega)
@[simp] theorem pageCell_setDataStart : pageCell (setDataStart page v) i = pageCell page i :=
  Mem.getLE_putLE_outside (by simp only [sizeofHeader]; omega)
@[simp] theorem pageCell_setFreeSpace : pageCell (setFreeSpace page v) i = pageCell page i :=
  Mem.getLE_putLE_outside (by simp only [sizeofHeader]; omega)
@[simp] theorem pageCell_setPageFlags : pageCell (setPageFlags page v) i = pageCell page i :=
  Mem.getLE_putLE_outside (by simp only [sizeofHeader]; omega)
@[simp] theorem pageCell_setPageRight : pageCell (setPageRight page v) i = pageCell page i :=
  Mem.getLE_putLE_outside (by simp only [sizeofHeader]; omega)

theorem pageCell_lt : pageCell page i < 65536 := Mem.getLE_lt page _ 2

end

/-! ### Bytes behind the header -/

section

variable {page : Mem} {v i k : Nat}

theorem setCellCount_body (h : sizeofHeader ≤ k) : setCellCount page v k = page k :=
  Mem.putLE_outside (by simp only [sizeofHeader] at h; omega)
theorem setDataStart_body (h : sizeofHeader ≤ k) : setDataStart page v k = page k :=
  Mem.putLE_outside (by simp only [sizeofHeader] at h; omega)
theorem setFreeSpace_body (h : sizeofHeader ≤ k) : setFreeSpace page v k = page k :=
  Mem.putLE_outside (by simp only [sizeofHeader] at h; omega)
theorem setPageFlags_body (h : sizeofHeader ≤ k) : setPageFlags page v k = page k :=
  Mem.putLE_outside (by simp only [sizeofHeader] at h; omega)
theorem setPageRight_body (h : sizeofHeader ≤ k) : setPageRight page v k = page k :=
  Mem.putLE_outside (by simp only [sizeofHeader] at h; omega)
theorem setPageCell_body (h : sizeofHeader + 2 * (i + 1) ≤ k) :
    setPageCell page i v k = page k :=
  Mem.putLE_outside (by simp only [sizeofHeader] at *; omega)

end

end Wednesday
