import Mathlib.Data.Finset.Card
import Wednesday.PagerDirectory

/-!
What holds of a pager between two calls, and what each call does to it. A call
touches the page it is about; of the others it keeps the data and the latch,
except that it may evict one page nobody holds.
-/

namespace Wednesday

open Lib Prog

namespace Pager

/-- The frame the directory maps the id to. -/
def locate (p : Pager) (id : PageId) : Option Nat :=
  HashEntry.find id (p.directory (pagerHash p.mask id)).slots

def setCreateHead (p : Pager) (head : Nat) : Pager := { p with createHead := head }

/-- The ring entries in use. -/
def occupied (p : Pager) : Finset Nat :=
  (Finset.range p.size).filter fun f => (p.ring f).pageId ≠ 0

/-- The latch word and the exclusive flag agree. -/
structure LatchOk (header : Frame) : Prop where
  low : -(2 ^ 31) ≤ header.latch
  high : header.latch < 2 ^ 31
  exclusive : header.flags &&& PAGE_FLAG_EXCLUSIVE ≠ 0 ↔ header.latch = -1

/-- Directory and ring map the same pages to the same frames, and `page_count`
counts the entries in use and `k` reserved ones. -/
structure Ok (k : Nat) (p : Pager) : Prop where
  sizePos : 0 < p.size
  sizeLt : p.size < 2 ^ 32
  distinct : ∀ h, HashEntry.Distinct (p.directory h).slots
  hashed : ∀ h, ∀ m ∈ (p.directory h).slots, m.pageId ≠ 0 → pagerHash p.mask m.pageId = h
  mapped : ∀ id f, id ≠ 0 → p.locate id = some f →
    f < p.size ∧ (p.ring f).pageId = id ∧ (p.ring f).allocated = true
  located : ∀ f < p.size, (p.ring f).pageId ≠ 0 → p.locate (p.ring f).pageId = some f
  latched : ∀ f < p.size, (p.ring f).pageId ≠ 0 → LatchOk (p.header f)
  named : ∀ f < p.size, (p.ring f).pageId ≠ 0 → (p.header f).id = (p.ring f).pageId
  reserved : p.occupied.card + k = p.pageCount
  capacity : p.pageCount < p.size

/-- What no call changes. -/
structure SameShape (p p' : Pager) : Prop where
  pageSize : p'.pageSize = p.pageSize
  size : p'.size = p.size
  mask : p'.mask = p.mask

/-- The page is where it was, with its data and its latch. -/
def Same (p p' : Pager) (id : PageId) : Prop :=
  p'.locate id = p.locate id ∧ ∀ f, p.locate id = some f →
    (p'.header f).data = (p.header f).data ∧ (p'.header f).latch = (p.header f).latch

/-- The page was in a frame that nobody held and is not there any more. -/
def Gone (p p' : Pager) (id : PageId) : Prop :=
  p'.locate id = none ∧ ∃ f, p.locate id = some f ∧ (p.header f).latch = 0

theorem SameShape.refl (p : Pager) : SameShape p p := ⟨rfl, rfl, rfl⟩

theorem SameShape.trans {p q r : Pager} (h : SameShape p q) (h' : SameShape q r) : SameShape p r :=
  ⟨h'.pageSize.trans h.pageSize, h'.size.trans h.size, h'.mask.trans h.mask⟩

theorem Same.refl (p : Pager) (id : PageId) : Same p p id := ⟨rfl, fun _ _ => ⟨rfl, rfl⟩⟩

theorem Same.trans {p q r : Pager} {id : PageId} (h : Same p q id) (h' : Same q r id) :
    Same p r id := by
  refine ⟨h'.1.trans h.1, fun f hf => ?_⟩
  obtain ⟨hdata, hlatch⟩ := h.2 f hf
  obtain ⟨hdata', hlatch'⟩ := h'.2 f (h.1.trans hf)
  exact ⟨hdata'.trans hdata, hlatch'.trans hlatch⟩

theorem Gone.of_same {p q r : Pager} {id : PageId} (h : Same p q id) (h' : Gone q r id) :
    Gone p r id := by
  obtain ⟨hnone, f, hf, hlatch⟩ := h'
  have hf' := h.1.symm.trans hf
  exact ⟨hnone, f, hf', (h.2 f hf').2 ▸ hlatch⟩

/-! ### Updates -/

section

variable (p : Pager) (f g : Nat) (entry : RingEntry) (header : Frame) (id : PageId)

@[simp] theorem ring_setRing : (p.setRing f entry).ring = Function.update p.ring f entry := rfl
@[simp] theorem directory_setRing : (p.setRing f entry).directory = p.directory := rfl
@[simp] theorem size_setRing : (p.setRing f entry).size = p.size := rfl
@[simp] theorem mask_setRing : (p.setRing f entry).mask = p.mask := rfl
@[simp] theorem pageSize_setRing : (p.setRing f entry).pageSize = p.pageSize := rfl
@[simp] theorem pageCount_setRing : (p.setRing f entry).pageCount = p.pageCount := rfl
@[simp] theorem nextPage_setRing : (p.setRing f entry).nextPage = p.nextPage := rfl
@[simp] theorem evictHead_setRing : (p.setRing f entry).evictHead = p.evictHead := rfl
@[simp] theorem locate_setRing : (p.setRing f entry).locate id = p.locate id := rfl

@[simp] theorem ring_setCreateHead : (p.setCreateHead f).ring = p.ring := rfl
@[simp] theorem size_setCreateHead : (p.setCreateHead f).size = p.size := rfl

@[simp] theorem header_setHeader_self : (p.setHeader f header).header f = header := by
  simp [Pager.header, setHeader]

theorem header_setHeader_ne (h : g ≠ f) : (p.setHeader f header).header g = p.header g := by
  simp [Pager.header, setHeader, h]

@[simp] theorem pageId_setHeader : ((p.setHeader f header).ring g).pageId = (p.ring g).pageId := by
  simp only [setHeader, ring_setRing, Function.update_apply]
  split
  · rename_i h
    rw [h]
  · rfl

@[simp] theorem allocated_setHeader :
    ((p.setHeader f header).ring g).allocated = (p.ring g).allocated := by
  simp only [setHeader, ring_setRing, Function.update_apply]
  split
  · rename_i h
    rw [h]
  · rfl

@[simp] theorem directory_setHeader : (p.setHeader f header).directory = p.directory := rfl
@[simp] theorem size_setHeader : (p.setHeader f header).size = p.size := rfl
@[simp] theorem mask_setHeader : (p.setHeader f header).mask = p.mask := rfl
@[simp] theorem pageSize_setHeader : (p.setHeader f header).pageSize = p.pageSize := rfl
@[simp] theorem pageCount_setHeader : (p.setHeader f header).pageCount = p.pageCount := rfl
@[simp] theorem nextPage_setHeader : (p.setHeader f header).nextPage = p.nextPage := rfl
@[simp] theorem locate_setHeader : (p.setHeader f header).locate id = p.locate id := rfl

@[simp] theorem occupied_setHeader : (p.setHeader f header).occupied = p.occupied := by
  simp [occupied]

/-- Writing a header keeps the maps. -/
theorem Ok.setHeader {k : Nat} {p : Pager} (h : Ok k p) {f : Nat} {header : Frame}
    (hname : header.id = (p.header f).id)
    (hlatch : f < p.size → (p.ring f).pageId ≠ 0 → LatchOk header) :
    Ok k (p.setHeader f header) where
  sizePos := h.sizePos
  sizeLt := h.sizeLt
  distinct := h.distinct
  hashed := h.hashed
  mapped id g hid hg := by simpa using h.mapped id g hid hg
  located g hg hne := by simpa using h.located g hg (by simpa using hne)
  latched g hg hne := by
    rw [pageId_setHeader] at hne
    by_cases hgf : g = f
    · subst hgf
      rw [header_setHeader_self]
      exact hlatch hg hne
    · rw [header_setHeader_ne _ _ _ _ hgf]
      exact h.latched g hg hne
  named g hg hne := by
    rw [pageId_setHeader] at hne ⊢
    by_cases hgf : g = f
    · subst hgf
      rw [header_setHeader_self, hname]
      exact h.named g hg hne
    · rw [header_setHeader_ne _ _ _ _ hgf]
      exact h.named g hg hne
  reserved := by
    rw [occupied_setHeader]
    exact h.reserved
  capacity := h.capacity

end

/-- Two pages are in different frames. -/
theorem Ok.locate_inj {k : Nat} {p : Pager} (h : Ok k p) {i j : PageId} {f : Nat} (hi : i ≠ 0)
    (hj : j ≠ 0) (hif : p.locate i = some f) (hjf : p.locate j = some f) : i = j := by
  rw [← (h.mapped i f hi hif).2.1, ← (h.mapped j f hj hjf).2.1]

theorem Ok.latchOk {k : Nat} {p : Pager} (h : Ok k p) {id : PageId} {f : Nat} (hid : id ≠ 0)
    (hf : p.locate id = some f) : LatchOk (p.header f) := by
  obtain ⟨hlt, hpage, -⟩ := h.mapped id f hid hf
  exact h.latched f hlt (by rwa [hpage])

/-- Writing the header of another page changes nothing for this one. -/
theorem Ok.same_setHeader {k : Nat} {p : Pager} (h : Ok k p) {i j : PageId} {f : Nat}
    {header : Frame} (hi : i ≠ 0) (hj : j ≠ 0) (hif : p.locate i = some f) (hne : j ≠ i) :
    Same p (p.setHeader f header) j := by
  refine ⟨rfl, fun g hg => ?_⟩
  have hgf : g ≠ f := by
    rintro rfl
    exact hne (h.locate_inj hj hi hg hif)
  rw [header_setHeader_ne _ _ _ _ hgf]
  exact ⟨rfl, rfl⟩

end Pager

@[simp] theorem getPager_apply (s : Sys) : getPager s = .success s.pager s := rfl

@[simp] theorem modifyPager_apply (f : Pager → Pager) (s : Sys) :
    modifyPager f s = .success () { s with pager := f s.pager } := rfl

end Wednesday
