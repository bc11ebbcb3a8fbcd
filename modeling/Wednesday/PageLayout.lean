import Mathlib.Data.Finset.Card
import Mathlib.Order.Interval.Finset.Nat
import Wednesday.PageHeader

/-!
What a well-formed page looks like: the list of its cells, each with the
offset its slot holds, packed without gap or overlap at the end of the page.
Every page operation is described by what it does to this list.
-/

namespace Wednesday

open Lib

/-- A cell with its offset in the page. -/
abbrev Cell := Nat × Bytes

/-- The bytes taken by the payloads of some cells. -/
def payloadTotal (cells : List Cell) : Nat := (cells.map fun c => c.2.length).sum

@[simp] theorem payloadTotal_nil : payloadTotal [] = 0 := rfl

@[simp] theorem payloadTotal_cons (c : Cell) (cells : List Cell) :
    payloadTotal (c :: cells) = c.2.length + payloadTotal cells := by
  simp [payloadTotal]

@[simp] theorem payloadTotal_append (as bs : List Cell) :
    payloadTotal (as ++ bs) = payloadTotal as + payloadTotal bs := by
  simp [payloadTotal]

theorem payloadTotal_congr {as bs : List Cell} (h : as.map Prod.snd = bs.map Prod.snd) :
    payloadTotal as = payloadTotal bs := by
  have := congrArg (fun l => (l.map List.length).sum) h
  simpa [payloadTotal, Function.comp_def] using this

theorem length_le_payloadTotal {cells : List Cell} {c : Cell} (h : c ∈ cells) :
    c.2.length ≤ payloadTotal cells := by
  obtain ⟨as, bs, rfl⟩ := List.append_of_mem h
  simp only [payloadTotal_append, payloadTotal_cons]
  omega

/-- Two cells do not overlap. -/
def Cell.Apart (a b : Cell) : Prop :=
  a.1 + a.2.length ≤ b.1 ∨ b.1 + b.2.length ≤ a.1

theorem Cell.Apart.symm {a b : Cell} (h : a.Apart b) : b.Apart a := Or.symm h

/-- The cells stand in `m` next to each other, filling `[start, pageSize)`. -/
structure Packed (m : Mem) (pageSize start : Nat) (cells : List Cell) : Prop where
  sum : start + payloadTotal cells = pageSize
  holds : ∀ c ∈ cells, m.Holds c.1 c.2
  inside : ∀ c ∈ cells, start ≤ c.1 ∧ c.1 + c.2.length ≤ pageSize
  apart : cells.Pairwise Cell.Apart

theorem Packed.nil (m : Mem) (pageSize : Nat) : Packed m pageSize pageSize [] :=
  ⟨by simp, by simp, by simp, .nil⟩

/-- Packing only concerns the bytes from `start` on. -/
theorem Packed.congr {m m' : Mem} {pageSize start : Nat} {cells : List Cell}
    (h : Packed m pageSize start cells) (heq : ∀ i, start ≤ i → i < pageSize → m' i = m i) :
    Packed m' pageSize start cells where
  sum := h.sum
  inside := h.inside
  apart := h.apart
  holds c hc := by
    have := h.inside c hc
    exact (h.holds c hc).congr fun i h₁ h₂ => heq i (by omega) (by omega)

/-- Copying one more payload below the cells that are there. -/
theorem Packed.insert {m : Mem} {pageSize start : Nat} {pre post : List Cell} {bs : Bytes}
    (h : Packed m pageSize start (pre ++ post)) (hle : bs.length ≤ start)
    {m' : Mem} (hnew : m'.Holds (start - bs.length) bs)
    (hold : ∀ i, start ≤ i → i < pageSize → m' i = m i) :
    Packed m' pageSize (start - bs.length) (pre ++ (start - bs.length, bs) :: post) := by
  have hcong := h.congr hold
  have hmem {c : Cell} : c ∈ pre ++ (start - bs.length, bs) :: post →
      c = (start - bs.length, bs) ∨ c ∈ pre ++ post := by
    simp only [List.mem_append, List.mem_cons]
    tauto
  constructor
  · have := h.sum
    simp only [payloadTotal_append, payloadTotal_cons] at this ⊢
    omega
  · intro c hc
    rcases hmem hc with rfl | hc
    · exact hnew
    · exact hcong.holds c hc
  · intro c hc
    have hsum := h.sum
    rcases hmem hc with rfl | hc
    · exact ⟨le_rfl, by dsimp only; omega⟩
    · have := h.inside c hc
      omega
  · have hperm : (pre ++ (start - bs.length, bs) :: post).Perm
        ((start - bs.length, bs) :: (pre ++ post)) := List.perm_middle
    refine (hperm.pairwise_iff fun hab => Cell.Apart.symm hab).mpr ?_
    refine List.pairwise_cons.mpr ⟨fun c hc => ?_, h.apart⟩
    have := h.inside c hc
    left
    dsimp only
    omega

/-- The bytes of cells that do not overlap. -/
theorem exists_bytes_of_apart {cells : List Cell} (h : cells.Pairwise Cell.Apart) :
    ∃ s : Finset Nat, s.card = payloadTotal cells ∧
      ∀ k, k ∈ s ↔ ∃ c ∈ cells, c.1 ≤ k ∧ k < c.1 + c.2.length := by
  induction h with
  | nil => exact ⟨∅, rfl, by simp⟩
  | @cons c cells hc _ ih =>
      obtain ⟨s, hcard, hs⟩ := ih
      have hdisjoint : Disjoint (Finset.Ico c.1 (c.1 + c.2.length)) s := by
        rw [Finset.disjoint_left]
        intro k hk hk'
        obtain ⟨d, hd, hle, hlt⟩ := (hs k).mp hk'
        rw [Finset.mem_Ico] at hk
        rcases hc d hd with hap | hap <;> omega
      refine ⟨Finset.Ico c.1 (c.1 + c.2.length) ∪ s, ?_, fun k => ?_⟩
      · rw [Finset.card_union_of_disjoint hdisjoint, Nat.card_Ico, hcard, payloadTotal_cons]
        omega
      · simp [hs]

/-- Packed cells leave no byte between them. -/
theorem Packed.covered {m : Mem} {pageSize start : Nat} {cells : List Cell}
    (h : Packed m pageSize start cells)
    {k : Nat} (hle : start ≤ k) (hlt : k < pageSize) :
      ∃ c ∈ cells, c.1 ≤ k ∧ k < c.1 + c.2.length := by
  obtain ⟨s, hcard, hs⟩ := exists_bytes_of_apart h.apart
  have hsub : s ⊆ Finset.Ico start pageSize := by
    intro i hi
    obtain ⟨c, hc, hci⟩ := (hs i).mp hi
    have hinside := h.inside c hc
    rw [Finset.mem_Ico]
    omega
  have hsum := h.sum
  have hall : s = Finset.Ico start pageSize := by
    apply Finset.eq_of_subset_of_card_le hsub
    rw [Nat.card_Ico, hcard]
    omega
  rw [← hs, hall, Finset.mem_Ico]
  exact ⟨hle, hlt⟩

/-- The page holds these cells, in the order of its slots. -/
structure Layout (page : Mem) (pageSize : Nat) (cells : List Cell) : Prop where
  packed : Packed page pageSize (dataStart page) cells
  count : cellCount page = cells.length
  slot : ∀ i (h : i < cells.length), pageCell page i = cells[i].1
  room : sizeofHeader + 2 * cells.length ≤ dataStart page

namespace Layout

variable {page : Mem} {pageSize : Nat} {cells : List Cell}

theorem mem_inside (h : Layout page pageSize cells) {c : Cell} (hc : c ∈ cells) :
    sizeofHeader + 2 * cells.length ≤ c.1 ∧ c.1 + c.2.length ≤ pageSize := by
  have := h.packed.inside c hc
  have := h.room
  omega

/-- The space between the slots and the payloads. -/
theorem space (h : Layout page pageSize cells) :
    pageGetSpace page + sizeofHeader + 2 * cells.length = dataStart page := by
  have hroom := h.room
  have hcount := h.count
  have hlt := dataStart_lt page
  rw [pageGetSpace, u16_of_bounds] <;> omega

theorem payload (h : Layout page pageSize cells) {i : Nat} (hi : i < cells.length) :
    (pageGetPayload page i).Holds 0 cells[i].2 := by
  rw [pageGetPayload, h.slot i hi]
  exact (h.packed.holds _ (List.getElem_mem hi)).drop

theorem congr {page' : Mem} (h : Layout page pageSize cells)
    (heq : ∀ i, dataStart page ≤ i → i < pageSize → page' i = page i)
    (hstart : dataStart page' = dataStart page) (hcount : cellCount page' = cellCount page)
    (hslot : ∀ i < cells.length, pageCell page' i = pageCell page i) :
    Layout page' pageSize cells where
  packed := by
    rw [hstart]
    exact h.packed.congr heq
  count := hcount.trans h.count
  slot i hi := (hslot i hi).trans (h.slot i hi)
  room := by
    rw [hstart]
    exact h.room

end Layout

/-- `payload_get_len` measures these bytes as the whole payload. -/
def Measured (flags : Nat) (bs : Bytes) : Prop :=
  ∀ m : Mem, m.Holds 0 bs → payloadGetLen flags m = bs.length

/-- What the loops of compaction and split rely on: slots and payloads, with
nothing said about the rest of the header. -/
structure Cells (page : Mem) (pageSize : Nat) (cells : List Cell) : Prop where
  count : cellCount page = cells.length
  slot : ∀ i (h : i < cells.length), pageCell page i = cells[i].1
  holds : ∀ c ∈ cells, page.Holds c.1 c.2
  above : ∀ c ∈ cells, sizeofHeader + 2 * cells.length ≤ c.1
  measured : ∀ c ∈ cells, Measured (pageFlags page) c.2
  fits : sizeofHeader + 2 * cells.length + payloadTotal cells ≤ pageSize
  small : pageSize < 65536

theorem Layout.cells {page : Mem} {pageSize : Nat} {cells : List Cell}
    (h : Layout page pageSize cells) (hm : ∀ c ∈ cells, Measured (pageFlags page) c.2)
    (hsize : pageSize < 65536) : Cells page pageSize cells where
  count := h.count
  slot := h.slot
  holds := h.packed.holds
  above c hc := (h.mem_inside hc).1
  measured := hm
  fits := by
    have := h.room
    have := h.packed.sum
    omega
  small := hsize

/-! ### Compaction -/

section

variable {page : Mem} {pageSize : Nat} {cells : List Cell}

/-- What `page_compact` has done after `i` iterations: the first `i` payloads
are packed in the buffer and their slots rewritten. -/
structure CompactInv (page : Mem) (pageSize : Nat) (cells : List Cell) (i : Nat)
    (s : Mem × Mem × Nat) (done : List Cell) : Prop where
  payloads : done.map Prod.snd = (cells.take i).map Prod.snd
  packed : Packed s.1 pageSize s.2.2 done
  slotDone : ∀ j (h : j < done.length), pageCell s.2.1 j = done[j].1
  slotRest : ∀ j, i ≤ j → j < cells.length → pageCell s.2.1 j = pageCell page j
  outside : ∀ k, k < sizeofHeader ∨ sizeofHeader + 2 * cells.length ≤ k → s.2.1 k = page k

theorem getLE_eq_of_header {p q : Mem} (h : ∀ k < sizeofHeader, p k = q k) {off n : Nat}
    (hle : off + n ≤ sizeofHeader) : p.getLE off n = q.getLE off n :=
  Mem.getLE_congr fun i hi => h _ (by omega)

theorem CompactInv.length {i : Nat} {s : Mem × Mem × Nat} {done : List Cell}
    (h : CompactInv page pageSize cells i s done) (hi : i ≤ cells.length) : done.length = i := by
  have := congrArg List.length h.payloads
  simpa [hi] using this

theorem payloadTotal_take_le (cells : List Cell) (i : Nat) :
    payloadTotal (cells.take i) ≤ payloadTotal cells := by
  have := payloadTotal_append (cells.take i) (cells.drop i)
  rw [List.take_append_drop] at this
  omega

/-- One more cell of a prefix. -/
theorem payloadTotal_take_succ {i : Nat} (hi : i < cells.length) :
    payloadTotal (cells.take (i + 1)) = payloadTotal (cells.take i) + cells[i].2.length := by
  rw [List.take_succ_eq_append_getElem hi, payloadTotal_append, payloadTotal_cons,
    payloadTotal_nil]
  omega

theorem CompactInv.step (hc : Cells page pageSize cells) {i : Nat} {s : Mem × Mem × Nat}
    {done : List Cell} (h : CompactInv page pageSize cells i s done) (hi : i < cells.length) :
    ∃ done', CompactInv page pageSize cells (i + 1) (pageCompactStep i s) done' := by
  obtain ⟨buffer, p, start⟩ := s
  have hlen := h.length (by omega)
  have hmem : cells[i] ∈ cells := List.getElem_mem hi
  have hflags : pageFlags p = pageFlags page :=
    getLE_eq_of_header (fun k hk => h.outside k (Or.inl hk)) (by decide)
  have hslot : pageCell p i = cells[i].1 := by
    rw [h.slotRest i le_rfl hi, hc.slot i hi]
  have hholds : p.Holds cells[i].1 cells[i].2 :=
    (hc.holds _ hmem).congr fun k hk _ =>
      h.outside k (Or.inr ((hc.above _ hmem).trans hk))
  have hsize : payloadGetLen (pageFlags p) (pageGetPayload p i) = cells[i].2.length := by
    rw [hflags, pageGetPayload, hslot]
    exact hc.measured _ hmem _ hholds.drop
  have hdone : payloadTotal done = payloadTotal (cells.take i) := payloadTotal_congr h.payloads
  have hroom : sizeofHeader + 2 * cells.length + cells[i].2.length ≤ start := by
    have hsum := h.packed.sum
    have hnext := payloadTotal_take_succ hi
    have hall := payloadTotal_take_le cells (i + 1)
    have hfits := hc.fits
    dsimp only at hsum
    omega
  have hstart : start ≤ pageSize := by
    have hsum := h.packed.sum
    dsimp only at hsum
    omega
  have hsmall := hc.small
  have hu16 : u16 ((start : Int) - cells[i].2.length) = start - cells[i].2.length := by
    rw [u16_of_bounds] <;> omega
  have hstep : pageCompactStep i (buffer, p, start) =
      (buffer.blit (start - cells[i].2.length) (pageGetPayload p i) cells[i].2.length,
        setPageCell p i (start - cells[i].2.length), start - cells[i].2.length) := by
    simp only [pageCompactStep, hsize, hu16]
  rw [hstep]
  refine ⟨done ++ [(start - cells[i].2.length, cells[i].2)], ?_, ?_, ?_, ?_, ?_⟩
  · rw [List.map_append, h.payloads, List.take_succ_eq_append_getElem hi, List.map_append]
    rfl
  · have hp : Packed buffer pageSize start (done ++ []) := by
      rw [List.append_nil]
      exact h.packed
    refine hp.insert (by omega) ?_ fun k h₁ _ => ?_
    · rw [pageGetPayload, hslot]
      exact Mem.Holds.blit hholds
    · exact Mem.blit_outside (by omega)
  · intro j hj
    rw [List.length_append, List.length_singleton] at hj
    dsimp only
    rcases Nat.lt_or_ge j i with hji | hji
    · rw [pageCell_setPageCell_ne (by omega), List.getElem_append_left (by omega)]
      exact h.slotDone j (by omega)
    · obtain rfl : j = i := by omega
      rw [pageCell_setPageCell_self, List.getElem_append_right (by omega)]
      simp only [List.getElem_singleton]
      omega
  · intro j h₁ h₂
    dsimp only
    rw [pageCell_setPageCell_ne (by omega)]
    exact h.slotRest j (by omega) h₂
  · intro k hk
    dsimp only
    rw [setPageCell, Mem.putLE_outside (by simp only [sizeofHeader] at *; omega)]
    exact h.outside k hk

/-- Compaction keeps the payloads and their order and leaves a well-formed page. -/
theorem pageCompact_layout (stack : Mem) (hc : Cells page pageSize cells) :
    ∃ done, done.map Prod.snd = cells.map Prod.snd ∧
      Layout (pageCompact stack pageSize page) pageSize done ∧
      pageFlags (pageCompact stack pageSize page) = pageFlags page ∧
      pageRight (pageCompact stack pageSize page) = pageRight page := by
  have hinv := forRange_induct 0 cells.length pageCompactStep (stack, page, pageSize)
    (fun i s => i ≤ cells.length → ∃ done, CompactInv page pageSize cells i s done)
    (fun _ => ⟨[], by simp, Packed.nil _ _, by simp, fun _ _ _ => rfl, fun _ _ => rfl⟩)
    (fun i t _ _ hI hi => by
      obtain ⟨done, hdone⟩ := hI (by omega)
      exact hdone.step hc (by omega))
  obtain ⟨done, h⟩ := hinv (by omega)
  rw [Nat.zero_add] at h
  have hlen := h.length le_rfl
  simp only [pageCompact, hc.count]
  generalize forRange 0 cells.length pageCompactStep (stack, page, pageSize) = s at h ⊢
  obtain ⟨buffer, p, start⟩ := s
  have hpay : done.map Prod.snd = cells.map Prod.snd := by
    rw [h.payloads, List.take_length]
  have htotal := payloadTotal_congr hpay
  have hsum := h.packed.sum
  have hfits := hc.fits
  have hsmall := hc.small
  dsimp only at hsum
  have hhead : sizeofHeader ≤ start := by omega
  have hcount : cellCount p = cells.length := by
    rw [← hc.count]
    exact getLE_eq_of_header (fun k hk => h.outside k (Or.inl hk)) (by decide)
  have hslotStart : sizeofHeader + 2 * cells.length ≤ start := by omega
  refine ⟨done, hpay, ⟨?_, ?_, ?_, ?_⟩, ?_, ?_⟩
  · have hstart : start % 65536 = start := Nat.mod_eq_of_lt (by omega)
    simp only [dataStart_setFreeSpace, dataStart_setDataStart, hstart]
    refine h.packed.congr fun k (h₁ : start ≤ k) h₂ => ?_
    rw [setFreeSpace_body (by omega), setDataStart_body (by omega),
      Mem.blit_inside h₁ (by omega), Mem.drop_apply]
    congr 1
    omega
  · simp [hhead, hcount, hlen]
  · intro j hj
    simp only [pageCell_setFreeSpace, pageCell_setDataStart]
    rw [pageCell_blit (by omega)]
    exact h.slotDone j hj
  · have hstart : start % 65536 = start := Nat.mod_eq_of_lt (by omega)
    simp only [dataStart_setFreeSpace, dataStart_setDataStart, hstart]
    omega
  · simp only [pageFlags_setFreeSpace, pageFlags_setDataStart, pageFlags_blit hhead]
    exact getLE_eq_of_header (fun k hk => h.outside k (Or.inl hk)) (by decide)
  · simp only [pageRight_setFreeSpace, pageRight_setDataStart, pageRight_blit hhead]
    exact getLE_eq_of_header (fun k hk => h.outside k (Or.inl hk)) (by decide)

/-- What `page_compact` takes for the free space is the space of the payloads less
that of header and slots. -/
theorem freeSpace_pageCompact (stack page : Mem) (hsmall : pageSize < 65536) :
    freeSpace (pageCompact stack pageSize page) =
      u16 (pageSize - dataStart (pageCompact stack pageSize page) - sizeofHeader -
        2 * cellCount (pageCompact stack pageSize page)) := by
  have hstart := forRange_induct 0 (cellCount page) pageCompactStep (stack, page, pageSize)
    (fun _ s => s.2.2 < 65536) hsmall fun _ _ _ _ _ => u16_lt _
  simp only [pageCompact]
  generalize forRange 0 (cellCount page) pageCompactStep (stack, page, pageSize) = s at hstart ⊢
  obtain ⟨buffer, p, start⟩ := s
  have hmod : start % 65536 = start := Nat.mod_eq_of_lt hstart
  simp [hmod]

end

/-! ### Splitting -/

section

variable {page : Mem} {pageSize : Nat} {cells : List Cell}

/-- What the loop of `page_split` has done before iteration `i`: the cells
from `split` to `i` are packed on the sibling. -/
structure SplitInv (pageSize : Nat) (cells : List Cell) (split i : Nat) (s : Mem × Nat)
    (done : List Cell) : Prop where
  payloads : done.map Prod.snd = ((cells.drop split).take (i - split)).map Prod.snd
  packed : Packed s.1 pageSize s.2 done
  slotDone : ∀ j (h : j < done.length), pageCell s.1 j = done[j].1

theorem payloadTotal_drop_le (cells : List Cell) (i : Nat) :
    payloadTotal (cells.drop i) ≤ payloadTotal cells := by
  have := payloadTotal_append (cells.take i) (cells.drop i)
  rw [List.take_append_drop] at this
  omega

theorem SplitInv.step (hc : Cells page pageSize cells) {split i : Nat} {s : Mem × Nat}
    {done : List Cell} (h : SplitInv pageSize cells split i s done) (hle : split ≤ i)
    (hi : i < cells.length) :
    ∃ done', SplitInv pageSize cells split (i + 1) (pageSplitStep page split i s) done' := by
  obtain ⟨next, start⟩ := s
  have hdrop : i - split < (cells.drop split).length := by
    rw [List.length_drop]
    omega
  have hget : (cells.drop split)[i - split] = cells[i] := by
    rw [List.getElem_drop]
    congr 1
    omega
  have hlen : done.length = i - split := by
    have := congrArg List.length h.payloads
    simp only [List.length_map, List.length_take] at this
    omega
  have hmem : cells[i] ∈ cells := List.getElem_mem hi
  have hslot : pageCell page i = cells[i].1 := hc.slot i hi
  have hholds : page.Holds cells[i].1 cells[i].2 := hc.holds _ hmem
  have hsize : payloadGetLen (pageFlags page) (pageGetPayload page i) = cells[i].2.length := by
    rw [pageGetPayload, hslot]
    exact hc.measured _ hmem _ hholds.drop
  have hsmall := hc.small
  have hsum := h.packed.sum
  dsimp only at hsum
  have hroom : sizeofHeader + 2 * cells.length + cells[i].2.length ≤ start := by
    have hdone := payloadTotal_congr h.payloads
    have hnext := payloadTotal_take_succ hdrop
    rw [hget] at hnext
    have hall := payloadTotal_take_le (cells.drop split) (i - split + 1)
    have hdropped := payloadTotal_drop_le cells split
    have hfits := hc.fits
    omega
  have hu16 : u16 ((start : Int) - cells[i].2.length) = start - cells[i].2.length := by
    rw [u16_of_bounds] <;> omega
  have hstep : pageSplitStep page split i (next, start) =
      (setPageCell (next.blit (start - cells[i].2.length) (pageGetPayload page i)
        cells[i].2.length) (i - split) (start - cells[i].2.length),
        start - cells[i].2.length) := by
    simp only [pageSplitStep, hsize, hu16]
  rw [hstep]
  refine ⟨done ++ [(start - cells[i].2.length, cells[i].2)], ?_, ?_, ?_⟩
  · rw [show i + 1 - split = i - split + 1 by omega, List.take_succ_eq_append_getElem hdrop, hget,
      List.map_append, List.map_append, h.payloads]
    rfl
  · have hp : Packed next pageSize start (done ++ []) := by
      rw [List.append_nil]
      exact h.packed
    refine hp.insert (by omega) ?_ fun k h₁ _ => ?_
    · refine (?_ : Mem.Holds (next.blit (start - cells[i].2.length) (pageGetPayload page i)
        cells[i].2.length) (start - cells[i].2.length) cells[i].2).congr fun k h₁ _ => ?_
      · rw [pageGetPayload, hslot]
        exact Mem.Holds.blit hholds
      · exact setPageCell_body (by omega)
    · dsimp only
      rw [setPageCell_body (by omega), Mem.blit_outside (by omega)]
  · intro j hj
    rw [List.length_append, List.length_singleton] at hj
    dsimp only
    rcases Nat.lt_or_ge j (i - split) with hji | hji
    · rw [pageCell_setPageCell_ne (by omega), pageCell_blit (by omega),
        List.getElem_append_left (by omega)]
      exact h.slotDone j (by omega)
    · obtain rfl : j = i - split := by omega
      rw [pageCell_setPageCell_self, List.getElem_append_right (by omega)]
      simp only [List.getElem_singleton]
      omega

/-- The sibling gets the space it has. -/
theorem freeSpace_pageSplit (stack page next : Mem) (nextId : PageId) (hsmall : pageSize < 65536) :
    freeSpace (pageSplit stack pageSize page next nextId).2.1 =
      u16 (dataStart (pageSplit stack pageSize page next nextId).2.1 - sizeofHeader -
        2 * cellCount (pageSplit stack pageSize page next nextId).2.1) := by
  have hstart := forRange_induct (cellCount page / 2) (cellCount page - cellCount page / 2)
    (pageSplitStep page (cellCount page / 2)) (next, pageSize)
    (fun _ s => s.2 < 65536) hsmall fun _ _ _ _ _ => u16_lt _
  simp only [pageSplit]
  generalize forRange (cellCount page / 2) (cellCount page - cellCount page / 2)
    (pageSplitStep page (cellCount page / 2)) (next, pageSize) = s at hstart ⊢
  obtain ⟨q, start⟩ := s
  have hmod : start % 65536 = start := Nat.mod_eq_of_lt hstart
  simp [hmod]

/-- The pages a split leaves behind, with the lists of their cells. -/
structure SplitPages (page : Mem) (pageSize : Nat) (cells : List Cell) (nextId : PageId)
    (left right : Mem) (split : Nat) : Prop where
  leftCells : ∃ done, done.map Prod.snd = (cells.take split).map Prod.snd ∧
    Layout left pageSize done
  rightCells : ∃ done, done.map Prod.snd = (cells.drop split).map Prod.snd ∧
    Layout right pageSize done
  leftFlags : pageFlags left = pageFlags page
  rightFlags : pageFlags right = pageFlags page
  leftRight : pageRight left = nextId % 2 ^ 32
  rightRight : pageRight right = pageRight page

/-- A split distributes the cells in order. -/
theorem pageSplit_layout (stack next : Mem) (nextId : PageId) (hc : Cells page pageSize cells) :
    ∃ left right, pageSplit stack pageSize page next nextId = (left, right, cells.length / 2) ∧
      SplitPages page pageSize cells nextId left right (cells.length / 2) := by
  have hsmall := hc.small
  have hfits := hc.fits
  have hinv := forRange_induct (cells.length / 2) (cells.length - cells.length / 2)
    (pageSplitStep page (cells.length / 2)) (next, pageSize)
    (fun i s => ∃ done, SplitInv pageSize cells (cells.length / 2) i s done)
    ⟨[], by simp, Packed.nil _ _, by simp⟩
    (fun i t h₁ h₂ hI => by
      obtain ⟨done, hdone⟩ := hI
      exact hdone.step hc h₁ (by omega))
  obtain ⟨done, h⟩ := hinv
  rw [show cells.length / 2 + (cells.length - cells.length / 2) = cells.length by omega] at h
  simp only [pageSplit, hc.count]
  generalize forRange (cells.length / 2) (cells.length - cells.length / 2)
    (pageSplitStep page (cells.length / 2)) (next, pageSize) = s at h ⊢
  obtain ⟨next, start⟩ := s
  have hpay : done.map Prod.snd = (cells.drop (cells.length / 2)).map Prod.snd := by
    rw [h.payloads, List.take_of_length_le (by rw [List.length_drop])]
  have hlen : done.length = cells.length - cells.length / 2 := by
    simpa using congrArg List.length hpay
  have hcells : Cells (setPageRight (setCellCount page (cells.length / 2)) nextId) pageSize
      (cells.take (cells.length / 2)) := by
    refine ⟨?_, fun i hi => ?_, fun c hc' => ?_, fun c hc' => ?_, fun c hc' => ?_, ?_, hsmall⟩
    · simp only [cellCount_setPageRight, cellCount_setCellCount, List.length_take]
      omega
    · rw [List.length_take] at hi
      simp only [pageCell_setPageRight, pageCell_setCellCount, List.getElem_take]
      exact hc.slot i (by omega)
    · have hmem := List.mem_of_mem_take hc'
      refine (hc.holds c hmem).congr fun k hk _ => ?_
      have := hc.above c hmem
      rw [setPageRight_body (by omega), setCellCount_body (by omega)]
    · have := hc.above c (List.mem_of_mem_take hc')
      rw [List.length_take]
      omega
    · simpa using hc.measured c (List.mem_of_mem_take hc')
    · have := payloadTotal_take_le cells (cells.length / 2)
      rw [List.length_take]
      omega
  obtain ⟨leftDone, hleftPay, hleft, hleftFlags, hleftRight⟩ := pageCompact_layout stack hcells
  have hsum := h.packed.sum
  have htotal := payloadTotal_congr hpay
  have hdropped := payloadTotal_drop_le cells (cells.length / 2)
  dsimp only at hsum
  have hstart : start % 65536 = start := Nat.mod_eq_of_lt (by omega)
  have hright : pageRight page % 2 ^ 32 = pageRight page := Nat.mod_eq_of_lt (pageRight_lt page)
  have hflags : pageFlags page % 65536 = pageFlags page :=
    Nat.mod_eq_of_lt (Mem.getLE_lt page 6 2)
  refine ⟨_, _, rfl, ⟨leftDone, hleftPay, hleft⟩, ⟨done, hpay, ⟨?_, ?_, ?_, ?_⟩⟩, ?_, ?_, ?_, ?_⟩
  · simp only [dataStart_setPageRight, dataStart_setFreeSpace, dataStart_setDataStart, hstart]
    refine h.packed.congr fun k (h₁ : start ≤ k) _ => ?_
    rw [setPageRight_body (by omega), setFreeSpace_body (by omega), setDataStart_body (by omega),
      setCellCount_body (by omega), setPageFlags_body (by omega)]
  · simp only [cellCount_setPageRight, cellCount_setFreeSpace, cellCount_setDataStart,
      cellCount_setCellCount]
    omega
  · intro i hi
    simpa using h.slotDone i hi
  · simp only [dataStart_setPageRight, dataStart_setFreeSpace, dataStart_setDataStart, hstart]
    omega
  · simpa using hleftFlags
  · simpa using hflags
  · simpa using hleftRight
  · simpa using hright

end

end Wednesday
