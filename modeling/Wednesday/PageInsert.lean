import Wednesday.PageLayout

/-!
Inserting cells. The insertion opens a gap in the slot array and below the
payloads; what is then written into the gap becomes the new cell.
-/

namespace Wednesday

open Lib

section

variable {page : Mem} {pageSize : Nat} {pre post : List Cell}

/-- The page after `page_insert_payload`, before the payload is written. -/
structure Opened (page page' : Mem) (index size : Nat) : Prop where
  start : dataStart page' = dataStart page - size
  count : cellCount page' = cellCount page + 1
  free : freeSpace page' = freeSpace page - (size + 2)
  flags : pageFlags page' = pageFlags page
  right : pageRight page' = pageRight page
  slotBefore : ∀ j < index, pageCell page' j = pageCell page j
  slotNew : pageCell page' index = dataStart page - size
  slotAfter : ∀ j, index ≤ j → j < cellCount page → pageCell page' (j + 1) = pageCell page j
  body : ∀ k, sizeofHeader + 2 * (cellCount page + 1) ≤ k → page' k = page k

/-- With room for payload and slot nothing is compacted. -/
theorem pageInsertPayload_opened (stack : Mem) (h : Layout page pageSize (pre ++ post)) {size : Nat}
    (hfree : size + 2 ≤ freeSpace page) (hspace : size + 2 ≤ pageGetSpace page) :
    ∃ page', pageInsertPayload stack pageSize page pre.length size =
        .ok (page', dataStart page - size) ∧ Opened page page' pre.length size := by
  have hroom := h.space
  have hcount := h.count
  have hlen : (pre ++ post).length = pre.length + post.length := List.length_append
  have hstartLt := dataStart_lt page
  have hfreeLt := freeSpace_lt page
  have hstart : u16 ((dataStart page : Int) - size) = dataStart page - size := by
    rw [u16_of_bounds] <;> omega
  have hfree' : u16 ((freeSpace page : Int) - (size + 2 : Nat)) = freeSpace page - (size + 2) := by
    rw [u16_of_bounds] <;> omega
  have hstartMod : (dataStart page - size) % 65536 = dataStart page - size :=
    Nat.mod_eq_of_lt (by omega)
  have hshift {q : Mem} (hq : q = if pre.length ≠ cellCount page then
      page.blit (sizeofHeader + 2 * (pre.length + 1)) (page.drop (sizeofHeader + 2 * pre.length))
        (2 * (cellCount page - pre.length)) else page) :
      cellCount q = cellCount page ∧ dataStart q = dataStart page ∧
      freeSpace q = freeSpace page ∧ pageFlags q = pageFlags page ∧
      pageRight q = pageRight page ∧ (∀ j < pre.length, pageCell q j = pageCell page j) ∧
      (∀ j, pre.length ≤ j → j < cellCount page → pageCell q (j + 1) = pageCell page j) ∧
      ∀ k, sizeofHeader + 2 * (cellCount page + 1) ≤ k → q k = page k := by
    have hoff : sizeofHeader ≤ sizeofHeader + 2 * (pre.length + 1) := by omega
    subst hq
    split
    · refine ⟨cellCount_blit hoff, dataStart_blit hoff, freeSpace_blit hoff, pageFlags_blit hoff,
        pageRight_blit hoff, fun j hj => pageCell_blit (by omega), fun j h₁ h₂ => ?_,
        fun k hk => Mem.blit_outside (by omega)⟩
      rw [pageCell, Mem.getLE_blit_inside (by omega) (by omega), Mem.getLE_drop, pageCell]
      congr 1
      omega
    · exact ⟨rfl, rfl, rfl, rfl, rfl, fun _ _ => rfl, fun j h₁ h₂ => by omega, fun _ _ => rfl⟩
  rw [pageInsertPayload, if_neg (by omega)]
  simp only [show ¬ pageGetSpace page < size + 2 by omega, if_false]
  obtain ⟨hc, hd, hf, hfl, hr, hbefore, hafter, hbody⟩ := hshift rfl
  generalize (if pre.length ≠ cellCount page then
      page.blit (sizeofHeader + 2 * (pre.length + 1)) (page.drop (sizeofHeader + 2 * pre.length))
        (2 * (cellCount page - pre.length)) else page) = q at *
  rw [hd, hstart]
  refine ⟨_, rfl, ⟨?_, ?_, ?_, ?_, ?_, fun j hj => ?_, ?_, fun j h₁ h₂ => ?_, fun k hk => ?_⟩⟩
  · simpa using hstartMod
  · simp only [cellCount_setCellCount]
    omega
  · simp only [freeSpace_setCellCount, freeSpace_setFreeSpace, freeSpace_setDataStart,
      freeSpace_setPageCell, hf, hfree']
    omega
  · simpa using hfl
  · simpa using hr
  · simp only [pageCell_setCellCount, pageCell_setFreeSpace, pageCell_setDataStart]
    rw [pageCell_setPageCell_ne (by omega), hbefore j hj]
  · simp only [pageCell_setCellCount, pageCell_setFreeSpace, pageCell_setDataStart]
    rw [pageCell_setPageCell_self, hstartMod]
  · simp only [pageCell_setCellCount, pageCell_setFreeSpace, pageCell_setDataStart]
    rw [pageCell_setPageCell_ne (by omega), hafter j h₁ h₂]
  · rw [setCellCount_body (by omega), setFreeSpace_body (by omega), setDataStart_body (by omega),
      setPageCell_body (by omega), hbody k hk]

/-- Writing the payload into the gap makes it a cell of the page. -/
theorem Opened.fill {page' page'' : Mem} {bs : Bytes} (h : Layout page pageSize (pre ++ post))
    (ho : Opened page page' pre.length bs.length) (hspace : bs.length + 2 ≤ pageGetSpace page)
    (hnew : page''.Holds (dataStart page - bs.length) bs)
    (hold : ∀ k, k < dataStart page - bs.length ∨ dataStart page ≤ k → page'' k = page' k) :
    Layout page'' pageSize (pre ++ (dataStart page - bs.length, bs) :: post) ∧
      freeSpace page'' = freeSpace page - (bs.length + 2) ∧
      pageFlags page'' = pageFlags page ∧ pageRight page'' = pageRight page := by
  have hroom := h.space
  have hcount := h.count
  have hlen : (pre ++ post).length = pre.length + post.length := List.length_append
  have hsmall : ∀ {off n : Nat}, off + n ≤ dataStart page - bs.length →
      page''.getLE off n = page'.getLE off n := fun hle =>
    Mem.getLE_congr fun i hi => hold _ (Or.inl (by omega))
  have hstart : dataStart page'' = dataStart page - bs.length := by
    rw [← ho.start]
    exact hsmall (by simp only [sizeofHeader] at hroom; omega)
  refine ⟨⟨?_, ?_, fun i hi => ?_, ?_⟩, ?_, ?_, ?_⟩
  · rw [hstart]
    refine h.packed.insert (by omega) hnew fun k h₁ _ => ?_
    rw [hold k (Or.inr h₁), ho.body k (by omega)]
  · have : cellCount page'' = cellCount page' :=
      hsmall (by simp only [sizeofHeader] at hroom; omega)
    rw [this, ho.count, hcount]
    simp only [List.length_append, List.length_cons]
    omega
  · have hi' : i < pre.length + post.length + 1 := by
      simp only [List.length_append, List.length_cons] at hi
      omega
    have hcell : pageCell page'' i = pageCell page' i := hsmall (by omega)
    rw [hcell]
    rcases Nat.lt_trichotomy i pre.length with hlt | rfl | hgt
    · have := h.slot i (by omega)
      rw [ho.slotBefore i hlt, this, List.getElem_append_left hlt, List.getElem_append_left hlt]
    · rw [ho.slotNew, List.getElem_append_right le_rfl]
      simp
    · obtain ⟨j, rfl⟩ : ∃ j, i = j + 1 := ⟨i - 1, by omega⟩
      have := h.slot j (by omega)
      rw [ho.slotAfter j (by omega) (by omega), this, List.getElem_append_right (by omega),
        List.getElem_append_right (by omega)]
      simp [show j + 1 - pre.length = j - pre.length + 1 by omega]
  · rw [hstart]
    simp only [List.length_append, List.length_cons]
    omega
  · rw [← ho.free]
    exact hsmall (by simp only [sizeofHeader] at hroom; omega)
  · rw [← ho.flags]
    exact hsmall (by simp only [sizeofHeader] at hroom; omega)
  · rw [← ho.right]
    exact hsmall (by simp only [sizeofHeader] at hroom; omega)

/-- Overwriting the first bytes of one cell in place. -/
theorem Layout.overwrite {off : Nat} {old new rest : Bytes}
    (h : Layout page pageSize (pre ++ (off, old ++ rest) :: post)) {page' : Mem}
    (hlen : new.length = old.length) (hnew : page'.Holds off new)
    (hold : ∀ k, k < off ∨ off + old.length ≤ k → page' k = page k) :
    Layout page' pageSize (pre ++ (off, new ++ rest) :: post) := by
  have hmem : (off, old ++ rest) ∈ pre ++ (off, old ++ rest) :: post := by simp
  have hin := h.packed.inside _ hmem
  have hroom := h.room
  have hcount := h.count
  simp only [List.length_append, List.length_cons] at hroom hcount hin
  have hhead : ∀ {a n : Nat}, a + n ≤ off → page'.getLE a n = page.getLE a n := fun hle =>
    Mem.getLE_congr fun i hi => hold _ (Or.inl (by omega))
  have hstart : dataStart page' = dataStart page :=
    hhead (by simp only [sizeofHeader] at hroom; omega)
  have hapart := h.packed.apart
  rw [List.pairwise_append, List.pairwise_cons] at hapart
  obtain ⟨hpre, ⟨hcell, hpost⟩, hcross⟩ := hapart
  have hother : ∀ c ∈ pre ++ post, page'.Holds c.1 c.2 := by
    intro c hc
    -- the cells do not overlap, so the others are not touched
    have hap : Cell.Apart c (off, old ++ rest) := by
      rcases List.mem_append.mp hc with hc | hc
      · exact hcross c hc _ (by simp)
      · exact (hcell c hc).symm
    have hc' : c ∈ pre ++ (off, old ++ rest) :: post := by
      rcases List.mem_append.mp hc with hc | hc <;> simp [hc]
    refine (h.packed.holds c hc').congr fun k h₁ h₂ => hold k ?_
    simp only [Cell.Apart, List.length_append] at hap
    omega
  refine ⟨⟨?_, fun c hc => ?_, fun c hc => ?_, ?_⟩, ?_, fun i hi => ?_, ?_⟩
  · have := h.packed.sum
    simp only [payloadTotal_append, payloadTotal_cons, List.length_append] at this ⊢
    omega
  · simp only [List.mem_append, List.mem_cons] at hc
    rcases hc with hc | rfl | hc
    · exact hother c (by simp [hc])
    · refine Mem.holds_append.mpr ⟨hnew, ?_⟩
      have := (Mem.holds_append.mp (h.packed.holds _ hmem)).2
      rw [hlen]
      exact this.congr fun k h₁ _ => hold k (Or.inr h₁)
    · exact hother c (by simp [hc])
  · simp only [List.mem_append, List.mem_cons] at hc
    rw [hstart]
    rcases hc with hc | rfl | hc
    · exact h.packed.inside c (by simp [hc])
    · have := h.packed.inside _ hmem
      simp only [List.length_append] at this ⊢
      omega
    · exact h.packed.inside c (by simp [hc])
  · rw [List.pairwise_append, List.pairwise_cons]
    refine ⟨hpre, ⟨fun c hc => ?_, hpost⟩, fun a ha b hb => ?_⟩
    · have := hcell c hc
      simp only [Cell.Apart, List.length_append] at this ⊢
      omega
    · rcases List.mem_cons.mp hb with rfl | hb
      · have := hcross a ha _ (List.mem_cons_self ..)
        simp only [Cell.Apart, List.length_append] at this ⊢
        omega
      · exact hcross a ha b (List.mem_cons_of_mem _ hb)
  · have : cellCount page' = cellCount page :=
      hhead (by simp only [sizeofHeader] at hroom; omega)
    rw [this, hcount]
    simp
  · have hi' : i < (pre ++ (off, old ++ rest) :: post).length := by simpa using hi
    have hc : pageCell page' i = pageCell page i := by
      refine hhead ?_
      simp only [List.length_append, List.length_cons] at hi'
      omega
    rw [hc, h.slot i hi']
    rcases Nat.lt_trichotomy i pre.length with hlt | rfl | hgt
    · rw [List.getElem_append_left hlt, List.getElem_append_left hlt]
    · rw [List.getElem_append_right le_rfl, List.getElem_append_right le_rfl]
      simp
    · obtain ⟨j, rfl⟩ : ∃ j, i = j + 1 := ⟨i - 1, by omega⟩
      rw [List.getElem_append_right (by omega), List.getElem_append_right (by omega)]
      simp [show j + 1 - pre.length = j - pre.length + 1 by omega]
  · rw [hstart]
    simpa using hroom

end

end Wednesday
