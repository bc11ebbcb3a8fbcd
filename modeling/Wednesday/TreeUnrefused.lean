import Wednesday.TreeLatches

/-!
Calls that nothing is refused. Where no allocation fails and no call of the pager
is refused, `pager_fix` gives a page that is there, and `pager_next` a new one as
long as the pager has a frame for it.
-/

namespace Wednesday

open Lib Prog Pager

/-- Neither a call of the pager nor an allocation is refused. -/
structure Sys.Unrefused (s : Sys) : Prop where
  calls : ∀ n, s.outage n = false
  mallocs : ∀ n, s.heap.refuse n = false

section

variable {α : Type} {s t : Sys} {id : PageId} {page parent : PageRef} {held : List PageRef}
  {key value : Blob}
  {above : Above} {index : Nat}

/-! ### The pager -/

theorem grants_modifyPager (f : Pager → Pager) : Grants Sys.Unrefused (modifyPager f) :=
  grants_modify fun _ hs => ⟨hs.calls, hs.mallocs⟩

theorem grants_getPager : Grants Sys.Unrefused getPager := grants_get.bind fun _ => grants_pure _

theorem preserves_failure_unrefused (site : Site) (code : Int) (texts : List String) :
    Preserves Sys.Unrefused (failure site code texts : Call α) := by
  refine preserves_get.bind fun s => (preserves_ofExcept _).bind fun e => ?_
  exact Preserves.bind (preserves_modify fun t ht => ⟨ht.calls, ht.mallocs⟩)
    fun _ t ht => wp_fail.mpr ht

theorem grants_tryAlloc (site : Site) (ptr size : String) (bytes : Nat) :
    Grants Sys.Unrefused (tryAlloc site ptr size bytes) := by
  intro s hs
  simp only [tryAlloc, malloc, wp_bind, wp_get, wp_modify, wp_pure, hs.mallocs,
    Bool.false_eq_true, if_false]
  exact ⟨hs.calls, hs.mallocs⟩

theorem grants_latchPage (frame : Nat) (exclusive : Bool) :
    Grants Sys.Unrefused (latchPage frame exclusive) := by
  have hacquire : Grants Sys.Unrefused (latchAcquire frame exclusive) := by
    refine grants_getPager.bind fun _ => ?_
    dsimp only
    split
    · exact (grants_assert _ _).bind fun _ => grants_modifyPager _
    · exact (grants_assert _ _).bind fun _ => grants_modifyPager _
  refine hacquire.bind fun _ => ?_
  split
  · exact grants_modifyPager _
  · exact grants_pure _

theorem grants_pagerLookup (h : Nat) (id : PageId) (exclusive : Bool) :
    Grants Sys.Unrefused (pagerLookup h id exclusive) := by
  refine grants_getPager.bind fun p => ?_
  split
  · exact grants_pure _
  · exact (grants_latchPage _ _).bind fun _ => grants_pure _

theorem grants_pagerDirectoryInsert (h : Nat) (m : Mapping) :
    Grants Sys.Unrefused (pagerDirectoryInsert h m) := by
  refine grants_getPager.bind fun p => ?_
  dsimp only
  split
  · exact grants_modifyPager _
  · split
    · exact grants_modifyPager _
    · split
      · exact grants_modifyPager _
      · split
        · exact (grants_tryAlloc _ _ _ _).bind fun _ => grants_modifyPager _
        · exact (grants_tryAlloc _ _ _ _).bind fun _ => grants_modifyPager _

theorem grants_acquireRingEntry (id : PageId) (n : Nat) :
    Grants Sys.Unrefused (acquireRingEntry id n) := by
  induction n with
  | zero => exact grants_abort _
  | succ n ih =>
      have hnext : Grants Sys.Unrefused nextCreateIndex :=
        grants_getPager.bind fun _ => (grants_assert _ _).bind fun _ =>
          (grants_modifyPager _).bind fun _ => grants_pure _
      refine hnext.bind fun _ => grants_getPager.bind fun p => ?_
      split
      · exact (grants_modifyPager _).bind fun _ => grants_pure _
      · exact ih

theorem grants_allocateHeader (index : Nat) : Grants Sys.Unrefused (allocateHeader index) := by
  refine grants_getPager.bind fun p => ?_
  split
  · exact grants_pure _
  · intro s hs
    simp only [malloc, modifyPager, wp_bind, wp_get, wp_modify, wp_pure, hs.mallocs,
      Bool.false_eq_true, if_false]
    exact ⟨hs.calls, hs.mallocs⟩

theorem grants_pagerCreate (h : Nat) (id : PageId) : Grants Sys.Unrefused (pagerCreate h id) :=
  grants_getPager.bind fun _ => (grants_acquireRingEntry _ _).bind fun _ =>
    (grants_allocateHeader _).bind
    fun _ => (grants_modifyPager _).bind fun _ => (grants_pagerDirectoryInsert _ _).recover.bind
      fun _ => grants_pure _

theorem preserves_pagerEvict : Preserves Sys.Unrefused pagerEvict := by
  have hloop (n : Nat) : Preserves Sys.Unrefused (pagerEvictLoop n) := by
    induction n with
    | zero => exact preserves_failure_unrefused _ _ _
    | succ n ih =>
        have hnext : Grants Sys.Unrefused nextEvictIndex :=
          grants_getPager.bind fun _ => (grants_modifyPager _).bind fun _ => grants_pure _
        refine hnext.preserves.bind fun _ => grants_getPager.preserves.bind fun p => ?_
        dsimp only
        split
        · exact ih
        · split
          · exact ih
          · split
            · exact (grants_modifyPager _).preserves.bind fun _ => ih
            · exact (grants_modifyPager _).preserves.bind fun _ => (grants_modifyPager _).preserves
  exact grants_getPager.preserves.bind fun _ => hloop _

theorem preserves_pagerFix_unrefused (id : PageId) (exclusive : Bool) :
    Preserves Sys.Unrefused (pagerFix id exclusive) := by
  have hcapacity : Preserves Sys.Unrefused ensureCapacity := by
    refine grants_getPager.preserves.bind fun p => ?_
    split
    · exact preserves_pagerEvict.recover
        (preserves_get.bind fun _ => preserves_failure_unrefused _ _ _)
    · exact (grants_modifyPager _).preserves
  unfold pagerFix
  refine (preserves_failure_unrefused _ _ _).unless ?_
  refine grants_getPager.preserves.bind fun p => (grants_pagerLookup _ _ _).preserves.bind
    fun page => ?_
  cases page with
  | some page => exact preserves_pure _
  | none =>
      refine hcapacity.bind fun _ => (grants_pagerLookup _ _ _).preserves.bind fun page => ?_
      cases page with
      | some page => exact (grants_modifyPager _).preserves.bind fun _ => preserves_pure _
      | none =>
          exact (grants_pagerCreate _ _).recover.preserves.bind fun _ =>
            (grants_latchPage _ _).preserves.bind fun _ => preserves_pure _

theorem preserves_pagerUnfix_unrefused (page : PageRef) :
    Preserves Sys.Unrefused (pagerUnfix page) := by
  intro s hs
  simp only [pagerUnfix, getPager, modifyPager, latchReleaseWrite, latchReleaseRead,
    wp_bind, wp_get, wp_pure, wp_ite, wp_modify, wp_assert]
  split
  · split
    · exact ⟨hs.calls, hs.mallocs⟩
    · trivial
  · split
    · exact ⟨hs.calls, hs.mallocs⟩
    · trivial

/-- A new page is given where there is a frame for it. -/
theorem wp_pagerFix_unrefused (hs : s.Unrefused) (hok : s.PagerOk) (hid : id ≠ 0)
    (hnew : s.pager.locate id = none)
    (hroom : s.pager.pageCount + 1 < s.pager.size) :
    wp (pagerFix id true) (fun _ _ => True) (fun _ => False) (fun _ => True) s := by
  have hlt := hok.sizeLt
  have hlookup : (s.pager.directory (pagerHash s.pager.mask id)).lookup id = none := by
    rw [HashEntry.lookup_eq]
    exact hnew
  have hguard : ¬ u32 (s.pager.size - 1) ≤ s.pager.pageCount := by
    rw [u32_of_bounds] <;> omega
  have hcapacity : ensureCapacity s = .success () { s with
      pager := { s.pager with pageCount := u32 (s.pager.pageCount + 1) } } := by
    simp only [ensureCapacity, bind_apply, getPager_apply, Outcome.bind_success, hguard,
      if_false, addPageCount, modifyPager_apply]
  have hrun : pagerFix id true s = (handleForward ⟨"src/pager.c", "pager_fix", 410⟩
      "pager_create(pager, hash_entry, id, &header)"
        (pagerCreate (pagerHash s.pager.mask id) id) subPageCount >>=
        fun frame => latchPage frame true >>= fun _ => pure (⟨id, frame⟩ : PageRef))
      { s with pager := { s.pager with pageCount := u32 (s.pager.pageCount + 1) } } := by
    simp [pagerFix, pagerLookup, hid, hlookup, hcapacity]
  refine wp_of_eq hrun (wp_mono (((grants_pagerCreate _ _).recover.bind fun frame =>
    (grants_latchPage frame true).bind fun _ => grants_pure _) _ ⟨hs.calls, hs.mallocs⟩)
    (fun _ _ _ => trivial) (fun _ hfalse => hfalse) fun _ _ => trivial)

/-! ### The tree -/

theorem kept_unrefused : Kept Sys.Unrefused where
  err _ _ hs := ⟨hs.calls, hs.mallocs⟩
  cleanups _ _ hs := ⟨hs.calls, hs.mallocs⟩
  tree _ _ hs := ⟨hs.calls, hs.mallocs⟩
  write _ _ _ hs := ⟨hs.calls, hs.mallocs⟩
  unfix := preserves_pagerUnfix_unrefused
  fix id s hs := by
    simp only [treeFix, wp_bind, wp_get, wp_modify, hs.calls, Bool.false_eq_true, if_false]
    exact preserves_pagerFix_unrefused id true _ ⟨hs.calls, hs.mallocs⟩
  next s hs := by
    simp only [treeNext, pagerNext, getPager, modifyPager, wp_bind, wp_get,
      wp_modify, wp_pure, hs.calls, Bool.false_eq_true, if_false]
    exact preserves_pagerFix_unrefused _ true _ ⟨hs.calls, hs.mallocs⟩

theorem preserves_btreeOpen_unrefused (out : Bool) (root : PageId) :
    Preserves Sys.Unrefused (btreeOpen out root) := by
  refine (kept_unrefused.ensure _ _ _).bind fun _ => (grants_tryAlloc _ _ _ _).preserves.bind
    fun btree => ?_
  refine Preserves.bind (preserves_modify fun t ht => ⟨ht.calls, ht.mallocs⟩) fun _ =>
    Preserves.deferred ?_ ?_
  · refine preserves_get.bind fun s => ?_
    split
    · exact preserves_pure _
    · exact Preserves.bind (preserves_modify fun t ht => ⟨ht.calls, ht.mallocs⟩) fun _ =>
        preserves_modify fun t ht => ⟨ht.calls, ht.mallocs⟩
  · exact (preserves_get.bind fun _ => preserves_pure _).bind fun _ => preserves_pure _

theorem fixPage_unrefused (h : Holding held s) (hs : s.Unrefused) (hthere : s.pageAt id ≠ none)
    {site : Site} {text : String} :
    wp (tryCall site text (treeFix id)) (fun page t => page.id = id ∧ Fixes held s.pager s page t)
      (fun _ => False)
      (fun _ => True) s := by
  refine wp_fixPage h (fun page t hid hfix => ⟨hid, hfix⟩) (fun p e heap _ _ hcause => ?_)
    fun _ _ _ => trivial
  have hzero := ne_zero_of_there hthere
  rcases hcause with hcause | hcause | hnone
  · rw [hs.calls] at hcause
    cases hcause
  · exact hzero hcause
  · exact hthere ((pageAt_eq_none_iff hzero).mpr hnone)

theorem nextPage_unrefused (h : Holding held s) (hs : s.Unrefused) (hnew : NewPage 1 s)
    (hzero : s.pager.nextPage ≠ 0)
    {site : Site} {text : String} :
    wp (tryCall site text treeNext) (fun page t => page.id = s.pager.nextPage ∧
      Fixes held s.pager.takeId s page t)
      (fun _ => False) (fun _ => False) s := by
  have hnone : s.pager.locate s.pager.nextPage = none :=
    (pageAt_eq_none_iff hzero).mp hnew.nextPage_new
  have hgiven : wp (tryCall site text treeNext) (fun _ _ => True) (fun _ => False)
      (fun _ => True) s := by
    rw [tryCall, wp_recover]
    simp only [treeNext, pagerNext, getPager, modifyPager, wp_bind, wp_get,
      wp_modify, wp_pure, hs.calls, Bool.false_eq_true, if_false]
    exact wp_mono (wp_pagerFix_unrefused
      (s := { s with pagerCalls := s.pagerCalls + 1, pager := s.pager.takeId })
      ⟨hs.calls, hs.mallocs⟩ h.ok.takeId hzero hnone hnew.frames) (fun _ _ _ => trivial)
        (fun _ hf => hf.elim)
      fun _ _ => trivial
  have hfixes : wp (tryCall site text treeNext)
      (fun page t => page.id = s.pager.nextPage ∧ Fixes held s.pager.takeId s page t)
      (fun _ => True) (fun _ => False) s :=
    wp_nextPage h (fun page t hid hfix => ⟨hid, hfix⟩) (fun _ _ _ _ _ => trivial) fun f hf _ => by
      rw [hnone] at hf
      cases hf
  exact wp_mono (hgiven.and hfixes) (fun _ _ hend => hend.2) (fun _ hend => hend.1)
    fun _ hend => hend.2

/-- Once a new page is fixed, the pager has one less. -/
theorem Fixes.newPage {n : Nat} (hfix : Fixes held s.pager.takeId s page t)
    (hid : page.id = s.pager.nextPage)
    (hnew : NewPage (n + 1) s) : NewPage n t := by
  have hframes := hnew.frames
  have hids := hnew.ids
  have hcount : t.pager.pageCount ≤ s.pager.pageCount + 1 := hfix.fixed.pageCount
  have hsize : t.pager.size = s.pager.size := hfix.fixed.shape.size
  have hnext := hfix.nextPage_new hnew.toSpare
  have hkeep : s.pager.takeId.evictsFor page.id = none :=
    evictsFor_eq_none (Or.inr (by omega)) (Or.inr rfl)
  refine ⟨⟨by omega, ?_⟩, fun id hthere => ?_⟩ <;> rw [hnext]
  · omega
  by_cases heq : id = page.id
  · rw [heq, hid]
    exact Nat.lt_succ_self _
  · rw [hfix.pageAt_of_new (Or.inr rfl) hkeep, Function.update_of_ne heq] at hthere
    exact (hnew.fresh id hthere).trans (Nat.lt_succ_self _)

theorem NewPage.written {n : Nat} (hnew : NewPage n s) (h : Holding held s) (hpage : page ∈ held)
    (data : Mem) :
    NewPage n (s.written page data) := by
  refine ⟨⟨hnew.frames, hnew.ids⟩, fun id hthere => hnew.fresh id fun hnone => hthere ?_⟩
  rw [h.pageAt_written hpage, Function.update_of_ne, hnone]
  rintro rfl
  rw [h.pageAt hpage] at hnone
  cases hnone

end

end Wednesday
