import Wednesday.PagerCreate

/-!
`pager_fix`, `pager_next` and `pager_unfix` as steps between well-formed pagers.
-/

namespace Wednesday

open Lib Prog

namespace Pager

/-- The page `pager_fix` evicts to make room for the page `id`. -/
def evictsFor (p : Pager) (id : PageId) : Option PageId :=
  if id = 0 ∨ p.locate id ≠ none then none
  else if p.size ≤ p.pageCount + 1 then p.victim
  else none

/-- At most the page `v` is evicted; the others are where they were. -/
structure Moved (k : Nat) (p p' : Pager) (v : Option PageId) : Prop where
  ok : Ok k p'
  shape : SameShape p p'
  pageCount : p'.pageCount ≤ p.pageCount + 1
  nextPage : p'.nextPage = p.nextPage
  gone : ∀ j, v = some j → j ≠ 0 ∧ Gone p p' j
  same : ∀ j, j ≠ 0 → v ≠ some j → Same p p' j

/-- A page that was not there is now in the frame `f`, latched once. -/
structure Enters (p p' : Pager) (id : PageId) (exclusive : Bool) (f : Nat) : Prop where
  ok : Ok 0 p'
  shape : SameShape p p'
  pageCount : p'.pageCount ≤ p.pageCount + 1
  nextPage : p'.nextPage = p.nextPage
  ne_zero : id ≠ 0
  fresh : p.locate id = none
  located : p'.locate id = some f
  latch : (p'.header f).latch = if exclusive then -1 else 1
  gone : ∀ j, p.evictsFor id = some j → j ≠ id ∧ j ≠ 0 ∧ Gone p p' j
  same : ∀ j, j ≠ 0 → j ≠ id → p.evictsFor id ≠ some j → Same p p' j

variable {p q r : Pager} {k : Nat} {id : PageId} {v : Option PageId}

theorem Ok.reserve (h : Ok 0 p) (hroom : p.pageCount + 1 < p.size) :
    Ok 1 { p with pageCount := p.pageCount + 1 } :=
  ⟨h.sizePos, h.sizeLt, h.distinct, h.hashed, h.mapped, h.located, h.latched, h.named,
    congrArg (· + 1) h.reserved, hroom⟩

theorem Ok.unreserve (h : Ok 1 p) : Ok 0 { p with pageCount := p.pageCount - 1 } := by
  refine ⟨h.sizePos, h.sizeLt, h.distinct, h.hashed, h.mapped, h.located,
    h.latched, h.named, ?_, ?_⟩
  · have := h.reserved
    change p.occupied.card + 0 = p.pageCount - 1
    omega
  · have := h.capacity
    change p.pageCount - 1 < p.size
    omega

/-- Room made, a frame given to the page, and its latch taken. -/
theorem Moved.enters {exclusive : Bool} {f : Nat} (hid : id ≠ 0) (hnew : p.locate id = none)
    (hm : Moved 1 p q (p.evictsFor id)) (hc : Creates q r id f) :
    Enters p (r.setHeader f (latched exclusive (r.header f))) id exclusive f := by
  have hcan : CanLatch exclusive (r.header f) := by
    cases exclusive <;> simp [CanLatch, hc.latch]
  have hne {j : PageId} (hj : p.evictsFor id = some j) : j ≠ id := by
    rintro rfl
    obtain ⟨-, -, g, hg, -⟩ := hm.gone j hj
    rw [hnew] at hg
    simp at hg
  have hsame {j : PageId} (hj : j ≠ 0) (hji : j ≠ id) :
      Same q (r.setHeader f (latched exclusive (r.header f))) j :=
    (hc.same j hj hji).trans (hc.ok.same_setHeader hid hj hc.located hji)
  constructor
  · exact hc.ok.setHeader (id_latched _ _) fun hf hpage => (hc.ok.latched f hf hpage).latched hcan
  · exact hm.shape.trans ⟨hc.shape.pageSize, hc.shape.size, hc.shape.mask⟩
  · rw [pageCount_setHeader, hc.pageCount]
    exact hm.pageCount
  · rw [nextPage_setHeader, hc.nextPage, hm.nextPage]
  · exact hid
  · exact hnew
  · exact hc.located
  · rw [header_setHeader_self]
    cases exclusive
    · simp only [latched, Bool.false_eq_true, if_false, hc.latch]
      decide
    · rfl
  · intro j hj
    obtain ⟨hj0, hgone, hold⟩ := hm.gone j hj
    refine ⟨hne hj, hj0, ?_, hold⟩
    rw [(hsame hj0 (hne hj)).1, hgone]
  · exact fun j hj hji hv => (hm.same j hj hv).trans (hsame hj hji)

end Pager

open Pager

theorem u32_of_bounds {x : Int} (h₀ : 0 ≤ x) (h : x < 2 ^ 32) : u32 x = x.toNat := by
  simp only [u32]
  omega

theorem pagerEvict_cases (s : Sys) {k : Nat} (h : Ok k s.pager) :
    (∃ p v, pagerEvict s = .success () { s with pager := p } ∧ s.pager.victim = some v ∧
      Evicts k s.pager p v) ∨
    (∃ p e, pagerEvict s = .failure { s with pager := p, err := e } ∧ e.code ≠ 0 ∧
      s.pager.victim = none ∧ Scanned k s.pager p) := by
  simp only [pagerEvict, bind_apply, getPager_apply, Outcome.bind_success, victim]
  exact pagerEvictLoop_cases _ s h

theorem ensureCapacity_cases (s : Sys) (h : Ok 0 s.pager) {id : PageId} (hid : id ≠ 0)
    (hnew : s.pager.locate id = none) :
    (∃ p, ensureCapacity s = .success () { s with pager := p } ∧
      Moved 1 s.pager p (s.pager.evictsFor id)) ∨
    (∃ p e, ensureCapacity s = .failure { s with pager := p, err := e } ∧ e.code ≠ 0 ∧
      Moved 0 s.pager p none) := by
  have hcap := h.capacity
  have hlt := h.sizeLt
  have hfor : s.pager.evictsFor id =
      if s.pager.size ≤ s.pager.pageCount + 1 then s.pager.victim else none := by
    simp [evictsFor, hid, hnew]
  by_cases hfull : s.pager.size ≤ s.pager.pageCount + 1
  · have hguard : u32 (s.pager.size - 1) ≤ s.pager.pageCount := by
      have := h.sizePos
      rw [u32_of_bounds] <;> omega
    rw [if_pos hfull] at hfor
    rcases pagerEvict_cases s h with ⟨p, v, hrun, hv, hev⟩ | ⟨p, e, hrun, hcode, hv, hsc⟩
    · refine Or.inl ⟨p, ?_, ⟨hev.ok, hev.shape, by rw [hev.pageCount]; omega, hev.nextPage, ?_, ?_⟩⟩
      · simp only [ensureCapacity, bind_apply, getPager_apply, Outcome.bind_success, hguard,
          if_true, tryCall_success hrun]
      · intro j hj
        rw [hfor, hv] at hj
        obtain rfl := Option.some.inj hj
        exact ⟨hev.ne_zero, hev.gone⟩
      · intro j hj hne
        rw [hfor, hv] at hne
        exact hev.same j hj fun heq => hne (by rw [heq])
    · obtain ⟨e', hfail, hcode'⟩ := tryCall_failure
        ⟨"src/pager.c", "pager_fix", 389⟩ "pager_evict(pager)" hrun hcode
      refine Or.inr ⟨p, e', ?_, by rw [hcode']; exact hcode,
        ⟨hsc.ok, hsc.shape, by rw [hsc.pageCount]; omega, hsc.nextPage, by simp,
          fun j hj _ => hsc.same j hj⟩⟩
      simp only [ensureCapacity, bind_apply, getPager_apply, Outcome.bind_success, hguard, if_true,
        hfail]
  · have hguard : ¬ u32 (s.pager.size - 1) ≤ s.pager.pageCount := by
      rw [u32_of_bounds] <;> omega
    rw [if_neg hfull] at hfor
    have hmod : u32 (s.pager.pageCount + 1) = s.pager.pageCount + 1 := by
      rw [u32_of_bounds] <;> omega
    refine Or.inl ⟨{ s.pager with pageCount := s.pager.pageCount + 1 }, ?_,
      ⟨h.reserve (by omega), ⟨rfl, rfl, rfl⟩, le_rfl, rfl, ?_,
        fun j _ _ => ⟨rfl, fun _ _ => ⟨rfl, rfl⟩⟩⟩⟩
    · simp only [ensureCapacity, bind_apply, getPager_apply, Outcome.bind_success, hguard, if_false,
        addPageCount, modifyPager_apply, hmod]
    · simp [hfor]

theorem pagerLookup_none {h : Nat} {id : PageId} {exclusive : Bool} {s : Sys}
    (hnone : (s.pager.directory h).lookup id = none) :
    pagerLookup h id exclusive s = .success none s := by
  simp [pagerLookup, hnone]

theorem subPageCount_apply (s : Sys) (h : Ok 1 s.pager) :
    subPageCount s = .success () { s with
      pager := { s.pager with pageCount := s.pager.pageCount - 1 } } := by
  have hres := h.reserved
  have hcap := h.capacity
  have hlt := h.sizeLt
  have hmod : u32 (s.pager.pageCount - 1) = s.pager.pageCount - 1 := by
    rw [u32_of_bounds] <;> omega
  simp only [subPageCount, modifyPager_apply, hmod]

/-- A page that is there is latched where it is; the call waits if the latch
cannot be taken. -/
theorem pagerFix_hit {id : PageId} {exclusive : Bool} {f : Nat} {s : Sys} (hid : id ≠ 0)
    (hf : s.pager.locate id = some f) :
    pagerFix id exclusive s = if CanLatch exclusive (s.pager.header f) then
      .success ⟨id, f⟩ { s with
        pager := s.pager.setHeader f (latched exclusive (s.pager.header f)) }
    else .fault .hang := by
  have hlookup : (s.pager.directory (pagerHash s.pager.mask id)).lookup id = some f := by
    rw [HashEntry.lookup_eq]
    exact hf
  simp only [pagerFix, pagerLookup, hid, if_false, bind_apply, Outcome.bind_success,
    getPager_apply, hlookup, latchPage_apply]
  split <;> simp

/-- A page that is not there enters the pager, or the call is refused. -/
theorem pagerFix_miss {id : PageId} (exclusive : Bool) {s : Sys} (h : Ok 0 s.pager)
    (hid : id ≠ 0) (hnew : s.pager.locate id = none) :
    (∃ f p heap, pagerFix id exclusive s = .success ⟨id, f⟩ { s with pager := p, heap := heap } ∧
      Enters s.pager p id exclusive f) ∨
    (∃ p e heap v, pagerFix id exclusive s =
      .failure { s with pager := p, err := e, heap := heap } ∧
      e.code ≠ 0 ∧ Moved 0 s.pager p v ∧ (v = none ∨ v = s.pager.evictsFor id)) := by
  have hlookup : (s.pager.directory (pagerHash s.pager.mask id)).lookup id = none := by
    rw [HashEntry.lookup_eq]
    exact hnew
  rcases ensureCapacity_cases s h hid hnew with ⟨p, hcap, hmoved⟩ | ⟨p, e, hcap, hcode, hmoved⟩
  swap
  · refine Or.inr ⟨p, e, s.heap, none, ?_, hcode, hmoved, Or.inl rfl⟩
    simp [pagerFix, pagerLookup, hid, hlookup, hcap]
  have hnew' : p.locate id = none := by
    by_cases hv : s.pager.evictsFor id = some id
    · exact (hmoved.gone id hv).2.1
    · rw [(hmoved.same id hid hv).1, hnew]
  have hlookup' : (p.directory (pagerHash s.pager.mask id)).lookup id = none := by
    rw [HashEntry.lookup_eq, ← hmoved.shape.mask]
    exact hnew'
  have hrun : pagerFix id exclusive s = (do
      let frame ← handleForward ⟨"src/pager.c", "pager_fix", 410⟩
        "pager_create(pager, hash_entry, id, &header)"
        (pagerCreate (pagerHash p.mask id) id) subPageCount
      latchPage frame exclusive
      pure (⟨id, frame⟩ : PageRef)) { s with pager := p } := by
    simp [pagerFix, pagerLookup, hid, hlookup, hcap, hlookup', hmoved.shape.mask]
  rw [hrun]
  rcases pagerCreate_cases id { s with pager := p } hmoved.ok hid hnew' with
    ⟨f, r, heap, hcreate, hc⟩ | ⟨r, e, heap, hcreate, hcode, hsc⟩
  · have hcan : CanLatch exclusive (r.header f) := by
      cases exclusive <;> simp [CanLatch, hc.latch]
    refine Or.inl ⟨f, r.setHeader f (latched exclusive (r.header f)), heap, ?_,
      hmoved.enters hid hnew hc⟩
    rw [bind_apply, handleForward_success hcreate]
    simp [latchPage_apply, hcan]
  · obtain ⟨e', hfail, hcode'⟩ := handleForward_failure ⟨"src/pager.c", "pager_fix", 410⟩
      "pager_create(pager, hash_entry, id, &header)" hcreate
      (subPageCount_apply { s with pager := r, err := e, heap := heap } hsc.ok) hcode
    refine Or.inr ⟨{ r with pageCount := r.pageCount - 1 }, e', heap, s.pager.evictsFor id, ?_,
      by rw [hcode']; exact hcode, ?_, Or.inr rfl⟩
    · rw [bind_apply, hfail]
      rfl
    · have hsame {j : PageId} (hj : j ≠ 0) : Same p { r with pageCount := r.pageCount - 1 } j :=
        hsc.same j hj
      refine ⟨hsc.ok.unreserve, hmoved.shape.trans ⟨hsc.shape.pageSize, hsc.shape.size,
        hsc.shape.mask⟩, ?_, ?_, fun j hj => ?_,
        fun j hj hv => (hmoved.same j hj hv).trans (hsame hj)⟩
      · have hcount : r.pageCount = p.pageCount := hsc.pageCount
        have hle := hmoved.pageCount
        change r.pageCount - 1 ≤ _
        omega
      · exact hsc.nextPage.trans hmoved.nextPage
      · obtain ⟨hj0, hgone, hold⟩ := hmoved.gone j hj
        exact ⟨hj0, by rw [(hsame hj0).1, hgone], hold⟩

/-! ### All ways a fix ends -/

namespace Pager

/-- A fix that succeeds: the page is latched in its frame, and at most the page
chosen for eviction is gone. -/
structure Fixed (p p' : Pager) (id : PageId) (exclusive : Bool) (f : Nat) : Prop where
  ok : Ok 0 p'
  shape : SameShape p p'
  pageCount : p'.pageCount ≤ p.pageCount + 1
  nextPage : p'.nextPage = p.nextPage
  ne_zero : id ≠ 0
  located : p'.locate id = some f
  page : (p.locate id = some f ∧ CanLatch exclusive (p.header f) ∧
      p'.header f = latched exclusive (p.header f)) ∨
    (p.locate id = none ∧ (p'.header f).latch = if exclusive then -1 else 1)
  others : ∀ j, j ≠ 0 → j ≠ id → Same p p' j ∨ (p.evictsFor id = some j ∧ Gone p p' j)

/-- A fix that is refused leaves the latches alone. -/
structure Refused (p p' : Pager) (id : PageId) : Prop where
  ok : Ok 0 p'
  shape : SameShape p p'
  pageCount : p'.pageCount ≤ p.pageCount + 1
  nextPage : p'.nextPage = p.nextPage
  others : ∀ j, j ≠ 0 → Same p p' j ∨ (p.evictsFor id = some j ∧ Gone p p' j)

end Pager

theorem pagerFix_cases (id : PageId) (exclusive : Bool) (s : Sys) (h : Ok 0 s.pager) :
    (∃ f p heap, pagerFix id exclusive s = .success ⟨id, f⟩ { s with pager := p, heap := heap } ∧
      Fixed s.pager p id exclusive f) ∨
    (∃ p e heap, pagerFix id exclusive s = .failure { s with pager := p, err := e, heap := heap } ∧
      e.code ≠ 0 ∧ Refused s.pager p id) ∨
    (pagerFix id exclusive s = .fault .hang ∧
      ∃ f, s.pager.locate id = some f ∧ ¬ CanLatch exclusive (s.pager.header f)) := by
  by_cases hid : id = 0
  · obtain ⟨e, he, hcode⟩ := failure_apply (α := Unit) ⟨"src/pager.c", "pager_fix", 372⟩
      (show EINVAL ≠ 0 by decide) ["invalid page id"] s
    refine Or.inr (Or.inl ⟨s.pager, e, s.heap, ?_, by rw [hcode]; decide,
      ⟨h, .refl _, by omega, rfl, fun j _ => Or.inl (.refl _ j)⟩⟩)
    simp [pagerFix, hid, he]
  cases hloc : s.pager.locate id with
  | some f =>
      by_cases hcan : CanLatch exclusive (s.pager.header f)
      · refine Or.inl ⟨f, _, s.heap, by rw [pagerFix_hit hid hloc, if_pos hcan], ?_⟩
        refine ⟨h.setHeader (id_latched _ _) fun hf hpage => (h.latched f hf hpage).latched hcan,
          ⟨rfl, rfl, rfl⟩, by rw [pageCount_setHeader]; omega, rfl, hid, hloc,
          Or.inl ⟨hloc, hcan, header_setHeader_self _ _ _⟩,
          fun j hj hji => Or.inl (h.same_setHeader hid hj hloc hji)⟩
      · exact Or.inr (Or.inr ⟨by rw [pagerFix_hit hid hloc, if_neg hcan], f, rfl, hcan⟩)
  | none =>
      rcases pagerFix_miss exclusive h hid hloc with
        ⟨f, p, heap, hrun, hen⟩ | ⟨p, e, heap, v, hrun, hcode, hm, hv⟩
      · refine Or.inl ⟨f, p, heap, hrun, hen.ok, hen.shape, hen.pageCount, hen.nextPage, hid,
          hen.located, Or.inr ⟨hloc, hen.latch⟩, fun j hj hji => ?_⟩
        by_cases hev : s.pager.evictsFor id = some j
        · exact Or.inr ⟨hev, (hen.gone j hev).2.2⟩
        · exact Or.inl (hen.same j hj hji hev)
      · refine Or.inr (Or.inl ⟨p, e, heap, hrun, hcode, hm.ok, hm.shape, hm.pageCount, hm.nextPage,
          fun j hj => ?_⟩)
        by_cases hvj : v = some j
        · rcases hv with hv | hv
          · simp [hv] at hvj
          · exact Or.inr ⟨hv ▸ hvj, (hm.gone j hvj).2⟩
        · exact Or.inl (hm.same j hj hvj)

/-- `pager_next` is `pager_fix` on the next id. -/
theorem pagerNext_apply (s : Sys) :
    pagerNext s = pagerFix s.pager.nextPage true { s with
      pager := { s.pager with nextPage := (s.pager.nextPage + 1) % 2 ^ 32 } } := by
  simp only [pagerNext, bind_apply, getPager_apply, Outcome.bind_success, modifyPager_apply]

end Wednesday
