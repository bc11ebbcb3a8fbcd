import Wednesday.PagerCache

/-!
Ring and directory are two descriptions of one cache: they hold the same ids in
the same frames, and `page_count` counts them. This is so after every call of a
run, whatever allocations are refused.
-/

namespace Wednesday

open Lib Prog Pager

namespace Pager

/-- The id is in the ring. -/
def Ringed (p : Pager) (id : PageId) : Prop := ∃ f < p.size, (p.ring f).pageId = id

/-- The id is in the directory. -/
def Listed (p : Pager) (id : PageId) : Prop := ∃ h, ∃ m ∈ (p.directory h).slots, m.pageId = id

/-- Ring and directory describe the same cache. -/
structure SameCache (p : Pager) : Prop where
  ids : ∀ id, id ≠ 0 → (p.Ringed id ↔ p.Listed id)
  rings : ∀ f < p.size, ∀ g < p.size, (p.ring f).pageId ≠ 0 →
    (p.ring f).pageId = (p.ring g).pageId → f = g
  mappings : ∀ (h h' i i' : Nat) (m m' : Mapping), (p.directory h).slots[i]? = some m →
    (p.directory h').slots[i']? = some m' → m.pageId ≠ 0 → m.pageId = m'.pageId →
    h = h' ∧ i = i'
  hashed : ∀ h, ∀ m ∈ (p.directory h).slots, m.pageId ≠ 0 → pagerHash p.mask m.pageId = h
  /-- The frame of a mapping is that of the ring entry with its id, and carries the id. -/
  frames : ∀ h, ∀ m ∈ (p.directory h).slots, m.pageId ≠ 0 → m.header < p.size ∧
    (p.ring m.header).pageId = m.pageId ∧ (p.ring m.header).allocated = true ∧
    (p.header m.header).id = m.pageId
  distinct : ∀ (h h' : Nat) (m m' : Mapping), m ∈ (p.directory h).slots →
    m' ∈ (p.directory h').slots → m.pageId ≠ 0 → m'.pageId ≠ 0 → m.pageId ≠ m'.pageId →
    m.header ≠ m'.header
  count : p.pageCount = p.occupied.card

variable {p p' : Pager} {k : Nat} {id : PageId}

/-- A mapping is where the lookup of its id ends. -/
theorem Ok.locate_of_mem (h : Ok k p) {i : Nat} {m : Mapping} (hm : m ∈ (p.directory i).slots)
    (hne : m.pageId ≠ 0) : p.locate m.pageId = some m.header := by
  rw [locate, h.hashed i m hm hne, HashEntry.find_eq_some (h.distinct i) hne]
  exact hm

theorem mem_of_locate {f : Nat} (hid : id ≠ 0) (h : Ok k p) (hf : p.locate id = some f) :
    (⟨id, f⟩ : Mapping) ∈ (p.directory (pagerHash p.mask id)).slots :=
  (HashEntry.find_eq_some (h.distinct _) hid).mp hf

theorem Ok.ringed_iff (h : Ok k p) (hid : id ≠ 0) : p.Ringed id ↔ ∃ f, p.locate id = some f := by
  constructor
  · rintro ⟨f, hf, rfl⟩
    exact ⟨f, h.located f hf hid⟩
  · rintro ⟨f, hf⟩
    obtain ⟨hlt, hpage, -⟩ := h.mapped id f hid hf
    exact ⟨f, hlt, hpage⟩

theorem Ok.listed_iff (h : Ok k p) (hid : id ≠ 0) : p.Listed id ↔ ∃ f, p.locate id = some f := by
  constructor
  · rintro ⟨i, m, hm, rfl⟩
    exact ⟨m.header, h.locate_of_mem hm hid⟩
  · rintro ⟨f, hf⟩
    exact ⟨_, _, mem_of_locate hid h hf, rfl⟩

theorem Ok.sameCache (h : Ok 0 p) : SameCache p where
  ids id hid := (h.ringed_iff hid).trans (h.listed_iff hid).symm
  rings f hf g hg hne heq := by
    have hlocated := h.located f hf hne
    rw [heq, h.located g hg (heq ▸ hne)] at hlocated
    exact (Option.some.inj hlocated).symm
  mappings i i' n n' m m' hm hm' hne heq := by
    have hhash := h.hashed i m (List.mem_of_getElem? hm) hne
    have hhash' := h.hashed i' m' (List.mem_of_getElem? hm') (heq ▸ hne)
    have hi : i = i' := by rw [← hhash, ← hhash', heq]
    subst hi
    exact ⟨rfl, (h.distinct i).index_inj hm hm' hne heq⟩
  hashed := h.hashed
  frames i m hm hne := by
    obtain ⟨hlt, hpage, halloc⟩ := h.mapped _ _ hne (h.locate_of_mem hm hne)
    exact ⟨hlt, hpage, halloc, (h.named _ hlt (hpage.trans_ne hne)).trans hpage⟩
  distinct i i' m m' hm hm' hne hne' hids heq := by
    have hmap := h.mapped _ _ hne (h.locate_of_mem hm hne)
    have hmap' := h.mapped _ _ hne' (h.locate_of_mem hm' hne')
    rw [heq] at hmap
    exact hids (hmap.2.1.symm.trans hmap'.2.1)
  count := h.reserved.symm

/-- A refused call adds no id. -/
theorem Refused.ringed {j : PageId} (h : Ok 0 p) (href : Refused p p' j) (hid : id ≠ 0)
    (hring : p'.Ringed id) : p.Ringed id := by
  rw [href.ok.ringed_iff hid] at hring
  rw [h.ringed_iff hid]
  obtain ⟨f, hf⟩ := hring
  rcases href.others id hid with hsame | ⟨-, hgone, -⟩
  · exact ⟨f, hsame.1.symm.trans hf⟩
  · rw [hgone] at hf
    cases hf

end Pager

theorem NoFrames.sameCache {p : Pager} (h : NoFrames p) : SameCache p where
  ids id hid := by
    constructor
    · rintro ⟨f, hf, -⟩
      rw [h.size] at hf
      exact absurd hf (Nat.not_lt_zero f)
    · rintro ⟨i, m, hm, rfl⟩
      exact absurd (h.empty i m hm) hid
  rings f hf := by
    rw [h.size] at hf
    exact absurd hf (Nat.not_lt_zero f)
  mappings i i' n n' m m' hm _ hne _ := absurd (h.empty i m (List.mem_of_getElem? hm)) hne
  hashed i m hm hne := absurd (h.empty i m hm) hne
  frames i m hm hne := absurd (h.empty i m hm) hne
  distinct i i' m m' hm _ hne _ _ := absurd (h.empty i m hm) hne
  count := by
    rw [h.pageCount, occupied, h.size]
    rfl

/-! ### Runs -/

/-- Page zero is never saved, so nothing that a step drops matters for it. -/
theorem CacheOk.step_all {s t : CacheState} {e : CacheEvent} (h : CacheOk 0 s)
    (hstep : CacheStep s e t) : CacheOk 0 t := by
  refine h.step (fun hdrop => ?_) hstep
  obtain ⟨m, hm⟩ := Option.ne_none_iff_exists'.mp hdrop.1
  exact (h.saved m hm).1 rfl

/-- Every state of a run is well formed. -/
theorem cacheRun_ok_all {s : Sys} (hopen : PagerOpened s) {es : List CacheEvent} {u : CacheState}
    (hrun : Run CacheStep (cacheStart s) es u) : CacheOk 0 u ∨ Unused u := by
  refine hrun.invariant (I := fun u => CacheOk 0 u ∨ Unused u) (fun s e t hs hstep => ?_)
    (cacheRun_ok hopen (.nil _))
  rcases hs with hs | hs
  · exact Or.inl (hs.step_all hstep)
  · exact Or.inr (hs.step hstep)

/-- After every call ring and directory describe the same cache, and a call that
failed added no id. -/
theorem ring_and_directory_agree {s : Sys} (hopen : PagerOpened s) {es : List CacheEvent}
    {u : CacheState} (hrun : Run CacheStep (cacheStart s) es u) :
    SameCache u.sys.pager ∧ ∀ e t, CacheStep u e t →
      (∃ id exclusive, e = .fix id exclusive none) ∨ e = .next none →
      ∀ j, j ≠ 0 → t.sys.pager.Ringed j → u.sys.pager.Ringed j := by
  rcases cacheRun_ok_all hopen hrun with hu | hu
  · refine ⟨hu.ok.sameCache, fun e t hstep hfailed j hj hring => ?_⟩
    rcases hfailed with ⟨id, exclusive, rfl⟩ | rfl
    · cases hstep with
      | fixRefused h =>
          rcases pagerFix_cases id exclusive u.sys hu.ok with
            ⟨f, p, heap, hrun', -⟩ | ⟨p, err, heap, hrun', -, href⟩ | ⟨hrun', -⟩
          · cases hrun'.symm.trans h
          · cases hrun'.symm.trans h
            exact href.ringed hu.ok hj hring
          · cases hrun'.symm.trans h
    · cases hstep with
      | nextRefused h =>
          have hmove := hu.moveNextPage ((u.sys.pager.nextPage + 1) % 2 ^ 32)
          rw [pagerNext_apply] at h
          rcases pagerFix_cases u.sys.pager.nextPage true _ hmove.ok with
            ⟨f, p, heap, hrun', -⟩ | ⟨p, err, heap, hrun', -, href⟩ | ⟨hrun', -⟩
          · cases hrun'.symm.trans h
          · cases hrun'.symm.trans h
            have hold := href.ringed hmove.ok hj hring
            exact hold
          · cases hrun'.symm.trans h
  · refine ⟨hu.frames.sameCache, fun e t hstep _ j _ hring => ?_⟩
    obtain ⟨f, hf, -⟩ := hring
    rw [(hu.step hstep).frames.size] at hf
    exact absurd hf (Nat.not_lt_zero f)

/-- Three pages pass through the two frames of a small pager. -/
theorem ring_and_directory_agree_once :
    ∃ es u, Run CacheStep (cacheStart (freshSys 16 4)) es u ∧ u.sys.pager.pageCount = 1 ∧
      SameCache u.sys.pager := by
  have hcount : ((cacheStart (freshSys 16 4)).calls [.fix 1 true, .unfix ⟨1, 0⟩ true, .fix 2 false,
      .unfix ⟨2, 1⟩ false, .fix 3 true]).map (fun r => r.2.sys.pager.pageCount) = some 1 := by
    decide +kernel
  obtain ⟨⟨es, u⟩, hcalls, hcount⟩ := Option.map_eq_some_iff.mp hcount
  have hrun := CacheState.calls_run hcalls
  exact ⟨es, u, hrun, hcount, (ring_and_directory_agree pagerOpened_freshSys hrun).1⟩

end Wednesday
