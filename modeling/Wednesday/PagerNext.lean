import Wednesday.PagerClock

/-!
The ids that `pager_next` hands out. They come from a 32-bit counter that every
call moves, also one that fails; so they are new until the counter has gone
round.
-/

namespace Wednesday

open Lib Prog Pager

/-- The id a call of `pager_next` returned. -/
def CacheEvent.handsOut : CacheEvent → Option PageId
  | .next (some page) => some page.id
  | _ => none

def CacheEvent.isNext : CacheEvent → Bool
  | .next _ => true
  | _ => false

/-- The ids `pager_next` returned, in order. -/
def handedOut (es : List CacheEvent) : List PageId := es.filterMap CacheEvent.handsOut

/-- The calls of `pager_next`, failed ones included. -/
def nextCalls (es : List CacheEvent) : Nat := (es.filter CacheEvent.isNext).length

/-- Every id that is fixed was handed out before, as it is for the pages of
trees. -/
def FixesHandedOut (es : List CacheEvent) : Prop :=
  ∀ es₁ id exclusive r es₂, es = es₁ ++ .fix id exclusive r :: es₂ → id ∈ handedOut es₁

/-! ### While the counter has not gone round -/

/-- The ids after `next_page`, in the order in which they are handed out. -/
def upcoming (next n : Nat) : List Nat := (List.range n).map fun i => (next + i) % 2 ^ 32

theorem upcoming_succ {next : Nat} (hlt : next < 2 ^ 32) (n : Nat) :
    upcoming next (n + 1) = next :: upcoming ((next + 1) % 2 ^ 32) n := by
  rw [upcoming, List.range_succ_eq_map, List.map_cons, List.map_map, Nat.add_zero,
    Nat.mod_eq_of_lt hlt, upcoming]
  congr 1
  apply List.map_congr_left
  intro i _
  change (next + (i + 1)) % 2 ^ 32 = ((next + 1) % 2 ^ 32 + i) % 2 ^ 32
  omega

theorem nodup_upcoming (next : Nat) {n : Nat} (hn : n ≤ 2 ^ 32) : (upcoming next n).Nodup := by
  apply List.Nodup.map_on ?_ List.nodup_range
  intro i hi j hj heq
  rw [List.mem_range] at hi hj
  omega

/-- What was handed out is a part of what was upcoming. -/
theorem CacheOk.handedOut_sublist {s u : CacheState} {es : List CacheEvent} (h : CacheOk 0 s)
    (hlt : s.sys.pager.nextPage < 2 ^ 32) (hrun : Run CacheStep s es u) :
    (handedOut es).Sublist (upcoming s.sys.pager.nextPage (nextCalls es)) ∧ 0 ∉ handedOut es := by
  induction hrun with
  | nil => exact ⟨List.nil_sublist _, List.not_mem_nil⟩
  | @cons s t u e es head tail ih =>
      have ht := ih (h.step_all head)
      have hmove := h.moves head
      generalize s.sys.pager = p at hmove hlt ⊢
      generalize t.sys.pager = p' at hmove ht
      have hround : (p.nextPage + 1) % 2 ^ 32 < 2 ^ 32 := Nat.mod_lt _ (by decide)
      cases hmove with
      | fixed hfix => exact hfix.nextPage ▸ ht (hfix.nextPage.symm ▸ hlt)
      | refused href => exact href.nextPage ▸ ht (href.nextPage.symm ▸ hlt)
      | next hfix =>
          have hnext : p'.nextPage = (p.nextPage + 1) % 2 ^ 32 := hfix.nextPage
          obtain ⟨hsub, hzero⟩ := ht (hnext.symm ▸ hround)
          show (p.nextPage :: handedOut es).Sublist (upcoming p.nextPage (nextCalls es + 1)) ∧
            0 ∉ p.nextPage :: handedOut es
          rw [upcoming_succ hlt, ← hnext, List.mem_cons, not_or]
          exact ⟨hsub.cons_cons _, hfix.ne_zero.symm, hzero⟩
      | nextRefused href =>
          have hnext : p'.nextPage = (p.nextPage + 1) % 2 ^ 32 := href.nextPage
          obtain ⟨hsub, hzero⟩ := ht (hnext.symm ▸ hround)
          show (handedOut es).Sublist (upcoming p.nextPage (nextCalls es + 1)) ∧ 0 ∉ handedOut es
          rw [upcoming_succ hlt, ← hnext]
          exact ⟨hsub.cons _, hzero⟩
      | unfix header => exact ht hlt
      | write header => exact ht hlt

/-- Without frames nothing is handed out. -/
theorem Unused.handsOut {s t : CacheState} {e : CacheEvent} (h : Unused s)
    (hstep : CacheStep s e t) : e.handsOut = none := by
  cases hstep with
  | next hrun =>
      rw [pagerNext_apply] at hrun
      have hmove := h.frames.moveNextPage ((s.sys.pager.nextPage + 1) % 2 ^ 32)
      rcases NoFrames.pagerFix (s := { s.sys with pager := _ }) hmove s.sys.pager.nextPage true with
        hrun' | ⟨e, hrun'⟩ <;> cases hrun'.symm.trans hrun
  | _ => rfl

theorem Unused.handedOut {s u : CacheState} {es : List CacheEvent} (h : Unused s)
    (hrun : Run CacheStep s es u) : handedOut es = [] := by
  induction hrun with
  | nil => rfl
  | cons head tail ih =>
      rw [Wednesday.handedOut, List.filterMap_cons, h.handsOut head]
      exact ih (h.step head)

/-- The ids `pager_next` hands out are new, of each other and of all the pages
fixed before, while it is called at most `2 ^ 32` times. -/
theorem handed_out_ids_are_new {s : Sys} (hopen : PagerOpened s) {es : List CacheEvent}
    {u : CacheState} (hrun : Run CacheStep (cacheStart s) es u) (hfew : nextCalls es ≤ 2 ^ 32) :
    (handedOut es).Nodup ∧ 0 ∉ handedOut es ∧
      (FixesHandedOut es → ∀ es₁ page es₂, es = es₁ ++ .next (some page) :: es₂ →
        ∀ id exclusive r, .fix id exclusive r ∈ es₁ → page.id ≠ id) := by
  have hnew : (handedOut es).Nodup ∧ 0 ∉ handedOut es := by
    rcases cacheRun_ok_all hopen (.nil _) with hs | hs
    · obtain ⟨pageSize, directorySize, hwith⟩ := hopen.openedWith
      have hnext : (cacheStart s).sys.pager.nextPage = 1 := by
        change s.pager.nextPage = 1
        rw [hwith.pager]
        rfl
      obtain ⟨hsub, hzero⟩ := hs.handedOut_sublist (by rw [hnext]; decide) hrun
      exact ⟨(nodup_upcoming _ hfew).sublist hsub, hzero⟩
    · rw [hs.handedOut hrun]
      exact ⟨List.nodup_nil, List.not_mem_nil⟩
  refine ⟨hnew.1, hnew.2, fun hfixes es₁ page es₂ heq id exclusive r hmem => ?_⟩
  rintro rfl
  -- the page was handed out before it was fixed, and so before this call
  obtain ⟨es₃, es₄, rfl⟩ := List.append_of_mem hmem
  have hold := hfixes es₃ page.id exclusive r (es₄ ++ .next (some page) :: es₂) (by simp [heq])
  have hnodup := hnew.1
  rw [heq, handedOut, List.append_assoc, List.filterMap_append] at hnodup
  exact List.disjoint_of_nodup_append hnodup hold
    (List.mem_filterMap.mpr ⟨.next (some page), by simp, rfl⟩)

theorem handed_out_ids_are_new_once :
    ∃ es u, Run CacheStep (cacheStart (freshSys 16 4)) es u ∧ handedOut es = [1, 2] ∧
      (handedOut es).Nodup := by
  have hids : ((cacheStart (freshSys 16 4)).calls [.next, .unfix ⟨1, 0⟩ true, .next]).map
      (fun r => (handedOut r.1, nextCalls r.1)) = some ([1, 2], 2) := by
    decide +kernel
  obtain ⟨⟨es, u⟩, hcalls, hids⟩ := Option.map_eq_some_iff.mp hids
  obtain ⟨hids, hfew⟩ := Prod.mk.inj hids
  have hrun := CacheState.calls_run hcalls
  exact ⟨es, u, hrun, hids, (handed_out_ids_are_new pagerOpened_freshSys hrun
    (hfew.le.trans (by decide))).1⟩

/-! ### When the counter has gone round -/

/-- The pager calls of a `btree_insert` that has to split a root and gets no
page for it. -/
def refusedInsert : List CacheEvent :=
  [.fix 1 true (some ⟨1, 0⟩), .next none, .unfix ⟨1, 0⟩ true]

/-- A ring of two entries with one page, its latch, and the counter at `n`. -/
structure OnePage (latch : Int) (n : Nat) (s : CacheState) : Prop where
  ok : CacheOk 0 s
  size : s.sys.pager.size = 2
  located : s.sys.pager.locate 1 = some 0
  latch : (s.sys.pager.header 0).latch = latch
  pageCount : s.sys.pager.pageCount = 1
  nextPage : s.sys.pager.nextPage = n
  evictHead : s.sys.pager.evictHead < 2 ^ 32

/-- The only page there is. -/
theorem Pager.Ok.locate_alone {p : Pager} (h : Ok 0 p) (hcount : p.pageCount = 1) {i j : PageId}
    {f : Nat} (hi : i ≠ 0) (hf : p.locate i = some f) (hj : j ≠ 0) (hne : j ≠ i) :
    p.locate j = none := by
  by_contra hsome
  obtain ⟨g, hg⟩ := Option.ne_none_iff_exists'.mp hsome
  have hmem {id : PageId} {f : Nat} (hid : id ≠ 0) (hf : p.locate id = some f) :
      f ∈ p.occupied := by
    obtain ⟨hlt, hpage, -⟩ := h.mapped id f hid hf
    rw [occupied, Finset.mem_filter, Finset.mem_range, hpage]
    exact ⟨hlt, hid⟩
  have hcard : p.occupied.card ≤ 1 := by
    rw [← hcount, ← h.reserved]
    exact Nat.le_add_right _ _
  have hsame : f = g := Finset.card_le_one.mp hcard f (hmem hi hf) g (hmem hj hg)
  rw [← hsame] at hg
  exact hne (h.locate_inj hj hi hg hf)

/-- With no page to evict and no room, a fix is refused; only the hand has
moved. -/
theorem pagerFix_refused {s : Sys} (id : PageId) (exclusive : Bool) (h : Ok 0 s.pager)
    (htwo : 2 * s.pager.size < 2 ^ 32) (hfull : s.pager.size - 1 ≤ s.pager.pageCount)
    (hnone : ∀ f, ¬ s.pager.Idle f) (hnew : id ≠ 0 → s.pager.locate id = none)
    (hhead : s.pager.evictHead < 2 ^ 32) :
    ∃ head e, head < 2 ^ 32 ∧ pagerFix id exclusive s = .failure { s with
      pager := { s.pager with evictHead := head }, err := e } := by
  by_cases hid : id = 0
  · obtain ⟨e, he, -⟩ := failure_apply (α := Unit) ⟨"src/pager.c", "pager_fix", 372⟩
      (show EINVAL ≠ 0 by decide) ["invalid page id"] s
    refine ⟨s.pager.evictHead, e, hhead, ?_⟩
    simp [pagerFix, hid, he]
  · rcases pagerEvict_scan s h htwo hhead with ⟨i, hev, -⟩ | ⟨-, e, hevict, hcode⟩
    · exact absurd hev.victim.1 (hnone _)
    · obtain ⟨e', -, hfix, -⟩ := pagerFix_full exclusive h.sizePos h.sizeLt hid (hnew hid) hfull
        hevict (by rw [hcode]; decide)
      rw [passed_of_none_idle hnone] at hfix
      exact ⟨_, e', Nat.mod_lt _ (by decide), hfix⟩

/-- A page that is the only one and is latched leaves none to evict. -/
theorem Pager.Ok.none_idle {p : Pager} (h : Ok 0 p) (hcount : p.pageCount = 1) {i : PageId}
    {f : Nat} (hi : i ≠ 0) (hf : p.locate i = some f) (hlatch : (p.header f).latch ≠ 0) (g : Nat) :
    ¬ p.Idle g := by
  rintro ⟨hlt, hpage, hfree⟩
  have hg := h.located g hlt hpage
  by_cases hsame : (p.ring g).pageId = i
  · rw [hsame, hf] at hg
    exact hlatch (Option.some.inj hg ▸ hfree)
  · rw [h.locate_alone hcount hi hf hpage hsame] at hg
    cases hg

theorem OnePage.fix {n : Nat} {s : CacheState} (h : OnePage 0 n s) :
    ∃ t, CacheStep s (.fix 1 true (some ⟨1, 0⟩)) t ∧ OnePage (-1) n t ∧
      0 < t.held ⟨1, 0⟩ true := by
  have hrun : pagerFix 1 true s.sys = .success ⟨1, 0⟩ { s.sys with
      pager := s.sys.pager.setHeader 0 (latched true (s.sys.pager.header 0)) } := by
    rw [pagerFix_hit Nat.one_ne_zero h.located, if_pos (show CanLatch true _ from h.latch)]
  refine ⟨_, .fix hrun, ⟨h.ok.step_all (.fix hrun), h.size, h.located, ?_, h.pageCount,
    h.nextPage, h.evictHead⟩, ?_⟩
  · exact congrArg Frame.latch (header_setHeader_self _ _ _)
  · change 0 < hold s.held ⟨1, 0⟩ true (s.held ⟨1, 0⟩ true + 1) ⟨1, 0⟩ true
    rw [hold_self]
    exact Nat.succ_pos _

/-- While the page is fixed there is no second one. -/
theorem OnePage.next {n : Nat} {s : CacheState} (h : OnePage (-1) n s) (hn : n ≠ 1) :
    ∃ t, CacheStep s (.next none) t ∧ OnePage (-1) ((n + 1) % 2 ^ 32) t ∧ t.held = s.held := by
  have hok := h.ok.moveNextPage ((s.sys.pager.nextPage + 1) % 2 ^ 32)
  have hfull : s.sys.pager.size - 1 ≤ s.sys.pager.pageCount := by
    rw [h.size, h.pageCount]
  have hidle := h.ok.ok.none_idle h.pageCount Nat.one_ne_zero h.located (by rw [h.latch]; decide)
  have htwo : 2 * s.sys.pager.size < 2 ^ 32 := by
    rw [h.size]
    decide
  obtain ⟨head, e, hhead, hrefused⟩ := pagerFix_refused s.sys.pager.nextPage true
    hok.ok htwo hfull hidle (fun hid =>
      hok.ok.locate_alone h.pageCount Nat.one_ne_zero h.located hid
      (by rw [h.nextPage]; exact hn)) h.evictHead
  have hrun := (pagerNext_apply s.sys).trans hrefused
  refine ⟨_, .nextRefused hrun, ⟨h.ok.step_all (.nextRefused hrun), h.size, h.located, h.latch,
    h.pageCount, ?_, hhead⟩, rfl⟩
  rw [← h.nextPage]

theorem OnePage.unfix {n : Nat} {s : CacheState} (h : OnePage (-1) n s)
    (hheld : 0 < s.held ⟨1, 0⟩ true) :
    ∃ t, CacheStep s (.unfix ⟨1, 0⟩ true) t ∧ OnePage 0 n t := by
  have hrun : pagerUnfix ⟨1, 0⟩ s.sys = .success () { s.sys with
      pager := s.sys.pager.setHeader 0 (released (s.sys.pager.header 0)) } := by
    rw [pagerUnfix_apply _ _ (h.ok.ok.latchOk Nat.one_ne_zero h.located)]
    exact if_pos (Or.inl h.latch)
  refine ⟨_, .unfix hheld hrun, ⟨h.ok.step_all (.unfix hheld hrun), h.size, h.located, ?_,
    h.pageCount, h.nextPage, h.evictHead⟩⟩
  change (Pager.header (setHeader _ 0 _) 0).latch = 0
  rw [header_setHeader_self, released, if_pos h.latch]

/-- The refused insert leaves the page and moves the counter. -/
theorem OnePage.refusedInsert {n : Nat} {s : CacheState} (h : OnePage 0 n s) (hn : n ≠ 1) :
    ∃ t, Run CacheStep s refusedInsert t ∧ OnePage 0 ((n + 1) % 2 ^ 32) t := by
  obtain ⟨s₁, hstep₁, h₁, hheld₁⟩ := h.fix
  obtain ⟨s₂, hstep₂, h₂, hheld₂⟩ := h₁.next hn
  obtain ⟨s₃, hstep₃, h₃⟩ := h₂.unfix (hheld₂ ▸ hheld₁)
  exact ⟨s₃, .cons hstep₁ (.cons hstep₂ (.cons hstep₃ (.nil _))), h₃⟩

/-- As long as it does not come to the id of the page. -/
theorem OnePage.refusedInserts {n : Nat} {s : CacheState} (h : OnePage 0 n s) (k : Nat)
    (hk : ∀ i < k, (n + i) % 2 ^ 32 ≠ 1) (hn : n < 2 ^ 32) :
    ∃ t, Run CacheStep s (List.replicate k Wednesday.refusedInsert).flatten t ∧
      OnePage 0 ((n + k) % 2 ^ 32) t := by
  induction k generalizing n s with
  | zero => exact ⟨s, .nil s, by rwa [Nat.add_zero, Nat.mod_eq_of_lt hn]⟩
  | succ k ih =>
      have hne : n ≠ 1 := by
        have := hk 0 (Nat.succ_pos k)
        rwa [Nat.add_zero, Nat.mod_eq_of_lt hn] at this
      obtain ⟨t, hrun, ht⟩ := h.refusedInsert hne
      obtain ⟨u, hrun', hu⟩ := ih ht (fun i hi => by
        have := hk (i + 1) (Nat.succ_lt_succ hi)
        rwa [Nat.mod_add_mod, show n + 1 + i = n + (i + 1) by omega]) (Nat.mod_lt _ (by decide))
      refine ⟨u, hrun.append hrun', ?_⟩
      rwa [Nat.mod_add_mod, show n + 1 + k = n + (k + 1) by omega] at hu

theorem pagerFix_free {id : PageId} {f : Nat} {s : Sys} (hid : id ≠ 0)
    (hf : s.pager.locate id = some f) (hlatch : (s.pager.header f).latch = 0) :
    ∃ t, pagerFix id true s = .success ⟨id, f⟩ t :=
  ⟨_, (pagerFix_hit hid hf).trans (if_pos hlatch)⟩

/-- The counter has come back to the id of the page: it is handed out again. -/
theorem OnePage.next_again {s : CacheState} (h : OnePage 0 1 s) :
    ∃ t, CacheStep s (.next (some ⟨1, 0⟩)) t := by
  have hrun : ∃ t, pagerNext s.sys = .success ⟨1, 0⟩ t := by
    rw [pagerNext_apply, h.nextPage]
    exact pagerFix_free Nat.one_ne_zero h.located h.latch
  obtain ⟨t, hrun⟩ := hrun
  exact ⟨_, .next hrun⟩

/-- Only the page handed out first is ever fixed. -/
theorem fixesHandedOut_of_first {page : PageRef} {es : List CacheEvent}
    (hes : ∀ id exclusive r, .fix id exclusive r ∈ es → id = page.id) :
    FixesHandedOut (.next (some page) :: es) := by
  intro es₁ id exclusive r es₂ heq
  cases es₁ with
  | nil => cases heq
  | cons e es₁ =>
      obtain ⟨rfl, rfl⟩ := List.cons.inj heq
      rw [hes id exclusive r (List.mem_append_right _ (List.mem_cons_self ..))]
      exact List.mem_cons_self ..

theorem fix_mem_refusedInserts {k : Nat} {id : PageId} {exclusive : Bool} {r : Option PageRef}
    (h : .fix id exclusive r ∈ (List.replicate k refusedInsert).flatten) : id = 1 := by
  obtain ⟨l, hl, hmem⟩ := List.mem_flatten.mp h
  rw [List.eq_of_mem_replicate hl] at hmem
  simp only [refusedInsert, List.mem_cons, CacheEvent.fix.injEq, List.not_mem_nil, or_false,
    reduceCtorEq] at hmem
  exact hmem.1

/-- A root page is made, inserts into it are refused until the counter has gone
round, and the next page that is handed out is the root. -/
theorem next_page_comes_back :
    ∃ s es u, PagerOpened s ∧ Run CacheStep (cacheStart s) es u ∧ FixesHandedOut es ∧
      ¬ (handedOut es).Nodup := by
  have hstart : ∃ u, Run CacheStep (cacheStart (freshSys 16 4))
      [.next (some ⟨1, 0⟩), .unfix ⟨1, 0⟩ true] u ∧ u.sys.pager.size = 2 ∧
      u.sys.pager.locate 1 = some 0 ∧ (u.sys.pager.header 0).latch = 0 ∧
      u.sys.pager.pageCount = 1 ∧ u.sys.pager.nextPage = 2 ∧ u.sys.pager.evictHead = 0 :=
    ⟨_, .cons (.next rfl) (.cons (.unfix Nat.one_pos rfl) (.nil _)), rfl, rfl, rfl, rfl, rfl, rfl⟩
  obtain ⟨u, hrun, hsize, hlocated, hlatch, hcount, hnext, hhead⟩ := hstart
  have hok : CacheOk 0 u := by
    rcases cacheRun_ok_all pagerOpened_freshSys hrun with hu | hu
    · exact hu
    · have hzero : u.sys.pager.size = 0 := hu.frames.size
      omega
  have hpage : OnePage 0 2 u := ⟨hok, hsize, hlocated, hlatch, hcount, hnext, by omega⟩
  -- the number of inserts stays a variable: nothing here may compute with their list
  obtain ⟨k, hk⟩ : ∃ k, k = 2 ^ 32 - 1 := ⟨_, rfl⟩
  obtain ⟨v, hrun', hv⟩ := hpage.refusedInserts k (fun i hi => by omega) (by decide)
  rw [hk, show (2 + (2 ^ 32 - 1)) % 2 ^ 32 = 1 by decide] at hv
  obtain ⟨w, hstep⟩ := hv.next_again
  refine ⟨_, _, w, pagerOpened_freshSys, (hrun.append hrun').snoc hstep, ?_, fun hnodup => ?_⟩
  · show FixesHandedOut (.next (some ⟨1, 0⟩) :: (.unfix ⟨1, 0⟩ true ::
      ((List.replicate k refusedInsert).flatten ++ [.next (some ⟨1, 0⟩)])))
    apply fixesHandedOut_of_first
    intro id exclusive r hmem
    simp only [List.mem_cons, List.mem_append, reduceCtorEq, false_or, List.not_mem_nil,
      or_false] at hmem
    exact fix_mem_refusedInserts hmem
  · rw [handedOut, List.filterMap_append] at hnodup
    exact List.disjoint_of_nodup_append hnodup (List.mem_cons_self ..) (List.mem_cons_self ..)

end Wednesday
