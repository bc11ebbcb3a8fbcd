import Wednesday.TreeRoom

/-!
The latches a call of the tree leaves behind. Between its first fix and its last
unfix a call owes the release of the pages it holds; every other page has the
latch it had when the call began.
-/

namespace Wednesday

open Lib Prog Pager

/-- The latch of a page; a page that is not there is not latched. -/
def Sys.latchOf (s : Sys) (id : PageId) : Int :=
  match s.pager.locate id with
  | none => 0
  | some f => (s.pager.header f).latch

/-- All pages but those held have the latch they had in `s`, where those held
had none. -/
structure Balanced (s : Sys) (held : List PageRef) (t : Sys) : Prop where
  others : ∀ id, id ≠ 0 → (∀ page ∈ held, page.id ≠ id) → t.latchOf id = s.latchOf id
  held : ∀ page ∈ held, s.latchOf page.id = 0

section

variable {s t u v : Sys} {page parent p root : PageRef} {held : List PageRef}
  {q : Pager} {id : PageId}
  {key value : Blob} {above : Above} {index fuel : Nat}

theorem latchOf_of_locate {f : Nat} (hf : s.pager.locate id = some f) :
    s.latchOf id = (s.pager.header f).latch := by
  rw [Sys.latchOf, hf]

theorem latchOf_of_none (hf : s.pager.locate id = none) : s.latchOf id = 0 := by
  rw [Sys.latchOf, hf]

theorem latchOf_of_same (h : Same s.pager t.pager id) : t.latchOf id = s.latchOf id := by
  unfold Sys.latchOf
  rw [h.1]
  cases hf : s.pager.locate id with
  | none => rfl
  | some f => exact (h.2 f hf).2

theorem latchOf_of_gone (h : Gone s.pager t.pager id) : t.latchOf id = s.latchOf id := by
  obtain ⟨hnone, f, hf, hlatch⟩ := h
  rw [latchOf_of_none hnone, latchOf_of_locate hf, hlatch]

/-- Taking a page id changes no latch. -/
theorem latchOf_asked (hq : q = s.pager ∨ q = s.pager.takeId) :
    ({ s with pager := q } : Sys).latchOf id = s.latchOf id := by
  rcases hq with rfl | rfl <;> rfl

namespace Balanced

theorem refl (s : Sys) : Balanced s [] s := ⟨fun _ _ _ => rfl, by simp⟩

theorem of_latches (h : Balanced s held t) (hsame : ∀ id, u.latchOf id = t.latchOf id) :
    Balanced s held u :=
  ⟨fun id hid hne => (hsame id).trans (h.others id hid hne), h.held⟩

theorem err (h : Balanced s held t) (e : ErrorState) : Balanced s held { t with err := e } :=
  h.of_latches fun _ => rfl

/-- A call of the pager that is refused changes no latch. -/
theorem refused {heap : Heap} (h : Balanced s held t)
    (hq : q = t.pager ∨ q = t.pager.takeId) {p : Pager}
    (href : Refused q p id) : Balanced s held (t.afterCall p heap) := by
  refine ⟨fun j hj hne => ?_, h.held⟩
  rw [← h.others j hj hne, ← latchOf_asked (s := t) hq]
  rcases href.others j hj with hsame | ⟨-, hgone⟩
  · exact latchOf_of_same (s := { t with pager := q }) (t := t.afterCall p heap) hsame
  · exact latchOf_of_gone (s := { t with pager := q }) (t := t.afterCall p heap) hgone

/-- The call owes the release of the page it has fixed. -/
theorem fixes (h : Balanced s held t) (hq : q = t.pager ∨ q = t.pager.takeId)
    (hfix : Fixes held q t page u) : Balanced s (page :: held) u := by
  have hnd := hfix.holding.nodup
  simp only [List.map_cons, List.nodup_cons, List.mem_map, not_exists, not_and] at hnd
  refine ⟨fun j hj hne => ?_, fun r hr => ?_⟩
  · rw [← h.others j hj fun r hr => hne r (List.mem_cons_of_mem _ hr), ← latchOf_asked (s := t) hq]
    rcases hfix.fixed.others j hj (hne page (List.mem_cons_self ..)).symm with hsame | ⟨-, hgone⟩
    · exact latchOf_of_same (s := { t with pager := q }) hsame
    · exact latchOf_of_gone (s := { t with pager := q }) hgone
  · rcases List.mem_cons.mp hr with rfl | hr
    · rw [← h.others r.id hfix.fixed.ne_zero fun x hx => hnd.1 x hx, ← latchOf_asked (s := t) hq]
      rcases hfix.fixed.page with ⟨hat, hcan, -⟩ | ⟨hnone, -⟩
      · rw [latchOf_of_locate (s := { t with pager := q }) hat]
        simpa [CanLatch] using hcan
      · exact latchOf_of_none (s := { t with pager := q }) hnone
    · exact h.held r hr

theorem written (h : Balanced s held t) (page : PageRef) (data : Mem) :
    Balanced s held (t.written page data) := by
  refine h.of_latches fun id => ?_
  unfold Sys.latchOf
  simp only [Sys.written, writeData, locate_setHeader]
  cases t.pager.locate id with
  | none => rfl
  | some f =>
      by_cases hf : f = page.frame
      · simp [hf]
      · simp only [header_setHeader_ne _ _ _ _ hf]

theorem rooted (h : Balanced s held t) (id : PageId) : Balanced s held (t.rooted id) :=
  h.of_latches fun _ => rfl

/-- A page that is unfixed has the latch it had before the call. -/
theorem unfixed (h : Balanced s held t) (hheld : Holding held t) (hpage : page ∈ held) :
    Balanced s (held.filter (· ≠ page)) (t.unfixed page) := by
  obtain ⟨hid, hloc⟩ := hheld.there page hpage
  refine ⟨fun j hj hne => ?_, fun r hr => h.held r (List.mem_filter.mp hr).1⟩
  by_cases heq : j = page.id
  · have hlocated : (t.unfixed page).pager.locate page.id = some page.frame := hloc
    rw [heq, h.held page hpage, latchOf_of_locate hlocated, Sys.unfixed,
      header_setHeader_self, released, if_pos (hheld.latch page hpage)]
  · rw [← h.others j hj fun r hr hrid => ?_]
    · unfold Sys.latchOf
      simp only [Sys.unfixed, locate_setHeader]
      cases hf : t.pager.locate j with
      | none => rfl
      | some f =>
          have hframe : f ≠ page.frame := fun hframe =>
              heq (hheld.ok.locate_inj hj hid (hframe ▸ hf) hloc)
          simp only [header_setHeader_ne _ _ _ _ hframe]
    · refine hne r (List.mem_filter.mpr ⟨hr, ?_⟩) hrid
      simp only [decide_eq_true_eq, ne_eq]
      rintro rfl
      exact heq hrid.symm

end Balanced

theorem Balanced.single (h : Balanced s held t) (hmem : p ∈ held) (hall : ∀ r ∈ held, r = p) :
    Balanced s [p] t := by
  refine ⟨fun id hid hne => h.others id hid fun r hr => ?_, fun r hr => ?_⟩
  · rw [hall r hr]
    exact hne p (List.mem_singleton_self p)
  · rw [List.mem_singleton.mp hr]
    exact h.held p hmem

theorem latchOf_of_quiet (hquiet : Quiet [] s) (hid : id ≠ 0) : s.latchOf id = 0 := by
  cases hf : s.pager.locate id with
  | none => exact latchOf_of_none hf
  | some f =>
      rw [latchOf_of_locate hf]
      exact hquiet id f hid hf (by simp)

/-- Where no page was latched, only those held are. -/
theorem Balanced.quiet (h : Balanced s held t) (hquiet : Quiet [] s) : Quiet held t := by
  intro id f hid hf hne
  rw [← latchOf_of_locate hf, h.others id hid hne, latchOf_of_quiet hquiet hid]

/-! ### The stages of an insert -/

/-- The call does not end in a failed assertion of a latch release. -/
def NoRelease (r : Fault) : Prop := r ≠ .latchReleaseRead ∧ r ≠ .latchReleaseWrite

theorem noRelease_hang : NoRelease .hang := by
  constructor <;> decide

theorem pageInsertPayload_error {stack data : Mem} {pageSize size : Nat} {r : Fault}
    (h : pageInsertPayload stack pageSize data index size = .error r) : NoRelease r := by
  by_cases hfull : freeSpace data < size + 2
  · rw [pageInsertPayload, if_pos hfull] at h
    obtain rfl := Except.error.inj h
    constructor <;> decide
  · rw [pageInsertPayload, if_neg hfull] at h
    cases h

theorem pageInsertInner_error {stack data : Mem} {pageSize : Nat} {pageId : PageId} {r : Fault}
    (h : pageInsertInner stack pageSize data index key pageId = .error r) : NoRelease r := by
  unfold pageInsertInner at h
  split at h
  · cases hrun : pageInsertPayload stack pageSize data index (key.size + sizeofPageId) with
    | ok x => simp [hrun, bind, Except.bind] at h
    | error x =>
        rw [hrun] at h
        obtain rfl := Except.error.inj h
        exact pageInsertPayload_error hrun
  · cases hrun : pageInsertPayload stack pageSize data index (key.size + sizeofPageId) with
    | ok x => simp [hrun, bind, Except.bind] at h
    | error x =>
        simp only [hrun] at h
        obtain rfl := Except.error.inj h
        exact pageInsertPayload_error hrun

theorem pageInsertLeaf_error {stack data : Mem} {pageSize : Nat} {r : Fault}
    (h : pageInsertLeaf stack pageSize data key value = .error r) : NoRelease r := by
  unfold pageInsertLeaf at h
  rcases hsearch : pageFindPointer data key with ⟨found, index⟩
  rw [hsearch] at h
  cases found with
  | true => cases h
  | false =>
      cases hrun : pageInsertPayload stack pageSize data index (key.size + value.size) with
      | ok x => simp [hrun, bind, Except.bind] at h
      | error x =>
          simp only [hrun] at h
          obtain rfl := Except.error.inj h
          exact pageInsertPayload_error hrun

theorem fixRoot_balanced (hok : s.PagerOk) :
    wp fixRoot (fun page t => Balanced s [page] t) (Balanced s []) NoRelease s :=
  wp_fixRoot hok (fun _ e _ _ href _ => ((Balanced.refl s).refused (Or.inl rfl) href).err e)
    (fun _ _ _ => noRelease_hang) fun _ _ _ hfix => (Balanced.refl s).fixes (Or.inl rfl) hfix

theorem halves_other_ne {splitKey : Blob} {split r : PageRef} (hr : r = split ∨ r = page)
    (hother : r ≠ (halves key splitKey page split).2) : r = (halves key splitKey page split).1 := by
  rcases halves_mem key splitKey page split with ⟨heq, -⟩ | ⟨heq, -⟩
  · rw [heq] at hother ⊢
    exact hr.resolve_left hother
  · rw [heq] at hother ⊢
    exact hr.resolve_right hother

theorem splitRoot_balanced (h : Holding [page] t) (hb : Balanced s [page] t) :
    wp (splitRoot page key) (fun p u => Balanced s [p] u) (fun _ => True) NoRelease t := by
  refine wp_splitRoot h (fun _ => ?_) (fun _ _ _ _ _ => trivial) (fun _ _ _ => noRelease_hang)
    (fun _ _ _ _ _ _ _ _ _ => trivial) (fun _ _ _ _ _ _ _ => noRelease_hang)
    fun split v hid hfix _ new w _ hfix' => ?_
  · constructor <;> decide
  generalize t.splitKey page split.id = splitKey
  have hheld : Holding [new, split, page] (w.crowned page new splitKey split.id) :=
    (hfix'.holding.written _).rooted _
  have hbal : Balanced s [new, split, page] (w.crowned page new splitKey split.id) :=
    ((((hb.fixes (Or.inr rfl) hfix).written _ _).written _ _).fixes (Or.inr rfl) hfix').written
    _ _ |>.rooted _
  have hnd := hheld.nodup
  simp only [List.map_cons, List.map_nil, List.nodup_cons, List.mem_cons,
    List.not_mem_nil, or_false, not_or] at hnd
  have hsp : page ≠ split := fun heq => hnd.2.1 (by rw [heq])
  have hnp : new ≠ page := fun heq => hnd.1.2 (by rw [heq])
  have hns : new ≠ split := fun heq => hnd.1.1 (by rw [heq])
  obtain ⟨hmem, hhalf⟩ := hheld.half key splitKey (by simp : page ∈ _) (by simp) hsp
  have hnew : new ≠ (halves key splitKey page split).1 ∧
      new ≠ (halves key splitKey page split).2 := by
    rcases halves_mem key splitKey page split with ⟨heq, -⟩ | ⟨heq, -⟩ <;> simp [heq, hnp, hns]
  have hin : new ∈ [new, split, page].filter (· ≠ (halves key splitKey page split).2) :=
    List.mem_filter.mpr ⟨by simp, by simpa using hnew.2⟩
  have hother : (halves key splitKey page split).2 ∈ [new, split, page] := by
    rcases halves_mem key splitKey page split with ⟨heq, -⟩ | ⟨heq, -⟩ <;> simp [heq]
  refine ((hbal.unfixed hheld hother).unfixed hhalf hin).single ?_ fun r hr => ?_
  · exact List.mem_filter.mpr ⟨hmem, by simpa using hnew.1.symm⟩
  · simp only [List.mem_filter, List.mem_cons, List.not_mem_nil, or_false,
      decide_eq_true_eq, ne_eq] at hr
    exact halves_other_ne (hr.1.1.resolve_left hr.2) hr.1.2

theorem splitChild_balanced (h : Holding [page, parent] t) (hb : Balanced s [page, parent] t) :
    wp (splitChild parent page index key)
      (fun p u => wp (pagerUnfix parent) (fun _ u => Balanced s [p] u) (fun _ => True) NoRelease u)
      (fun u => Holding [page, parent] u) NoRelease t := by
  refine wp_splitChild h (fun _ => ?_) (fun _ hr => pageInsertInner_error hr)
    (fun q e heap _ href => ?_) (fun _ _ _ => noRelease_hang) fun split v hid hfix _ data _ => ?_
  · constructor <;> decide
  · have hasked : Holding [page, parent] { t with pager := t.pager.takeId } :=
      ⟨h.ok.takeId, h.nodup, h.there, h.latch⟩
    exact (hasked.transfer (t := { t.afterCall q heap with err := e }) href.ok
      fun r hr => hasked.refused href r hr).1
  generalize t.splitKey page split.id = splitKey
  have hgrafted : Holding [split, page, parent] (v.grafted parent page split data) :=
    hfix.holding.halved.written _
  have hbal : Balanced s [split, page, parent] (v.grafted parent page split data) :=
    (((hb.fixes (Or.inr rfl) hfix).written _ _).written _ _).written _ _
  have hnd := hgrafted.nodup
  simp only [List.map_cons, List.map_nil, List.nodup_cons, List.mem_cons,
    List.not_mem_nil, or_false, not_or] at hnd
  have hps : page ≠ split := fun heq => hnd.1.1 (by rw [heq])
  have hpr : parent ≠ split := fun heq => hnd.1.2 (by rw [heq])
  have hpp : parent ≠ page := fun heq => hnd.2.1 (by rw [heq])
  obtain ⟨hmem, hhalf⟩ := hgrafted.half key splitKey (by simp : page ∈ _) (by simp) hps
  have hparent : parent ≠ (halves key splitKey page split).1 ∧
      parent ≠ (halves key splitKey page split).2 := by
    rcases halves_mem key splitKey page split with ⟨heq, -⟩ | ⟨heq, -⟩ <;> simp [heq, hpp, hpr]
  have hin : parent ∈ [split, page, parent].filter (· ≠ (halves key splitKey page split).2) :=
    List.mem_filter.mpr ⟨by simp, by simpa using hparent.2⟩
  have hother : (halves key splitKey page split).2 ∈ [split, page, parent] := by
    rcases halves_mem key splitKey page split with ⟨heq, -⟩ | ⟨heq, -⟩ <;> simp [heq]
  refine hhalf.wp_pagerUnfix hin (((hbal.unfixed hgrafted hother).unfixed hhalf hin).single ?_
    fun r hr => ?_)
  · exact List.mem_filter.mpr ⟨hmem, by simpa using hparent.1.symm⟩
  · simp only [List.mem_filter, List.mem_cons, List.not_mem_nil, or_false,
      decide_eq_true_eq, ne_eq] at hr
    obtain ⟨⟨hr, hne⟩, hneParent⟩ := hr
    exact halves_other_ne (by tauto) hne

theorem makeRoom_balanced (h : Holding (page :: above.held) t)
    (hb : Balanced s (page :: above.held) t) :
    wp (makeRoom key value page above) (fun p u => Balanced s [p] u)
      (fun _ => True) NoRelease t := by
  cases above with
  | none =>
      simp only [makeRoom, wp_bind, wp_readPage, wp_ite]
      split
      · exact splitRoot_balanced h hb
      · exact hb
  | some above =>
      obtain ⟨parent, index⟩ := above
      have hheld : Holding [page, parent] t := h
      have hbal : Balanced s [page, parent] t := hb
      have hmem : parent ∈ [page, parent] := by simp
      have hne : page ≠ parent := fun heq => by simpa [heq] using hheld.nodup
      simp only [makeRoom, wp_deferred, wp_bind, wp_readPage, wp_ite]
      split
      · refine wp_mono (splitChild_balanced hheld hbal) (fun _ _ hu => hu) (fun u hu => ?_)
          fun _ hr => hr
        exact hu.wp_pagerUnfix hmem trivial
      · refine hheld.wp_pagerUnfix hmem ((hbal.unfixed hheld hmem).single ?_ fun r hr => ?_)
        · exact List.mem_filter.mpr ⟨by simp, by simpa using hne⟩
        · simp only [List.mem_filter, List.mem_cons, List.not_mem_nil, or_false,
            decide_eq_true_eq, ne_eq] at hr
          exact hr.1.resolve_right hr.2

theorem stepDown_balanced (h : Holding [page] t) (hb : Balanced s [page] t) :
    wp (stepDown page key) (fun r u => Holding [r.1, page] u ∧ Balanced s [r.1, page] u)
      (fun u => Holding [page] u) NoRelease t := by
  refine wp_stepDown h (fun _ e _ => ⟨h.ok, h.nodup, h.there, h.latch⟩) (fun _ => ?_)
    (fun q e heap _ href _ => ?_) (fun _ _ _ => noRelease_hang) fun _ child u _ hfix => ?_
  · constructor <;> decide
  · exact (h.transfer (t := { t.afterCall q heap with err := e }) href.ok fun r hr =>
      h.refused href r hr).1
  · exact ⟨hfix.holding, hb.fixes (Or.inl rfl) hfix⟩

theorem insertLeaf_balanced (h : Holding [page] t) (hb : Balanced s [page] t) :
    wp (insertLeaf page key value) (fun _ u => Holding [page] u ∧ Balanced s [page] u)
      (fun u => Holding [page] u) NoRelease t := by
  simp only [insertLeaf, wp_bind, wp_get, wp_readPage, wp_ofExcept]
  cases hdata : pageInsertLeaf t.stack t.tree.pageSize (t.page page) key value with
  | error r => exact pageInsertLeaf_error hdata
  | ok result =>
      cases result with
      | none => exact wp_failure (by decide) fun e _ => ⟨h.ok, h.nodup, h.there, h.latch⟩
      | some data => exact ⟨h.written data, hb.written page data⟩

/-! ### The way of an insert -/

theorem Visit.balanced (hok : s.PagerOk) (h : Visit key value s above page t) :
    Balanced s (page :: above.held) t := by
  induction h with
  | root hfix => exact (fixRoot_balanced hok).success hfix
  | child hvisit hroom _ _ hstep ih =>
      have hsettled := makeRoom_settled (hvisit.standing hok) hroom
      have hb := (makeRoom_balanced (hvisit.standing hok).holding ih).success hroom
      exact ((stepDown_balanced hsettled.holding hb).success hstep).2

theorem Reaches.balanced (hok : s.PagerOk) (h : Reaches key value s page t) :
    Balanced s [page] t := by
  obtain ⟨above, p, u, hvisit, hroom⟩ := h
  exact (makeRoom_balanced (hvisit.standing hok).holding (hvisit.balanced hok)).success hroom

theorem Balanced.unfixed_last (h : Balanced s [page] t) (hheld : Holding [page] t) :
    Balanced s [] (t.unfixed page) := by
  have hb := h.unfixed hheld (List.mem_singleton_self page)
  have hfilter : [page].filter (· ≠ page) = [] := by simp
  rwa [hfilter] at hb

theorem PlacesRow.balanced (hok : s.PagerOk) (hreach : Reaches key value s page t)
    (hplace : PlacesRow key value page t u) : Balanced s [] u := by
  obtain ⟨v, hinsert, hunfix⟩ := hplace
  obtain ⟨hheld, hb⟩ :=
    (insertLeaf_balanced (hreach.settled hok).holding (hreach.balanced hok)).success hinsert
  have hwp : wp (pagerUnfix page) (fun _ u => Balanced s [] u) (fun _ => True) (fun _ => True) v :=
    hheld.wp_pagerUnfix (List.mem_singleton_self page) (hb.unfixed_last hheld)
  exact hwp.success hunfix

/-! ### Assertions -/

theorem failure_noRelease {α : Type} {site : Site} {code : Int} {texts : List String}
    {Q : α → Sys → Prop}
    {E : Sys → Prop} (hE : ∀ e, E { s with err := e }) :
    wp (failure site code texts : Call α) Q E NoRelease s := by
  by_cases hcode : code = 0
  · simp only [failure, wp_bind, wp_get, wp_ofExcept, reportFailure, errorPush, if_pos hcode]
    constructor <;> decide
  · exact wp_failure hcode fun e _ => hE e

/-- Adding to the trace of a failed call releases nothing. -/
theorem tryCall_noRelease {α : Type} {site : Site} {text : String} {m : Call α} {Q : α → Sys → Prop}
    {E : Sys → Prop} (hm : wp m Q (fun u => ∀ e, E { u with err := e }) NoRelease s) :
    wp (tryCall site text m) Q E NoRelease s := by
  rw [tryCall, wp_recover]
  refine wp_mono hm (fun _ _ h => h) (fun u hu => ?_) fun _ h => h
  rw [wp_bind, wp_get]
  exact failure_noRelease hu

theorem descend_noRelease (h : Holding [page] t) (hb : Balanced s [page] t) :
    wp (descend page key value) (fun _ _ => True) (fun _ => True) NoRelease t := by
  have hmem : page ∈ [page] := List.mem_singleton_self page
  rw [descend_eq, wp_deferred, wp_bind]
  refine wp_mono (stepDown_balanced h hb) (fun r u hu => ?_)
    (fun u hu => hu.wp_pagerUnfix hmem trivial)
    fun _ hr => hr
  obtain ⟨child, index⟩ := r
  obtain ⟨hheld, hbal⟩ := hu
  have hin : page ∈ [child, page] := by simp
  simp only [makeRoomBelow, wp_bind, wp_readPage, wp_ite]
  split
  · refine wp_mono (splitChild_balanced hheld hbal) (fun _ _ hv => ?_)
      (fun v hv => hv.wp_pagerUnfix hin trivial)
      fun _ hr => hr
    exact wp_mono hv (fun _ _ _ => trivial) (fun _ h => h) fun _ h => h
  · exact hheld.wp_pagerUnfix hin trivial

theorem insertAtLeaf_noRelease {site : Site} {text : String} (h : Holding [page] t)
    (hb : Balanced s [page] t) :
    wp (deferred (pagerUnfix page) (tryCall site text (insertLeaf page key value)))
      (fun _ _ => True)
      (fun _ => True) NoRelease t := by
  have hmem : page ∈ [page] := List.mem_singleton_self page
  rw [wp_deferred]
  refine tryCall_noRelease (wp_mono (insertLeaf_balanced h hb)
    (fun _ u hu => hu.1.wp_pagerUnfix hmem trivial)
    (fun u hu e => ?_) fun _ hr => hr)
  have hu' : Holding [page] { u with err := e } := ⟨hu.ok, hu.nodup, hu.there, hu.latch⟩
  exact hu'.wp_pagerUnfix hmem trivial

/-- No page is unfixed twice on the way of an insert. -/
theorem btreeInsertWalk_noRelease (hok : s.PagerOk)
    (hreach : Reaches key value s page t) {r : Fault}
    (h : btreeInsertWalk fuel page key value t = .fault r) : NoRelease r := by
  induction fuel generalizing page t r with
  | zero =>
      obtain rfl := Outcome.fault.inj h
      constructor <;> decide
  | succ fuel ih =>
      simp only [btreeInsertWalk, bind_apply, readPage_apply, Outcome.bind_success] at h
      by_cases hinner : pageIsInner (pageFlags (t.page page)) = true
      swap
      · simp only [hinner, Bool.false_eq_true, not_false_eq_true, assert_false,
          Outcome.bind_fault] at h
        obtain rfl := Outcome.fault.inj h
        constructor <;> decide
      by_cases hspace : payloadPutLen (pageFlags (t.page page)) key value ≤ freeSpace (t.page page)
      swap
      · simp only [hinner, hspace, assert_true, not_false_eq_true, assert_false,
          Outcome.bind_success, Outcome.bind_fault, bind_apply] at h
        obtain rfl := Outcome.fault.inj h
        constructor <;> decide
      simp only [hinner, hspace, assert_true, Outcome.bind_success, bind_apply] at h
      rcases Outcome.bind_eq_fault.mp h with hdescend | ⟨child, u, hdescend, hrest⟩
      · exact (descend_noRelease (hreach.settled hok).holding (hreach.balanced hok)).fault hdescend
      · obtain ⟨next, index, v, hstep, hroom⟩ := descend_eq_success.mp hdescend
        have hchild : Reaches key value s child u := by
          obtain ⟨above, p, x, hvisit, hmade⟩ := hreach
          exact ⟨_, next, v, .child hvisit hmade hinner hspace hstep, hroom⟩
        rw [bind_apply, readPage_apply, Outcome.bind_success] at hrest
        split at hrest <;> rename_i hleaf
        · exact (insertAtLeaf_noRelease (hchild.settled hok).holding
            (hchild.balanced hok)).fault hrest
        · have hwalk : wp (btreeInsertWalk fuel child key value) (fun _ _ => True)
              (fun v => ∀ e : ErrorState, True) NoRelease u := by
            unfold wp
            cases hrun : btreeInsertWalk fuel child key value u with
            | success _ _ => trivial
            | failure _ => exact fun _ => trivial
            | fault r => exact ih hchild hrun
          exact (tryCall_noRelease (E := fun _ => True) hwalk).fault hrest

/-! ### Inserts -/

/-- The pager refuses the insert a page below the root: a child it goes on to, or
the page a child is split with. -/
inductive RefusedBelow (key value : Blob) (s : Sys) : Prop where
  | child {page : PageRef} {t u : Sys} (hreach : Reaches key value s page t)
      (hinner : pageIsInner (pageFlags (t.page page)) = true)
      (hrefuse : treeFix (childAt (t.page page) (pageFindPointer (t.page page) key).2) t =
        .failure u)
  | split {parent page : PageRef} {index : Nat} {t u : Sys}
      (hvisit : Visit key value s (some (parent, index)) page t)
      (hfull : needsSplit (t.page page) key value = true) (hrefuse : treeNext t = .failure u)

theorem stepDown_failure (h : stepDown page key t = .failure u) :
    (pageFindPointer (t.page page) key).1 = true ∨
      ∃ v, treeFix (childAt (t.page page) (pageFindPointer (t.page page) key).2) t =
        .failure v := by
  simp only [stepDown, bind_apply, readPage_apply, Outcome.bind_success] at h
  rcases hsearch : pageFindPointer (t.page page) key with ⟨found, index⟩
  rw [hsearch] at h
  cases found with
  | true => exact Or.inl rfl
  | false =>
      refine Or.inr ?_
      by_cases hzero : childAt (t.page page) index ≠ 0
      · simp only [bind_apply, assert_true hzero, Outcome.bind_success] at h
        rcases Outcome.bind_eq_failure.mp h with hrefuse | ⟨child, v, -, hrest⟩
        · obtain ⟨v, e, hrefuse, -⟩ := tryCall_eq_failure hrefuse
          exact ⟨v, hrefuse⟩
        · cases hrest
      · simp only [bind_apply, assert_false hzero, Outcome.bind_fault] at h
        cases h

theorem splitChild_failure (h : splitChild parent page index key t = .failure u) :
    ∃ v, treeNext t = .failure v := by
  simp only [splitChild, bind_apply] at h
  rcases Outcome.bind_eq_failure.mp h with hrefuse | ⟨split, v, -, h⟩
  · obtain ⟨v, e, hrefuse, -⟩ := tryCall_eq_failure hrefuse
    exact ⟨v, hrefuse⟩
  · -- from here on pages are only written and unfixed
    have hwp : wp (do
        let splitKey ← splitPage page split
        insertInner parent index splitKey split.id
        if keyCompare key.data splitKey.data < 0 then do
          pagerUnfix split
          pure page
        else do
          pagerUnfix page
          pure split) (fun _ _ => True) (fun _ => False) (fun _ => True) v := by
      rw [wp_bind]
      refine wp_splitPage (fun _ => trivial) fun _ => ?_
      rw [wp_bind]
      refine wp_insertInner (fun _ _ => trivial) fun _ _ => ?_
      simp only [wp_ite, wp_bind]
      split
      · exact wp_pagerUnfix_of_all fun _ => trivial
      · exact wp_pagerUnfix_of_all fun _ => trivial
    exact (hwp.failure h).elim

theorem insertLeaf_failure (h : insertLeaf page key value t = .failure u) :
    (pageFindPointer (t.page page) key).1 = true := by
  simp only [insertLeaf, bind_apply, get_apply, readPage_apply, Outcome.bind_success] at h
  rcases hsearch : pageFindPointer (t.page page) key with ⟨found, index⟩
  cases found with
  | true => rfl
  | false =>
      cases hdata : pageInsertLeaf t.stack t.tree.pageSize (t.page page) key value with
      | error r => simp [hdata] at h
      | ok result =>
          cases result with
          | none =>
              simp only [pageInsertLeaf, hsearch] at hdata
              cases hrun : pageInsertPayload t.stack t.tree.pageSize (t.page page) index
                (key.size + value.size) with
              | error r =>
                  rw [hrun] at hdata
                  cases hdata
              | ok x =>
                  rw [hrun] at hdata
                  cases hdata
          | some data =>
              rw [hdata] at h
              cases h

/-- Below the root an insert fails at the key or at a page it is refused. -/
theorem FailsBelow.cause (h : FailsBelow key value s u) :
    MeetsKey key value s ∨ RefusedBelow key value s := by
  induction h with
  | @makeRoom parent page index t u hvisit hfail =>
      have hbody := deferred_eq_failure (fun _ _ => pagerUnfix_ne_failure) hfail
      obtain ⟨v, hbody, -⟩ := hbody
      simp only [bind_apply, readPage_apply, Outcome.bind_success] at hbody
      split at hbody <;> rename_i hfull
      · obtain ⟨w, hrefuse⟩ := splitChild_failure hbody
        exact Or.inr (.split hvisit hfull hrefuse)
      · cases hbody
  | stepDown hreach hinner hfail hexit =>
      rcases stepDown_failure hfail with hfound | ⟨v, hrefuse⟩
      · exact Or.inl ⟨_, _, hreach, hfound⟩
      · exact Or.inr (.child hreach hinner hrefuse)
  | insertLeaf hreach hleaf hfail hexit => exact Or.inl ⟨_, _, hreach, insertLeaf_failure hfail⟩
  | trace _ _ ih => exact ih

theorem insertBelow_noRelease (hok : s.PagerOk) (hreach : Reaches key value s page t) {r : Fault}
    (h : insertBelow fuel key value (t, page) = .fault r) : NoRelease r := by
  simp only [insertBelow, bind_apply, readVar_apply, Outcome.bind_success,
    lift_apply, readPage_apply, Outcome.mapState_success] at h
  split at h
  · have hwp : wp (lift (deferred (pagerUnfix page) (tryCall ⟨"src/btree.c", "btree_insert", 437⟩
        "page_insert_leaf(root.data, btree->page_size, key, value)" (insertLeaf page key value))) :
          Prog Fault (Sys × PageRef) Unit) (fun _ _ => True) (fun _ => True) NoRelease
            (t, page) := by
      rw [wp_lift]
      exact insertAtLeaf_noRelease (hreach.settled hok).holding (hreach.balanced hok)
    exact hwp.fault h
  · have hwalk : wp (btreeInsertWalk fuel page key value) (fun _ _ => True)
        (fun v => ∀ e : ErrorState, True) NoRelease t := by
      unfold wp
      cases hrun : btreeInsertWalk fuel page key value t with
      | success _ _ => trivial
      | failure _ => exact fun _ => trivial
      | fault r => exact btreeInsertWalk_noRelease hok hreach hrun
    have hwp : wp (lift (tryCall ⟨"src/btree.c", "btree_insert", 439⟩
        "btree_insert_walk(btree, root, key, value)" (btreeInsertWalk fuel page key value)) :
          Prog Fault (Sys × PageRef) Unit) (fun _ _ => True) (fun _ => True) NoRelease
            (t, page) := by
      rw [wp_lift]
      exact tryCall_noRelease (E := fun _ => True) hwalk
    exact hwp.fault h

theorem PlacesRow.err (hok : s.PagerOk) (hreach : Reaches key value s page t)
    (hplace : PlacesRow key value page t u) : u.err = s.err := by
  have hsettled := hreach.settled hok
  obtain ⟨data, -, rfl⟩ := hplace.written hsettled.holding
  exact hsettled.err

/-- An insert that succeeds while no error is recorded leaves every latch as it was. -/
theorem btreeInsert_balanced (hok : s.PagerOk) (hclear : errorGetCode s.err = 0)
    (hrun : btreeInsert fuel key value s = .success () t) : Balanced s [] t := by
  obtain ⟨leaf, u, v, root, hreach, -, hplace, hexit⟩ := btreeInsert_reaches hrun
  have hcode : errorGetCode v.err = 0 := by rw [hplace.err hok hreach, hclear]
  simp only [deferGuard, bind_apply, get_apply, Outcome.bind_success, hcode, if_true] at hexit
  obtain ⟨-, rfl⟩ := Outcome.success.inj hexit
  exact hplace.balanced hok hreach

/-- Once the root is latched an insert owes the release of one page until it
returns, unless it fails below the root or halves it. -/
theorem insertBody_balanced (hok : s.PagerOk) (hfix : fixRoot s = .success root t)
    (hkey : ¬ MeetsKey key value s) (hpages : ¬ RefusedBelow key value s)
    (hwhole : ¬ HalvesRoot key value s) :
    wp (insertBody fuel root key value) (fun _ u => Balanced s [] u.1 ∧ u.1.err = s.err)
      (fun u => Balanced s [u.2] u.1 ∧ Holding [u.2] u.1 ∧ errorGetCode u.1.err ≠ 0) NoRelease
      (t, root) := by
  have hvisit : Visit key value s none root t := .root hfix
  have hheld : Holding [root] t := (hvisit.standing hok).holding
  have hb : Balanced s [root] t := hvisit.balanced hok
  unfold wp
  cases hrun : insertBody fuel root key value (t, root) with
  | success _ u =>
      obtain ⟨w, v⟩ := u
      obtain ⟨x, hroom, hfin⟩ := insertBody_eq_success.mp hrun
      obtain ⟨leaf, y, hreach, hleaf, hplace⟩ :=
        Reaches.finishes ⟨none, root, t, hvisit, hroom⟩ hfin
      exact ⟨hplace.balanced hok hreach, hplace.err hok hreach⟩
  | failure u =>
      obtain ⟨w, v⟩ := u
      rcases insertBody_failure hfix hrun with ⟨hfull, hsplit, rfl⟩ | hbelow
      · rcases splitRoot_failure hsplit with hrefuse | ⟨split, x, y, hnext, hrefuse⟩
        · have hwp : wp (tryCall ⟨"src/btree.c", "btree_insert", 400⟩
              "pager_next(btree->pager, &split)" treeNext)
              (fun _ _ => True) (fun u => Balanced s [v] u ∧ Holding [v] u ∧ errorGetCode u.err ≠ 0)
              (fun _ => True) t := by
            refine wp_nextPage hheld (fun _ _ _ _ => trivial) (fun q e heap he href => ?_)
              fun _ _ _ => trivial
            have hasked : Holding [v] { t with pager := t.pager.takeId } :=
              ⟨hheld.ok.takeId, hheld.nodup, hheld.there, hheld.latch⟩
            exact ⟨(hb.refused (Or.inr rfl) href).err e,
              (hasked.transfer (t := { t.afterCall q heap with err := e }) href.ok
                fun r hr => hasked.refused href r hr).1, he⟩
          exact hwp.failure hrefuse
        · exact absurd ⟨v, t, split, x, y, hfix, hfull, hnext, hrefuse⟩ hwhole
      · rcases hbelow.cause with hmeets | hrefused
        · exact absurd hmeets hkey
        · exact absurd hrefused hpages
  | fault r =>
      simp only [insertBody, bind_apply, lift_apply, readPage_apply, Outcome.mapState_success,
        Outcome.bind_success] at hrun
      split at hrun <;> rename_i hfull
      · simp only [bind_apply] at hrun
        rcases Outcome.bind_eq_fault.mp hrun with hsplit | ⟨page, ⟨x, _⟩, hsplit, hbelow⟩
        · have hwp : wp (lift (splitRoot root key) : Prog Fault (Sys × PageRef) PageRef)
              (fun _ _ => True)
              (fun _ => True) NoRelease (t, root) := by
            rw [wp_lift]
            exact wp_mono (splitRoot_balanced hheld hb) (fun _ _ _ => trivial)
              (fun _ h => h) fun _ h => h
          exact hwp.fault hsplit
        · exact insertBelow_noRelease hok
            ⟨none, root, t, hvisit, (makeRoom_root hfull).trans
              (lift_eq_success.mp hsplit).1⟩ hbelow
      · refine insertBelow_noRelease hok ⟨none, root, t, hvisit, ?_⟩ hrun
        simp only [makeRoom, bind_apply, readPage_apply, Outcome.bind_success, if_neg hfull]
        rfl

/-! ### Calls -/

/-- Every page has the latch it had. -/
def SameLatches (s t : Sys) : Prop := ∀ id, id ≠ 0 → t.latchOf id = s.latchOf id

/-- Whatever the call reports, every latch has the value it had when it began;
and the call fails no assertion of a latch release. -/
def KeepsLatches {α : Type} (m : Call α) (s : Sys) : Prop :=
  wp m (fun _ t => SameLatches s t) (SameLatches s) NoRelease s

theorem Balanced.same (h : Balanced s [] t) : SameLatches s t :=
  fun id hid => h.others id hid (by simp)

theorem btreeInsert_keepsLatches (hok : s.PagerOk) (hclear : errorGetCode s.err = 0)
    (hkey : ¬ MeetsKey key value s) (hpages : ¬ RefusedBelow key value s)
    (hwhole : ¬ HalvesRoot key value s) :
    KeepsLatches (btreeInsert fuel key value) s := by
  unfold KeepsLatches
  rw [btreeInsert_eq, wp_bind]
  unfold wp
  cases hfix : fixRoot s with
  | failure t => exact ((fixRoot_balanced hok).failure hfix).same
  | fault r => exact (fixRoot_balanced hok).fault hfix
  | success root t =>
      change wp (withVar root (fun v => deferGuard (pagerUnfix v)) (insertBody fuel root key value))
        (fun _ t => SameLatches s t) (SameLatches s) NoRelease t
      rw [wp_withVar]
      refine wp_mono (insertBody_balanced hok hfix hkey hpages hwhole)
        (fun _ u hu => ?_) (fun u hu => ?_)
        fun _ h => h
      · simp only [deferGuard, wp_bind, wp_get, hu.2, hclear, if_true, wp_pure]
        exact hu.1.same
      · obtain ⟨hb, hheld, hcode⟩ := hu
        simp only [deferGuard, wp_bind, wp_get, if_neg hcode, wp_modify]
        have hb' : Balanced s [u.2] { u.1 with
            cleanups := { u.1.cleanups with ran := u.1.cleanups.ran + 1 } } :=
              hb.of_latches fun _ => rfl
        have hheld' : Holding [u.2] { u.1 with
            cleanups := { u.1.cleanups with ran := u.1.cleanups.ran + 1 } } :=
          ⟨hheld.ok, hheld.nodup, hheld.there, hheld.latch⟩
        exact hheld'.wp_pagerUnfix (List.mem_singleton_self _) (hb'.unfixed_last hheld').same

/-! ### Lookups -/

theorem lookupLoop_keepsLatches (h : Holding [page] t) (hb : Balanced s [page] t) :
    wp (lookupLoop key fuel) (fun _ u => Holding [u.2] u.1 ∧ Balanced s [u.2] u.1)
      (fun u => Holding [u.2] u.1 ∧ Balanced s [u.2] u.1) NoRelease (t, page) := by
  induction fuel generalizing t page with
  | zero => constructor <;> decide
  | succ fuel ih =>
      have hmem : page ∈ [page] := List.mem_singleton_self page
      simp only [lookupLoop, wp_bind, wp_readVar, wp_lift, wp_readPage, wp_ite]
      split
      · simp only [wp_bind, wp_assert]
        split
        swap
        · constructor <;> decide
        rw [wp_lift]
        refine wp_fixPage h (fun child u _ hfix => ?_) (fun q e heap _ href _ => ?_)
          fun _ _ _ => noRelease_hang
        · have hne : child ≠ page := by
            rintro rfl
            exact (List.nodup_cons.mp hfix.holding.nodup).1 (by simp)
          have hfilter : [child, page].filter (· ≠ page) = [child] := by simp [hne]
          have hin : page ∈ [child, page] := by simp
          have hheld := hfix.holding.unfixed hin
          have hbal := (hb.fixes (Or.inl rfl) hfix).unfixed hfix.holding hin
          rw [hfilter] at hheld hbal
          rw [wp_bind, wp_lift]
          refine hfix.holding.wp_pagerUnfix hin ?_
          rw [wp_bind, wp_writeVar]
          exact ih hheld hbal
        · exact ⟨(h.transfer (t := { t.afterCall q heap with err := e }) href.ok
            fun r hr => h.refused href r hr).1, (hb.refused (Or.inl rfl) href).err e⟩
      · exact ⟨h, hb⟩

theorem btreeLookup_keepsLatches (hok : s.PagerOk) : KeepsLatches (btreeLookup fuel key) s := by
  unfold KeepsLatches btreeLookup
  rw [wp_bind, wp_get, wp_bind]
  refine wp_fixPage (Holding.nil hok) (fun page t _ hfix => ?_) (fun q e heap _ href _ => ?_)
    fun _ _ _ => noRelease_hang
  · rw [wp_withVar, wp_bind]
    have hlast {u : Sys × PageRef} (hu : Holding [u.2] u.1 ∧ Balanced s [u.2] u.1) :
        SameLatches s (u.1.unfixed u.2) := (hu.2.unfixed_last hu.1).same
    refine wp_mono (lookupLoop_keepsLatches hfix.holding
      ((Balanced.refl s).fixes (Or.inl rfl) hfix))
      (fun _ v hv => ?_) (fun v hv => ?_) fun _ h => h
    · simp only [wp_bind, wp_readVar, wp_lift, wp_readPage]
      rcases pageFindPointer (v.1.page v.2) key with ⟨found, index⟩
      cases found with
      | false =>
          rw [wp_lift]
          refine wp_failure (by decide) fun e _ => ?_
          have hheld : Holding [v.2] { v.1 with err := e } :=
            ⟨hv.1.ok, hv.1.nodup, hv.1.there, hv.1.latch⟩
          exact hheld.wp_pagerUnfix (List.mem_singleton_self _)
            ((hv.2.err e).unfixed_last hheld).same
      | true => exact hv.1.wp_pagerUnfix (List.mem_singleton_self _) (hlast hv)
    · exact hv.1.wp_pagerUnfix (List.mem_singleton_self _) (hlast hv)
  · exact (((Balanced.refl s).refused (Or.inl rfl) href).err e).same

/-- An insert that splits a child of the root, and is given a page for it, meets nothing
that makes it fail if the key is on neither page. -/
theorem ChildWay.Leads.not_fails {w : ChildWay} (h : w.Leads key value s)
    (hroom : needsSplit (w.atPage.page w.page) key value = false)
    (hinner : (pageFindPointer (w.atParent.page w.parent) key).1 = false)
    (hfixed : (treeFix (childAt (w.atParent.page w.parent)
      (pageFindPointer (w.atParent.page w.parent) key).2) w.atParent).value?.isSome)
    (hnext : (treeNext w.atChild).value?.isSome)
    (hleaf : (pageFindPointer (w.atHalf.page w.half) key).1 = false) :
    ¬ MeetsKey key value s ∧ ¬ RefusedBelow key value s ∧ ¬ HalvesRoot key value s := by
  have hreaches {q : PageRef} {v : Sys} (hreach : Reaches key value s q v) :
      (q = w.parent ∧ v = w.atParent) ∨ (q = w.half ∧ v = w.atHalf) := by
    obtain ⟨above, r, x, hvisit, hmade⟩ := hreach
    rcases h.visits hvisit with ⟨rfl, rfl, rfl⟩ | ⟨rfl, rfl, rfl⟩
    · exact Or.inl (Outcome.success.inj (hmade.symm.trans h.room))
    · exact Or.inr (Outcome.success.inj (hmade.symm.trans h.made))
  have hgranted {m : Call PageRef} {v u : Sys} (hm : (m v).value?.isSome) : m v ≠ .failure u := by
    intro hrefused
    rw [hrefused] at hm
    cases hm
  refine ⟨fun hmeets => ?_, fun hrefused => ?_, fun hhalves => ?_⟩
  · obtain ⟨q, v, hreach, hfound⟩ := hmeets
    rcases hreaches hreach with ⟨rfl, rfl⟩ | ⟨rfl, rfl⟩
    · rw [hinner] at hfound
      cases hfound
    · rw [hleaf] at hfound
      cases hfound
  · cases hrefused with
    | child hreach hpage hrefuse =>
        rcases hreaches hreach with ⟨rfl, rfl⟩ | ⟨rfl, rfl⟩
        · exact hgranted hfixed hrefuse
        · rw [pageIsInner_eq, h.leaf] at hpage
          cases hpage
    | split hvisit _ hrefuse =>
        rcases h.visits hvisit with ⟨habove, -, -⟩ | ⟨-, rfl, rfl⟩
        · cases habove
        · exact hgranted hnext hrefuse
  · obtain ⟨root, v, _, _, _, hfix, hfull, -, -⟩ := hhalves
    obtain ⟨rfl, rfl⟩ := Outcome.success.inj (h.root.symm.trans hfix)
    rw [hroom] at hfull
    cases hfull

end

end Wednesday
