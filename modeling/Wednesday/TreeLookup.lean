import Wednesday.TreeVisits

/-!
The route of a lookup. A lookup goes from page to page as `page_find_pointer`
says, and changes none of them.
-/

namespace Wednesday

open Lib Prog Pager FenceTree

/-- The pages a search for the key goes to, from a page to a leaf. -/
inductive Route (s : Sys) (key : Blob) : PageId → PageId → Prop where
  | leaf {id : PageId} {data : Mem} (hpage : s.pageAt id = some data)
      (hleaf : pageIsLeaf (pageFlags data) = true) : Route s key id id
  | inner {id leaf : PageId} {data : Mem} (hpage : s.pageAt id = some data)
      (hinner : pageIsInner (pageFlags data) = true)
      (hnext : Route s key (childAt data (pageFindPointer data key).2) leaf) : Route s key id leaf

section

variable {type fuel : Nat} {nodes : PageId → TreeNode} {s t u : Sys} {page : PageRef} {p : Pager}
  {heap : Heap} {held : List PageRef} {key : Blob} {id leaf leaf' : PageId}

/-- A refused call changes no page, but for one in `X` that is evicted. -/
theorem Pager.Refused.ownAt {X : PageId → Bool} (h : Refused p t.pager id)
    (hp : p = s.pager ∨ p = s.pager.takeId) (hkeep : ∀ j, p.evictsFor id = some j → X j = true) :
    t.ownAt X = s.ownAt X := by
  obtain ⟨hlocate, hheader, -, -⟩ := asked_eq hp
  funext j
  cases hj : X j with
  | true => rw [Sys.ownAt, Sys.ownAt, hj, if_pos rfl, if_pos rfl]
  | false =>
      rw [ownAt_eq hj, ownAt_eq hj]
      by_cases hzero : j = 0
      · rw [hzero, Sys.pageAt_zero, Sys.pageAt_zero]
      rcases h.others j hzero with hsame | ⟨hev, -⟩
      · rw [Sys.pageAt, Sys.pageAt, if_neg hzero, if_neg hzero, hsame.1, hlocate]
        cases hf : s.pager.locate j with
        | none => rfl
        | some f =>
            rw [Option.map_some, Option.map_some, (hsame.2 f ((hlocate j).trans hf)).1, hheader]
      · rw [hkeep j hev] at hj
        cases hj

theorem Pager.Refused.pageAt (h : Refused p t.pager id) (hp : p = s.pager ∨ p = s.pager.takeId)
    (hkeep : p.evictsFor id = none) : t.pageAt = s.pageAt := by
  have hown : t.ownAt (fun _ => false) = s.ownAt fun _ => false := h.ownAt hp fun j hev => by
    rw [hkeep] at hev
    cases hev
  exact hown

theorem Pager.Refused.quiet (h : Refused p t.pager id) (hp : p = s.pager ∨ p = s.pager.takeId)
    (hkeep : p.evictsFor id = none) (hquiet : Quiet held s) : Quiet held t := by
  obtain ⟨hlocate, hheader, -, -⟩ := asked_eq hp
  intro j f hj hf hne
  rcases h.others j hj with hsame | ⟨hev, -⟩
  · rw [hsame.1] at hf
    rw [(hsame.2 f hf).2, hheader]
    exact hquiet j f hj ((hlocate j).symm.trans hf) hne
  · rw [hkeep] at hev
    cases hev

/-- A call on a page that is there leaves the pages alone also when it is refused. -/
theorem Pager.Refused.samePages (h : Refused s.pager p id) (hthere : s.pageAt id ≠ none) :
    SamePages s (s.afterCall p heap) :=
  ⟨h.pageAt (t := s.afterCall p heap) (Or.inl rfl) (evictsFor_eq_none (Or.inl hthere) (Or.inl rfl)),
    rfl, h.nextPage.ge⟩

/-! ### Routes -/

theorem Route.congr (hpages : t.pageAt = s.pageAt) (h : Route t key id leaf) :
    Route s key id leaf := by
  induction h with
  | leaf hpage hleaf => exact .leaf (hpages ▸ hpage) hleaf
  | inner hpage hinner _ ih => exact .inner (hpages ▸ hpage) hinner ih

theorem Route.functional (h : Route s key id leaf) (h' : Route s key id leaf') : leaf = leaf' := by
  induction h with
  | leaf hpage hleaf =>
      cases h' with
      | leaf => rfl
      | inner hpage' hinner =>
          obtain rfl := Option.some.inj (hpage.symm.trans hpage')
          rw [pageIsInner_eq, hleaf] at hinner
          cases hinner
  | inner hpage hinner _ ih =>
      cases h' with
      | leaf hpage' hleaf =>
          obtain rfl := Option.some.inj (hpage.symm.trans hpage')
          rw [pageIsInner_eq, hleaf] at hinner
          cases hinner
      | inner hpage' _ hnext =>
          obtain rfl := Option.some.inj (hpage.symm.trans hpage')
          exact ih hnext

theorem Route.end_leaf (h : Route s key id leaf) :
    ∃ data, s.pageAt leaf = some data ∧ pageIsLeaf (pageFlags data) = true := by
  induction h with
  | leaf hpage hleaf => exact ⟨_, hpage, hleaf⟩
  | inner _ _ _ ih => exact ih

/-! ### The loop of the lookup -/

/-- The lookup holds one page, and has changed none. -/
structure LooksAt (t : Sys) (page : PageRef) (u : Sys × PageRef) : Prop where
  same : SamePages t u.1
  holding : Holding [u.2] u.1
  quiet : Quiet [page] t → Quiet [u.2] u.1
  outage : u.1.outage = t.outage

theorem LooksAt.refl (h : Holding [page] t) : LooksAt t page (t, page) :=
  ⟨.refl t, h, fun hquiet => hquiet, rfl⟩

theorem LooksAt.trans {child : PageRef} {v : Sys × PageRef} (h : LooksAt t page (u, child))
    (h' : LooksAt u child v) : LooksAt t page v :=
  ⟨h.same.trans h'.same, h'.holding, fun hquiet => h'.quiet (h.quiet hquiet),
    h'.outage.trans h.outage⟩

/-- From a page to its child, with the page unfixed once the child is fixed. -/
theorem Fixes.looksAt {child : PageRef} (h : Fixes [page] t.pager t child u)
    (hthere : t.pageAt child.id ≠ none) : LooksAt t page (u.unfixed page, child) := by
  have hne : child ≠ page := by
    rintro rfl
    exact (List.nodup_cons.mp h.holding.nodup).1 (by simp)
  have hfilter : [child, page].filter (· ≠ page) = [child] := by simp [hne]
  have hpage : page ∈ [child, page] := by simp
  refine ⟨(h.samePages hthere).trans (samePages_unfixed u page), ?_, fun hquiet => ?_, h.outage⟩
  · have hheld := h.holding.unfixed hpage
    rwa [hfilter] at hheld
  · have hleft :=
      (h.quiet (Or.inl rfl) (evictsFor_eq_none (Or.inl hthere) (Or.inl rfl)) hquiet).unfixed
      h.holding hpage
    rwa [hfilter] at hleft

theorem lookupLoop_route (hheld : Holding [page] t) (h : PagesHold type nodes t) :
    wp (lookupLoop key fuel) (fun _ u => LooksAt t page u ∧ Route t key page.id u.2.id)
      (fun u => LooksAt t page u ∧ ∃ n, t.outage n = true) (fun _ => True) (t, page) := by
  induction fuel generalizing t page with
  | zero => trivial
  | succ fuel ih =>
      have hpage : page ∈ [page] := List.mem_singleton_self page
      simp only [lookupLoop, wp_bind, wp_readVar, wp_lift, wp_readPage, wp_ite]
      split <;> rename_i hinner
      · simp only [wp_bind, wp_assert]
        split
        swap
        · trivial
        rename_i hnext
        have hthere := h.child_there hheld hpage hinner key
        rw [wp_lift]
        refine wp_fixPage hheld (fun child u hid hfix => ?_) (fun q e heap _ href hcause => ?_)
          fun _ _ _ => trivial
        · have hthere' : t.pageAt child.id ≠ none := hid ▸ hthere
          have hlooks := hfix.looksAt hthere'
          rw [wp_bind, wp_lift]
          refine hfix.holding.wp_pagerUnfix (by simp) ?_
          rw [wp_bind, wp_writeVar]
          refine wp_mono (ih hlooks.holding (h.same hlooks.same))
            (fun _ v hv => ?_) (fun v hv => ?_)
            fun _ _ => trivial
          · refine ⟨hlooks.trans hv.1, .inner (hheld.pageAt hpage) hinner ?_⟩
            rw [← hid]
            exact hv.2.congr hlooks.same.pageAt
          · exact ⟨hlooks.trans hv.1, hlooks.outage ▸ hv.2⟩
        · have hsame : SamePages t { t.afterCall q heap with err := e } :=
            (href.samePages hthere).err e
          refine ⟨⟨hsame, ?_, fun hquiet => ?_, rfl⟩, ?_⟩
          · exact (hheld.transfer (t := { t.afterCall q heap with err := e }) href.ok
              fun r hr => hheld.refused href r hr).1
          · exact href.quiet (t := { t.afterCall q heap with err := e }) (Or.inl rfl)
              (evictsFor_eq_none (Or.inl hthere) (Or.inl rfl)) hquiet
          · rcases hcause with hcause | hzero | hnone
            · exact ⟨_, hcause⟩
            · exact absurd hzero hnext
            · exact absurd ((pageAt_eq_none_iff hnext).mpr hnone) hthere
      · refine ⟨.refl hheld, .leaf (hheld.pageAt hpage) ?_⟩
        rwa [pageIsInner_eq, Bool.not_eq_true', Bool.not_eq_false] at hinner

/-! ### The lookup -/

/-- A lookup that has returned has changed no page and holds none. -/
structure Looked (s t : Sys) : Prop where
  ok : t.PagerOk
  same : SamePages s t
  quiet : Quiet [] s → Quiet [] t
  outage : t.outage = s.outage

/-- Where the value of a key stands that is on the leaf of its route. -/
structure ValueAt (s : Sys) (key : Blob) (leaf : PageId) (data : Mem) (offset : Nat) : Prop where
  route : Route s key s.tree.root leaf
  page : s.pageAt leaf = some data
  found : (pageFindPointer data key).1 = true
  offset : offset = pageCell data (pageFindPointer data key).2 +
    payloadGetValuePtr (pageFlags data) (pageGetPayload data (pageFindPointer data key).2)

/-- The key is not on the leaf of its route. -/
def Missing (s : Sys) (key : Blob) : Prop :=
  ∃ leaf data, Route s key s.tree.root leaf ∧ s.pageAt leaf = some data ∧
    (pageFindPointer data key).1 = false

theorem LooksAt.looked {v : Sys × PageRef} (hfix : Fixes [] s.pager s page t)
    (hthere : s.pageAt page.id ≠ none) (h : LooksAt t page v) : Looked s (v.1.unfixed v.2) := by
  have hfilter : [v.2].filter (· ≠ v.2) = [] := by simp
  have hmem : v.2 ∈ [v.2] := List.mem_singleton_self _
  refine ⟨(h.holding.unfixed hmem).ok, ?_, fun hquiet => ?_, h.outage.trans hfix.outage⟩
  · exact ((hfix.samePages hthere).trans h.same).trans (samePages_unfixed _ _)
  · have hleft := (h.quiet (hfix.quiet (Or.inl rfl) (evictsFor_eq_none (Or.inl hthere) (Or.inl rfl))
      hquiet)).unfixed h.holding hmem
    rwa [hfilter] at hleft

theorem btreeLookup_route (hok : s.PagerOk) (h : PagesHold type nodes s) :
    wp (btreeLookup fuel key)
      (fun ptr t => Looked s t ∧ ∃ leaf,
        ValueAt s key leaf (t.pager.header ptr.frame).data ptr.offset)
      (fun t => Looked s t ∧ ((∃ n, s.outage n = true) ∨ Missing s key ∧
        errorGetCode t.err = ENOENT))
      (fun _ => True) s := by
  unfold btreeLookup
  rw [wp_bind, wp_get, wp_bind]
  refine wp_fixPage (Holding.nil hok) (fun page t hid hfix => ?_) (fun q e heap _ href hcause => ?_)
    fun _ _ _ => trivial
  · have hthere : s.pageAt page.id ≠ none := hid ▸ h.root
    have ht : PagesHold type nodes t := h.fixes hfix hthere
    have hpages : t.pageAt = s.pageAt := (hfix.samePages hthere).pageAt
    rw [wp_withVar, wp_bind]
    refine wp_mono (lookupLoop_route hfix.holding ht) (fun _ v hv => ?_) (fun v hv => ?_)
      fun _ _ => trivial
    · obtain ⟨hlooks, hroute⟩ := hv
      have hmem : v.2 ∈ [v.2] := List.mem_singleton_self _
      have hlooked := hlooks.looked hfix hthere
      have hroute' : Route s key s.tree.root v.2.id := hid ▸ hroute.congr hpages
      have hpage : s.pageAt v.2.id = some (v.1.page v.2) := by
        rw [← hpages, ← hlooks.same.pageAt]
        exact hlooks.holding.pageAt hmem
      simp only [wp_bind, wp_readVar, wp_lift, wp_readPage]
      rcases hsearch : pageFindPointer (v.1.page v.2) key with ⟨found, index⟩
      cases found with
      | false =>
          rw [wp_lift]
          refine wp_failure (by decide) fun e he => ?_
          refine Holding.wp_pagerUnfix (s := { v.1 with err := e }) ⟨hlooks.holding.ok,
            hlooks.holding.nodup, hlooks.holding.there, hlooks.holding.latch⟩ hmem ?_
          refine ⟨⟨hlooked.ok, hlooked.same.err e, hlooked.quiet, hlooked.outage⟩, Or.inr ⟨?_, he⟩⟩
          exact ⟨_, _, hroute', hpage, by rw [hsearch]⟩
      | true =>
          refine hlooks.holding.wp_pagerUnfix hmem ⟨hlooked, v.2.id, ?_⟩
          have hdata : ((v.1.unfixed v.2).pager.header v.2.frame).data = v.1.page v.2 :=
            Sys.page_unfixed v.1 v.2 v.2
          rw [hdata]
          exact ⟨hroute', hpage, by rw [hsearch], by rw [hsearch]⟩
    · exact hv.1.holding.wp_pagerUnfix (List.mem_singleton_self _)
        ⟨hv.1.looked hfix hthere, Or.inl (hfix.outage ▸ hv.2)⟩
  · refine ⟨⟨href.ok, (href.samePages h.root).err e, fun hquiet => ?_, rfl⟩, Or.inl ?_⟩
    · exact href.quiet (t := { s.afterCall q heap with err := e }) (Or.inl rfl)
        (evictsFor_eq_none (Or.inl h.root) (Or.inl rfl)) hquiet
    · rcases hcause with hcause | hzero | hnone
      · exact ⟨_, hcause⟩
      · exact absurd (hzero ▸ Sys.pageAt_zero s) h.root
      · have hzero : s.tree.root ≠ 0 := fun hzero => h.root (hzero ▸ Sys.pageAt_zero s)
        exact absurd ((pageAt_eq_none_iff hzero).mpr hnone) h.root

/-- The lookup leaves its loop with this page fixed. -/
def LookupEnds (fuel : Nat) (key : Blob) (s : Sys) (page : PageRef) : Prop :=
  ∃ root t u, treeFix s.tree.root s = .success root t ∧
    lookupLoop key fuel (t, root) = .success () (u, page)

theorem LookupEnds.route (h : LookupEnds fuel key s page) (hok : s.PagerOk)
    (hnodes : PagesHold type nodes s) : Route s key s.tree.root page.id := by
  obtain ⟨root, t, u, hfix, hloop⟩ := h
  have hwp : wp (tryCall ⟨"src/btree.c", "btree_lookup", 448⟩ "" (treeFix s.tree.root))
      (fun root t => root.id = s.tree.root ∧ Fixes [] s.pager s root t) (fun _ => True)
      (fun _ => True) s :=
    wp_fixPage (Holding.nil hok) (fun _ _ hid hfix => ⟨hid, hfix⟩) (fun _ _ _ _ _ _ => trivial)
      fun _ _ _ => trivial
  obtain ⟨hid, hfixes⟩ := hwp.success (tryCall_eq_success.mpr hfix)
  have hthere : s.pageAt root.id ≠ none := hid ▸ hnodes.root
  have hroute := ((lookupLoop_route hfixes.holding (hnodes.fixes hfixes hthere)).success hloop).2
  rw [← hid]
  exact hroute.congr (hfixes.samePages hthere).pageAt

/-! ### Lookups return -/

/-- A page on a route is not its own child. -/
theorem Route.child_ne (h : Route s key id leaf) {data : Mem} (hpage : s.pageAt id = some data)
    (hinner : pageIsInner (pageFlags data) = true) :
    childAt data (pageFindPointer data key).2 ≠ id := by
  induction h generalizing data with
  | leaf hpage' hleaf =>
      obtain rfl := Option.some.inj (hpage.symm.trans hpage')
      rw [pageIsInner_eq, hleaf] at hinner
      cases hinner
  | inner hpage' _ _ ih =>
      obtain rfl := Option.some.inj (hpage.symm.trans hpage')
      intro heq
      exact ih (heq ▸ hpage) hinner rfl

theorem lookupLoop_returns (hroute : Route s key id leaf) (h : PagesHold type nodes s)
    (hout : ∀ k, s.outage k = false) :
    ∃ n, ∀ fuel, n ≤ fuel → ∀ t page, page.id = id → SamePages s t → t.outage = s.outage →
      Holding [page] t → Quiet [page] t →
      wp (lookupLoop key fuel) (fun _ _ => True) (fun _ => False) (fun _ => False) (t, page) := by
  induction hroute with
  | @leaf id data hpage hleaf =>
      refine ⟨1, fun fuel hfuel t page hid hsame _ hheld _ => ?_⟩
      obtain ⟨fuel, rfl⟩ := Nat.exists_eq_add_of_le' hfuel
      have hdata : t.page page = data := by
        have hat := hheld.pageAt (List.mem_singleton_self page)
        rw [hsame.pageAt, hid, hpage] at hat
        exact (Option.some.inj hat).symm
      have hinner : ¬ pageIsInner (pageFlags data) = true := by
        rw [pageIsInner_eq, hleaf]
        decide
      simp only [lookupLoop, wp_bind, wp_readVar, wp_lift, wp_readPage, wp_ite,
        hdata, if_neg hinner, wp_pure]
  | @inner id leaf data hpage hinner hnext ih =>
      obtain ⟨n, hn⟩ := ih
      refine ⟨n + 1, fun fuel hfuel t page hid hsame houtage hheld hquiet => ?_⟩
      obtain ⟨fuel, rfl⟩ := Nat.exists_eq_add_of_le' (Nat.le_of_add_left_le hfuel)
      have hmem : page ∈ [page] := List.mem_singleton_self page
      have hdata : t.page page = data := by
        have hat := hheld.pageAt hmem
        rw [hsame.pageAt, hid, hpage] at hat
        exact (Option.some.inj hat).symm
      have ht := h.same hsame
      have hthere := ht.child_there hheld hmem (hdata ▸ hinner) key
      rw [hdata] at hthere
      have hne := (Route.inner hpage hinner hnext).child_ne hpage hinner
      have hnext0 : childAt data (pageFindPointer data key).2 ≠ 0 := fun hzero =>
        hthere (hzero ▸ Sys.pageAt_zero t)
      simp only [lookupLoop, wp_bind, wp_readVar, wp_lift, wp_readPage, wp_ite,
        hdata, if_pos hinner, wp_assert, if_pos hnext0]
      refine wp_fixPage hheld (fun child u hchild hfix => ?_) (fun q e heap _ _ hcause => ?_)
        fun f hf hlatch => ?_
      · have hlooks := hfix.looksAt (hchild ▸ hthere)
        refine hfix.holding.wp_pagerUnfix (by simp) ?_
        rw [wp_writeVar]
        exact hn fuel (by omega) _ child hchild (hsame.trans hlooks.same)
          (hlooks.outage.trans houtage) hlooks.holding (hlooks.quiet hquiet)
      · rcases hcause with hcause | hzero | hnone
        · rw [houtage, hout] at hcause
          cases hcause
        · exact hnext0 hzero
        · exact hthere ((pageAt_eq_none_iff hnext0).mpr hnone)
      · refine hlatch (hquiet _ f hnext0 hf fun q hq => ?_)
        rw [List.mem_singleton.mp hq, hid]
        exact hne.symm

/-- Where no call is refused and no page is latched, a lookup whose route ends at a leaf returns. -/
theorem btreeLookup_returns (hroute : Route s key s.tree.root leaf) (hok : s.PagerOk)
    (h : PagesHold type nodes s) (hquiet : Quiet [] s) (hout : ∀ k, s.outage k = false) :
    ∃ n, ∀ fuel, n ≤ fuel →
      wp (btreeLookup fuel key) (fun _ _ => True) (fun _ => True) (fun _ => False) s := by
  obtain ⟨n, hn⟩ := lookupLoop_returns hroute h hout
  refine ⟨n, fun fuel hfuel => ?_⟩
  have hzero : s.tree.root ≠ 0 := fun hzero => h.root (hzero ▸ Sys.pageAt_zero s)
  unfold btreeLookup
  rw [wp_bind, wp_get, wp_bind]
  refine wp_fixPage (Holding.nil hok) (fun page t hid hfix => ?_)
    (fun q e heap _ href hcause => trivial)
    fun f hf hlatch => hlatch (hquiet _ f hzero hf (by simp))
  have hthere : s.pageAt page.id ≠ none := hid ▸ h.root
  rw [wp_withVar, wp_bind]
  have hloop : wp (lookupLoop key fuel) _ _ _ (t, page) :=
    lookupLoop_route hfix.holding (h.fixes hfix hthere)
  have hreturns := hn fuel hfuel t page hid (hfix.samePages hthere) hfix.outage hfix.holding
    (hfix.quiet (Or.inl rfl) (evictsFor_eq_none (Or.inl hthere) (Or.inl rfl)) hquiet)
  refine wp_mono (hreturns.and hloop) (fun _ v hv => ?_) (fun _ hv => hv.1.elim)
    fun _ hr => hr.1.elim
  have hheld := hv.2.1.holding
  have hmem : v.2 ∈ [v.2] := List.mem_singleton_self _
  simp only [wp_bind, wp_readVar, wp_lift, wp_readPage]
  rcases pageFindPointer (v.1.page v.2) key with ⟨found, index⟩
  cases found with
  | false =>
      rw [wp_lift]
      refine wp_failure (by decide) fun e _ => ?_
      exact Holding.wp_pagerUnfix (s := { v.1 with err := e }) ⟨hheld.ok, hheld.nodup, hheld.there,
        hheld.latch⟩ hmem trivial
  | true => exact hheld.wp_pagerUnfix hmem trivial

end

end Wednesday
