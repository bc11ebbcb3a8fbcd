import Wednesday.BtreeFailure
import Wednesday.TreeLookup

/-!
Runs on the pages of a tree. Whatever the calls of a run report, every page
goes on to stand for a node: an insert that fails leaves all pages as they
were, or a root cut in two.
-/

namespace Wednesday

open Lib Prog Pager FenceTree

section

variable {type index : Nat} {nodes : PageId → TreeNode} {s t u v w : Sys}
  {page parent p root : PageRef}
  {key value : Blob} {above : Above}

/-! ### Inserts that fail -/

theorem wp_pagerUnfix_same {Q : Unit → Sys → Prop} {E : Sys → Prop}
    (hQ : ∀ t, SamePages s t → Q () t) : wp (pagerUnfix page) Q E (fun _ => True) s := by
  unfold wp
  cases hrun : pagerUnfix page s with
  | success _ t =>
      obtain ⟨header, hdata, rfl⟩ := pagerUnfix_success hrun
      exact hQ _ ⟨pageAt_setHeader hdata, rfl, le_rfl⟩
  | failure t => exact absurd hrun pagerUnfix_ne_failure
  | fault r => trivial

/-- What a root whose split fails leaves behind. -/
inductive RootFails (t : Sys) (page : PageRef) (u : Sys) : Prop where
  /-- No page was given for the upper half. -/
  | whole (hsame : SamePages t u)
  /-- No page was given for the new root. -/
  | halved (next : Mem) (hstore : u.pageAt = t.splitStore page next) (htree : u.tree = t.tree)
      (hnext : t.pager.nextPage < u.pager.nextPage)

theorem Pager.Refused.samePages_next {q : Pager} {heap : Heap} (h : NewPage 1 t)
    (href : Refused t.pager.takeId q t.pager.nextPage) : SamePages t (t.afterCall q heap) := by
  refine ⟨href.pageAt (t := t.afterCall q heap) (Or.inr rfl)
    (evictsFor_eq_none (Or.inr h.frames) (Or.inr rfl)), rfl, ?_⟩
  have hids := h.ids
  have hnext : q.nextPage = (t.pager.nextPage + 1) % 2 ^ 32 := href.nextPage
  rw [Nat.mod_eq_of_lt (by omega)] at hnext
  exact (Nat.le_succ _).trans hnext.ge

/-- A split that gets no page changes none. -/
theorem nextPage_refused_same {held : List PageRef} {site : Site} {text : String}
    (hheld : Holding held t)
    (hnew : NewPage 1 t) (h : tryCall site text treeNext t = .failure u) : SamePages t u := by
  have hwp : wp (tryCall site text treeNext) (fun _ _ => True) (SamePages t) (fun _ => True) t :=
    wp_nextPage hheld (fun _ _ _ _ => trivial)
      (fun _ e _ _ href => (href.samePages_next hnew).err e)
      fun _ _ _ => trivial
  exact hwp.failure h

theorem NewPage.mono {m n : Nat} (h : NewPage n t) (hmn : m ≤ n) : NewPage m t := by
  have hframes := h.frames
  have hids := h.ids
  exact ⟨⟨by omega, by omega⟩, h.fresh⟩

theorem splitRoot_fails (h : Holding [page] t) (hnew : NewPage 2 t)
    (hfail : splitRoot page key t = .failure u) : RootFails t page u := by
  have hwp : wp (splitRoot page key) (fun _ _ => True) (RootFails t page) (fun _ => True) t := by
    refine wp_splitRoot h (fun _ => trivial) (fun q e heap _ href => ?_) (fun _ _ _ => trivial)
      (fun split v hid hfix q e heap _ href => ?_) (fun _ _ _ _ _ _ _ => trivial)
      fun _ _ _ _ _ _ _ _ _ => trivial
    · exact .whole ((href.samePages_next (hnew.mono (by decide))).err e)
    · have hframes := hnew.frames
      have hids := hnew.ids
      obtain ⟨hstore, -⟩ := hfix.pageAt_halved hid
        (evictsFor_eq_none (s := t) (Or.inr (by omega)) (Or.inr rfl)) (List.mem_singleton_self page)
      have hcount : v.pager.pageCount ≤ t.pager.pageCount + 1 := hfix.fixed.pageCount
      have hsize : v.pager.size = t.pager.size := hfix.fixed.shape.size
      have hnext : v.pager.nextPage = (t.pager.nextPage + 1) % 2 ^ 32 := hfix.fixed.nextPage
      rw [Nat.mod_eq_of_lt (by omega)] at hnext
      have hroom : (v.halved page split).pager.pageCount + 1 <
          (v.halved page split).pager.size := by
        change v.pager.pageCount + 1 < v.pager.size
        omega
      have hqnext : q.nextPage = (v.pager.nextPage + 1) % 2 ^ 32 := href.nextPage
      rw [hnext, Nat.mod_eq_of_lt (by omega)] at hqnext
      refine .halved (v.page split) ?_ ?_ ?_
      · have hpages := href.pageAt (s := v.halved page split)
          (t := { (v.halved page split).afterCall q heap with err := e }) (Or.inr rfl)
          (evictsFor_eq_none (Or.inr hroom) (Or.inr rfl))
        exact hpages.trans hstore
      · exact hfix.tree
      · exact ((Nat.lt_succ_self _).trans (Nat.lt_succ_self _)).trans_eq hqnext.symm
  exact hwp.failure hfail

theorem splitChild_fails (h : Holding [page, parent] t) (hnew : NewPage 1 t) :
    wp (splitChild parent page index key) (fun _ _ => True) (SamePages t) (fun _ => True) t :=
  wp_splitChild h (fun _ => trivial) (fun _ _ => trivial)
    (fun _ e _ _ href => (href.samePages_next hnew).err e) (fun _ _ _ => trivial)
    fun _ _ _ _ _ _ _ => trivial

/-- The pages after a failed attempt to make room. -/
theorem makeRoom_fails (h : Holding (page :: above.held) t)
    (hnew : needsSplit (t.page page) key value = true → NewPage above.newPages t)
    (hfail : makeRoom key value page above t = .failure u) :
    SamePages t u ∨ above = none ∧ needsSplit (t.page page) key value = true ∧
      RootFails t page u := by
  cases above with
  | none =>
      simp only [makeRoom, bind_apply, readPage_apply, Outcome.bind_success] at hfail
      split at hfail <;> rename_i hfull
      · exact Or.inr ⟨rfl, hfull, splitRoot_fails h (hnew hfull) hfail⟩
      · cases hfail
  | some above =>
      obtain ⟨parent, index⟩ := above
      have hheld : Holding [page, parent] t := h
      have hwp : wp (makeRoom key value page (some (parent, index))) (fun _ _ => True) (SamePages t)
          (fun _ => True) t := by
        simp only [makeRoom, wp_deferred, wp_bind, wp_readPage, wp_ite]
        split
        · rename_i hfull
          refine wp_mono (splitChild_fails hheld (hnew hfull)) (fun _ _ _ => ?_) (fun v hv => ?_)
            fun _ hr => hr
          · exact wp_pagerUnfix_same fun _ _ => trivial
          · exact wp_pagerUnfix_same fun _ hsame => hv.trans hsame
        · exact wp_pagerUnfix_same fun _ _ => trivial
      exact Or.inl (hwp.failure hfail)

theorem stepDown_fails (hheld : Holding [page] t) (h : PagesHold type nodes t)
    (hinner : pageIsInner (pageFlags (t.page page)) = true)
    (hfail : stepDown page key t = .failure u) : SamePages t u := by
  have hthere := h.child_there hheld (List.mem_singleton_self page) hinner key
  have hwp : wp (stepDown page key) (fun _ _ => True) (SamePages t) (fun _ => True) t :=
    wp_stepDown hheld (fun _ e _ => (SamePages.refl t).err e) (fun _ => trivial)
      (fun _ e _ _ href _ => (href.samePages hthere).err e) (fun _ _ _ => trivial)
      fun _ _ _ _ _ => trivial
  exact hwp.failure hfail

theorem insertLeaf_fails (hfail : insertLeaf page key value t = .failure u) : SamePages t u := by
  have hwp : wp (insertLeaf page key value) (fun _ _ => True) (SamePages t) (fun _ => True) t := by
    simp only [insertLeaf, wp_bind, wp_get, wp_readPage, wp_ofExcept]
    cases pageInsertLeaf t.stack t.tree.pageSize (t.page page) key value with
    | error r => trivial
    | ok result =>
        cases result with
        | none => exact wp_failure (by decide) fun e _ => (SamePages.refl t).err e
        | some data => trivial
  exact hwp.failure hfail

theorem pagerUnfix_same (h : pagerUnfix page s = .success () t) : SamePages s t := by
  have hwp : wp (pagerUnfix page) (fun _ => SamePages s) (fun _ => True) (fun _ => True) s :=
    wp_pagerUnfix_same fun _ hsame => hsame
  exact hwp.success h

theorem deferGuard_same (h : deferGuard (pagerUnfix page) s = .success () t) : SamePages s t := by
  obtain ⟨hpages, htree, hnext⟩ := deferGuard_success h
  exact ⟨hpages, htree, hnext.ge⟩

/-- A page cut in two stands for two nodes. -/
theorem PagesHold.halved {held : List PageRef} {n : Nat} {next : Mem} (h : PagesHold type nodes t)
    (hheld : Holding held t) (hpage : page ∈ held) (hspare : t.Spare n)
    (hstore : u.pageAt = t.splitStore page next) (htree : u.tree = t.tree)
    (hnext : t.pager.nextPage < u.pager.nextPage) :
    PagesHold type (splitNodes nodes page.id t.pager.nextPage) u := by
  have hhalves := h.splitStore hheld hpage hspare next
  refine ⟨?_, ?_, ?_, ?_, ?_⟩ <;> rw [hstore]
  · rw [htree]
    exact hhalves.node
  · exact hhalves.links
  · obtain ⟨rank, -, -, hrank⟩ := hhalves.acyclic
    exact ⟨rank, hrank⟩
  · rw [htree]
    exact (hhalves.there _).mpr (Or.inr h.root)
  · intro id hid
    rcases (hhalves.there id).mp hid with rfl | hid
    · exact hnext
    · exact (h.fresh id hid).trans hnext

theorem RootFails.pagesHold (h : RootFails t page u) (hnodes : PagesHold type nodes t)
    (hheld : Holding [page] t) (hspare : t.Spare 2) : ∃ nodes', PagesHold type nodes' u := by
  cases h with
  | whole hsame => exact ⟨nodes, hnodes.same hsame⟩
  | halved next hstore htree hnext =>
      exact ⟨_, hnodes.halved hheld (List.mem_singleton_self page) hspare hstore htree hnext⟩

theorem FailsAt.pagesHold (hok : s.PagerOk) (h : PagesHold type nodes s)
    (hpages : HasPages key value s)
    (hspace : Uncompacted key value s) (hfails : FailsAt key value s u) :
    ∃ nodes', PagesHold type nodes' u := by
  induction hfails with
  | @makeRoom above page t u hvisit hfail =>
      obtain ⟨nodes', ht⟩ := hvisit.pagesHold hok h hpages hspace
      have hheld := (hvisit.standing hok).holding
      have hspare := hpages _ _ _ hvisit
      rcases makeRoom_fails hheld (fun hfull => ht.newPage (hspare hfull)) hfail with
        hsame | ⟨rfl, hfull, hroot⟩
      · exact ⟨nodes', ht.same hsame⟩
      · exact hroot.pagesHold ht hheld (hspare hfull)
  | stepDown hreach hinner hfail hexit =>
      obtain ⟨nodes', ht⟩ := hreach.pagesHold hok h hpages hspace
      have hsame := stepDown_fails (hreach.settled hok).holding ht hinner hfail
      exact ⟨nodes', ht.same (hsame.trans (pagerUnfix_same hexit))⟩
  | insertLeaf hreach hleaf hfail hexit =>
      obtain ⟨nodes', ht⟩ := hreach.pagesHold hok h hpages hspace
      exact ⟨nodes', ht.same (((insertLeaf_fails hfail).err _).trans (pagerUnfix_same hexit))⟩
  | trace _ e ih =>
      obtain ⟨nodes', ht⟩ := ih
      exact ⟨nodes', ht.same ((SamePages.refl _).err e)⟩

theorem fixRoot_fails (hok : s.PagerOk) (h : PagesHold type nodes s)
    (hfail : fixRoot s = .failure u) :
    SamePages s u := by
  have hwp : wp fixRoot (fun _ _ => True) (SamePages s) (fun _ => True) s :=
    wp_fixRoot hok (fun _ e _ _ href _ => (href.samePages h.root).err e) (fun _ _ _ => trivial)
      fun _ _ _ _ => trivial
  exact hwp.failure hfail

/-! ### Runs -/

/-- The row is encoded as the tree stores it, and its insert neither asks the
pager for a page it has no room for nor compacts a page. -/
structure Insertable (type : Nat) (key value : Blob) (s : Sys) : Prop where
  keyEncoded : KeyEncoded type key.bytes
  valueEncoded : ValueEncoded type value.bytes
  pages : HasPages key value s
  space : Uncompacted key value s

/-- What is asked of a step: that its row can be inserted. -/
def Allowed (type : Nat) (s : Sys) : TreeEvent → Prop
  | .insert key value => Insertable type key value s
  | .insertFails key value => Insertable type key value s
  | _ => True

/-- A step of a run whose inserts are allowed. -/
def AllowedStep (type : Nat) (s : Sys) (e : TreeEvent) (t : Sys) : Prop :=
  Allowed type s e ∧ TreeStep s e t

theorem AllowedStep.pagesHold {e : TreeEvent} (hok : s.PagerOk)
    (h : ∃ nodes, PagesHold type nodes s)
    (hstep : AllowedStep type s e t) : ∃ nodes', PagesHold type nodes' t := by
  obtain ⟨nodes, h⟩ := h
  obtain ⟨hallowed, hstep⟩ := hstep
  cases hstep with
  | insert hrun =>
      exact h.insert hok hallowed.pages hallowed.space hallowed.keyEncoded hallowed.valueEncoded
        hrun
  | insertFails hrun =>
      rcases btreeInsert_failure hrun with hfix | ⟨root, u, hfails, hexit⟩
      · exact ⟨nodes, h.same (fixRoot_fails hok h hfix)⟩
      · obtain ⟨nodes', hu⟩ := hfails.pagesHold hok h hallowed.pages hallowed.space
        exact ⟨nodes', hu.same (deferGuard_same hexit)⟩
  | lookup hrun =>
      exact ⟨nodes, h.same ((btreeLookup_route hok h).success hrun).1.same⟩
  | lookupFails hrun =>
      exact ⟨nodes, h.same ((btreeLookup_route hok h).failure hrun).1.same⟩
  | errorClear => exact ⟨nodes, h.congr rfl rfl le_rfl⟩
  | scratch stack => exact ⟨nodes, h.congr rfl rfl le_rfl⟩

/-- A created tree has one page, an empty leaf. -/
structure OneLeaf (type : Nat) (s : Sys) : Prop where
  store : ∃ page, s.pageAt =
    Function.update (fun _ => none) s.tree.root (some (pageInitLeaf s.tree.pageSize page type))
  root : s.tree.root = 1
  nextPage : s.pager.nextPage = 2
  small : s.tree.pageSize < 65536
  quiet : Quiet [] s

theorem TreeCreated.oneLeaf (h : TreeCreated type s) : OneLeaf type s := by
  obtain ⟨s₀, root, u, hopen, hsmall, hid, hfix, hpager, htree⟩ := h.root_page
  obtain ⟨hnone, hnext, -, -⟩ := hopen.fresh
  have hmem : root ∈ [root] := List.mem_singleton_self root
  have hwritten : Holding [root]
      (u.written root (pageInitLeaf u.pager.pageSize (u.page root) type)) := hfix.holding.written _
  have hothers : ∀ j, j ≠ 0 → j ≠ root.id → u.pager.locate j = none := by
    intro j hj hne
    rcases hfix.fixed.others j hj hne with hsame | ⟨-, -, f, hf, -⟩
    · exact hsame.1.trans (hnone j hj)
    · cases (hnone j hj).symm.trans hf
  have hu : u.pageAt = Function.update (fun _ => none) root.id (some (u.page root)) := by
    funext j
    by_cases hj : j = root.id
    · rw [hj, Function.update_self]
      exact hfix.holding.pageAt hmem
    · rw [Function.update_of_ne hj]
      by_cases hzero : j = 0
      · rw [hzero, Sys.pageAt_zero]
      · exact (pageAt_eq_none_iff hzero).mpr (hothers j hzero hj)
  have hpages : s.pageAt = ((u.written root
      (pageInitLeaf u.pager.pageSize (u.page root) type)).unfixed root).pageAt := by
    unfold Sys.pageAt
    rw [hpager]
  have hroot : s.tree.root = root.id := congrArg BTree.root htree
  have hsize : s.tree.pageSize = u.pager.pageSize := congrArg BTree.pageSize htree
  refine ⟨⟨u.page root, ?_⟩, hroot.trans hid, ?_, ?_, fun j f hj hf _ => ?_⟩
  · rw [hpages, pageAt_unfixed, hfix.holding.pageAt_written hmem, hu,
      Function.update_idem, hroot, hsize]
  · rw [hpager]
    change u.pager.nextPage = 2
    rw [hfix.fixed.nextPage]
    change (s₀.pager.nextPage + 1) % 2 ^ 32 = 2
    rw [hnext]
    decide
  · rw [hsize, hfix.fixed.shape.pageSize]
    exact hsmall
  · rw [hpager] at hf ⊢
    change u.pager.locate j = some f at hf
    by_cases hne : j = root.id
    · rw [hne, hfix.fixed.located] at hf
      obtain rfl := Option.some.inj hf
      rw [Sys.unfixed, header_setHeader_self, released, if_pos (hwritten.latch root hmem)]
    · rw [hothers j hj hne] at hf
      cases hf

theorem OneLeaf.pagesHold (h : OneLeaf type s) (ht : IsTreeType type)
    (hsize : sizeofHeader ≤ s.tree.pageSize) : PagesHold type (fun _ => .leaf [] 0) s := by
  obtain ⟨page, hstore⟩ := h.store
  have hthere : ∀ id, s.pageAt id ≠ none → id = s.tree.root := by
    intro id hid
    by_contra hne
    rw [hstore, Function.update_of_ne hne] at hid
    exact hid rfl
  refine ⟨fun id data hdata => ?_, fun id _ c hc => absurd hc (List.not_mem_nil),
    ⟨fun _ => 0, fun id _ c hc => absurd hc (List.not_mem_nil)⟩, ?_, fun id hid => ?_⟩
  · obtain rfl := hthere id (by simp [hdata])
    rw [hstore, Function.update_self] at hdata
    rw [← Option.some.inj hdata]
    exact pageHolds_pageInitLeaf page ht h.small hsize
  · rw [hstore, Function.update_self]
    exact Option.some_ne_none _
  · rw [hthere id hid, h.root, h.nextPage]
    decide

/-- In every state of a run whose inserts are allowed, each page stands for a node. -/
theorem allowedRun_pagesHold {s₀ : Sys} {es : List TreeEvent} (h : TreeCreated type s₀)
    (ht : IsTreeType type) (hsize : sizeofHeader ≤ s₀.tree.pageSize)
    (hrun : Run (AllowedStep type) s₀ es s) : s.PagerOk ∧ ∃ nodes, PagesHold type nodes s := by
  refine Run.invariant (I := fun s => s.PagerOk ∧ ∃ nodes, PagesHold type nodes s)
    (fun _ _ _ hs hstep => ⟨hstep.2.pagerOk hs.1, hstep.pagesHold hs.1 hs.2⟩)
    ⟨h.pagerOk, _, h.oneLeaf.pagesHold ht hsize⟩ hrun

/-! ### Computed runs -/

/-- The decisions of an insert into a tree whose rows stand on its root. -/
def checksLeaf (key value : Blob) (s : Sys) : Bool :=
  match (fixRoot s).value? with
  | none => false
  | some (page, t) =>
      match (makeRoom key value page none t).value? with
      | none => false
      | some (p, u) =>
          pageIsLeaf (pageFlags (u.page p)) &&
          (!needsSplit (t.page page) key value ||
            decide (t.pager.pageCount + 2 < t.pager.size ∧ 2 + t.pager.nextPage < 2 ^ 32)) &&
          (decide (freeSpace (u.page p) < key.size + value.size + 2) ||
            decide (key.size + value.size + 2 ≤ pageGetSpace (u.page p)))

/-- The insert goes no further than the root or one of its halves. -/
structure LeafVisited (key value : Blob) (s : Sys) (page p : PageRef) (t u : Sys) : Prop where
  fix : fixRoot s = .success page t
  room : makeRoom key value page none t = .success p u
  leaf : pageIsLeaf (pageFlags (u.page p)) = true

/-- What the decisions say of the pages the insert comes to. -/
structure LeafChecked (key value : Blob) (s : Sys) (page p : PageRef) (t u : Sys) : Prop
    extends LeafVisited key value s page p t u where
  spare : needsSplit (t.page page) key value = true → t.Spare 2
  space : NotCompacted (u.page p) (key.size + value.size)

theorem leafChecked_of_checksLeaf (h : checksLeaf key value s = true) :
    ∃ page p t u, LeafChecked key value s page p t u := by
  unfold checksLeaf at h
  split at h
  · cases h
  rename_i page t hfix
  split at h
  · cases h
  rename_i p u hroom
  rw [Outcome.value?_eq_some] at hfix hroom
  simp only [Bool.and_eq_true, Bool.or_eq_true, Bool.not_eq_true', decide_eq_true_eq] at h
  obtain ⟨⟨hleaf, hspare⟩, hspace⟩ := h
  refine ⟨page, p, t, u, ⟨hfix, hroom, hleaf⟩, fun hfull => ?_, fun hfree => ?_⟩
  · obtain ⟨hframes, hids⟩ := hspare.resolve_left (by simp [hfull])
    exact ⟨hframes, hids⟩
  · exact hspace.resolve_left (by omega)

/-- Such an insert visits the root only. -/
theorem LeafVisited.visits (h : LeafVisited key value s page p t u) {q : PageRef} {v : Sys}
    (hvisit : Visit key value s above q v) : above = none ∧ q = page ∧ v = t := by
  induction hvisit with
  | root hfix =>
      obtain ⟨rfl, rfl⟩ := Outcome.success.inj (h.fix.symm.trans hfix)
      exact ⟨rfl, rfl, rfl⟩
  | child _ hroom hinner _ _ ih =>
      obtain ⟨rfl, rfl, rfl⟩ := ih
      obtain ⟨rfl, rfl⟩ := Outcome.success.inj (h.room.symm.trans hroom)
      rw [pageIsInner_eq, h.leaf] at hinner
      cases hinner

/-- Such an insert does not walk. -/
theorem LeafVisited.walks_not (h : LeafVisited key value s page p t u) (fuel fuel' : Nat) :
    btreeInsert fuel key value s = btreeInsert fuel' key value s := by
  have hbelow : insertBelow fuel key value (u, p) = insertBelow fuel' key value (u, p) := by
    simp only [insertBelow, bind_apply, readVar_apply, lift_apply, readPage_apply,
      Outcome.mapState_success, Outcome.bind_success]
    rw [if_pos h.leaf, if_pos h.leaf]
  rw [btreeInsert_eq, btreeInsert_eq, bind_apply, bind_apply, h.fix, Outcome.bind_success,
    Outcome.bind_success, withVar, withVar, insertBody_of_makeRoom h.room,
      insertBody_of_makeRoom h.room, hbelow]

theorem LeafChecked.hasPages (h : LeafChecked key value s page p t u) : HasPages key value s := by
  intro above q v hvisit hfull
  obtain ⟨rfl, rfl, rfl⟩ := h.visits hvisit
  exact h.spare hfull

theorem LeafChecked.uncompacted (h : LeafChecked key value s page p t u) :
    Uncompacted key value s := by
  refine ⟨fun parent index q v hvisit => ?_, fun q v hreach _ => ?_⟩
  · cases (h.visits hvisit).1
  · obtain ⟨above, r, w, hvisit, hroom⟩ := hreach
    obtain ⟨rfl, rfl, rfl⟩ := h.visits hvisit
    obtain ⟨rfl, rfl⟩ := Outcome.success.inj (h.room.symm.trans hroom)
    exact h.space

theorem LeafChecked.insertable (h : LeafChecked key value s page p t u)
    (hkey : KeyEncoded type key.bytes) (hvalue : ValueEncoded type value.bytes) :
    Insertable type key value s :=
  ⟨hkey, hvalue, h.hasPages, h.uncompacted⟩

theorem insertable_of_checksLeaf (hkey : KeyEncoded type key.bytes)
    (hvalue : ValueEncoded type value.bytes)
    (h : checksLeaf key value s = true) : Insertable type key value s := by
  obtain ⟨page, p, t, u, hcheck⟩ := leafChecked_of_checksLeaf h
  exact hcheck.insertable hkey hvalue

/-- Insert rows one after the other, each checked to go no further than the root. -/
def insertChecked (fuel : Nat) (s : Sys) (rows : List (Blob × Blob)) : Option Sys :=
  insertWhere checksLeaf fuel s rows

theorem run_of_insertChecked {fuel : Nat} {rows : List (Blob × Blob)}
    (henc : ∀ row ∈ rows, KeyEncoded type row.1.bytes ∧ ValueEncoded type row.2.bytes)
    (h : insertChecked fuel s rows = some t) :
    Run (AllowedStep type) s (rows.map fun row => .insert row.1 row.2) t := by
  refine (run_of_insertWhere h).mono fun s e t ⟨⟨row, hrow, he, hcheck⟩, hstep⟩ => ?_
  subst he
  exact ⟨insertable_of_checksLeaf (henc row hrow).1 (henc row hrow).2 hcheck, hstep⟩

end

end Wednesday
