import Wednesday.TreeAlike

/-!
Recycled frames. Two processes that differ in what their frames held before the
pager gave them to a tree are run side by side: as long as no page is compacted
to take a cell, the calls make the same reports and lookups find the same values.
-/

namespace Wednesday

open Lib Prog Pager FenceTree

/-! ### Two processes -/

/-- Two processes that otherwise differ in their memory only, with these pages
outside `X`. -/
structure Apart (X : PageId → Bool) (pageSize : Nat) (S T : PageId → Option Mem) (tree : BTree)
    (s t : Sys) : Prop where
  bare : s.bare = t.bare
  size : s.pager.pageSize = pageSize
  left : s.ownAt X = S
  right : t.ownAt X = T
  tree : s.tree = tree
  nextPage : s.pager.nextPage < 2 ^ 32

/-- Two processes whose pages stand for the same nodes. The pages in `X` are
those that belong to no tree. -/
structure Alike (X : PageId → Bool) (pageSize : Nat) (s t : Sys) : Prop where
  bare : s.bare = t.bare
  size : s.pager.pageSize = pageSize
  pages : AlikePages pageSize (s.ownAt X) (t.ownAt X)
  nextPage : s.pager.nextPage < 2 ^ 32

/-- Pages keep their type, and so does the root. -/
structure Stays (X : PageId → Bool) (pageSize : Nat) (s u : Sys) : Prop where
  types : ∀ type id, HasType pageSize (s.ownAt X) type id → HasType pageSize (u.ownAt X) type id
  size : u.tree.pageSize = s.tree.pageSize
  root : ∀ type, HasType pageSize (s.ownAt X) type s.tree.root →
    HasType pageSize (u.ownAt X) type u.tree.root

/-- The second process follows the first, which has gone on from `s`. -/
structure Follows (X : PageId → Bool) (pageSize : Nat) (s u v : Sys) : Prop where
  alike : Alike X pageSize u v
  stays : Stays X pageSize s u

/-- `pager_next` hands out an id that is not in use, and evicts no page of a
tree for it. -/
structure NextNew (X : PageId → Bool) (s : Sys) : Prop where
  keeps : ∀ v, s.pager.takeId.evictsFor s.pager.nextPage = some v → X v = true
  own : X s.pager.nextPage = false
  fresh : s.pageAt s.pager.nextPage = none

section

variable {α β γ δ : Type} {X : PageId → Bool} {pageSize type : Nat} {s t u v w : Sys}
  {page parent split : PageRef}
  {id : PageId} {held : List PageRef} {S T : PageId → Option Mem} {tree : BTree}
    {key value : Blob} {index : Nat}

theorem Stays.refl (pageSize : Nat) (s : Sys) : Stays X pageSize s s :=
  ⟨fun _ _ h => h, rfl, fun _ h => h⟩

theorem Stays.trans (h : Stays X pageSize s t) (h' : Stays X pageSize t u) : Stays X pageSize s u :=
  ⟨fun type id hid => h'.types type id (h.types type id hid), h'.size.trans h.size,
    fun type hroot => h'.root type (h.root type hroot)⟩

theorem stays_of_same (hpages : u.ownAt X = s.ownAt X) (htree : u.tree = s.tree) :
    Stays X pageSize s u := by
  refine ⟨fun type id h => ?_, by rw [htree], fun type h => ?_⟩
  · rwa [hpages]
  · rwa [hpages, htree]

theorem Alike.apart (h : Alike X pageSize s t) :
    Apart X pageSize (s.ownAt X) (t.ownAt X) s.tree s t :=
  ⟨h.bare, h.size, rfl, rfl, rfl, h.nextPage⟩

theorem Apart.alike (h : Apart X pageSize S T tree s t) (hpages : AlikePages pageSize S T) :
    Alike X pageSize s t :=
  ⟨h.bare, h.size, h.left ▸ h.right ▸ hpages, h.nextPage⟩

theorem tree_eq (h : s.bare = t.bare) : t.tree = s.tree :=
  (congrArg Sys.tree h).symm

theorem err_right (h : s.bare = t.bare) : t.err = s.err :=
  (congrArg Sys.err h).symm

theorem holding_right (h : s.bare = t.bare) (hheld : Holding held s) : Holding held t :=
  Holding.bare_iff.mp (h ▸ Holding.bare_iff.mpr hheld)

theorem nextPage_right (h : s.bare = t.bare) : t.pager.nextPage = s.pager.nextPage :=
  (congrArg (fun s : Sys => s.pager.nextPage) h).symm

/-- Both evict the same page. -/
theorem evictsFor_right (h : s.bare = t.bare) :
    t.pager.takeId.evictsFor t.pager.nextPage = s.pager.takeId.evictsFor s.pager.nextPage := by
  have hs : s.bare.pager.takeId.evictsFor s.bare.pager.nextPage =
      s.pager.takeId.evictsFor s.pager.nextPage := evictsFor_bare s.pager.takeId _
  rw [h] at hs
  exact (evictsFor_bare t.pager.takeId _).symm.trans hs

theorem HasType.own (h : HasType pageSize (s.ownAt X) type id) : X id = false :=
  (ownAt_ne_none h.there).1

/-- A held page stands for the same node on both sides. -/
theorem Alike.node (h : Alike X pageSize s t) (hheld : Holding held s) (hpage : page ∈ held)
    (htype : HasType pageSize (s.ownAt X) type page.id) :
    ∃ node, SameNode type pageSize node (s.page page) (t.page page) ∧
      ∀ c ∈ node.links, HasType pageSize (s.ownAt X) type c :=
  h.pages.at (hheld.ownAt hpage htype.own)
    ((holding_right h.bare hheld).ownAt hpage htype.own) htype

@[simp] theorem Sys.bare_written (s : Sys) (page : PageRef) (data : Mem) :
  (s.written page data).bare = s.bare :=
  congrArg (fun p => { s.bare with pager := p }) (bare_writeData s.pager page.frame data)

/-! ### Reading and writing pages -/

theorem agree_readPage {Q : α → β → Sys → Sys → Prop} {E : Sys → Sys → Prop} {f : Mem → Call α}
    {g : Mem → Call β} (h : Agree (f (s.page page)) (g (t.page split)) Q E s t) :
    Agree (readPage page >>= f) (readPage split >>= g) Q E s t := h

theorem agree_writePage {Q : α → β → Sys → Sys → Prop} {E : Sys → Sys → Prop} {f : Unit → Call α}
    {g : Unit → Call β} {d d' : Mem}
      (h : Agree (f ()) (g ()) Q E (s.written page d) (t.written split d')) :
    Agree (writePage page d >>= f) (writePage split d' >>= g) Q E s t := h

theorem wp_pagerUnfix_pages (page : PageRef) (s : Sys) : wp (pagerUnfix page)
    (fun _ u => u.pageAt = s.pageAt ∧ u.tree = s.tree ∧ u.pager.nextPage = s.pager.nextPage ∧
      u.pager.pageSize = s.pager.pageSize) (fun _ => False) (fun _ => True) s := by
  unfold wp
  cases hrun : pagerUnfix page s with
  | success _ u =>
      obtain ⟨header, hdata, rfl⟩ := pagerUnfix_success hrun
      exact ⟨pageAt_setHeader hdata, rfl, rfl, rfl⟩
  | failure u => exact absurd hrun pagerUnfix_ne_failure
  | fault r => trivial

/-- A page is unfixed on both sides. -/
theorem Apart.unfix (h : Apart X pageSize S T tree s t) (page : PageRef) {E : Sys → Sys → Prop} :
    Agree (pagerUnfix page) (pagerUnfix page) (fun _ _ => Apart X pageSize S T tree) E s t := by
  refine (((ignores_pagerUnfix page).agree h.bare).and_wp (wp_pagerUnfix_pages page s)
    (wp_pagerUnfix_pages page t)).mono (fun _ _ u v hend => ?_) fun _ _ hend => hend.2.1.elim
  obtain ⟨⟨-, hbare⟩, ⟨hleft, htree, hnext, hsize⟩, ⟨hright, -, -⟩⟩ := hend
  exact ⟨hbare, hsize.trans h.size, (ownAt_congr hleft).trans h.left,
    (ownAt_congr hright).trans h.right, htree.trans h.tree, hnext ▸ h.nextPage⟩

theorem agree_setRoot (h : Apart X pageSize S T tree s t) (root : PageId) {E : Sys → Sys → Prop} :
    Agree (setRoot root) (setRoot root)
      (fun _ _ => Apart X pageSize S T { tree with root }) E s t := by
  refine agree_modify ⟨?_, h.size, h.left, h.right, by rw [h.tree], h.nextPage⟩
  exact congrArg (fun x : Sys => { x with tree := { x.tree with root } }) h.bare

/-! ### Fixing pages -/

/-- A page that is there is fixed on both sides. -/
theorem agree_fixPage {site : Site} {text : String} (h : Alike X pageSize s t)
    (hheld : Holding held s)
    (hthere : s.ownAt X id ≠ none) :
    Agree (tryCall site text (treeFix id)) (tryCall site text (treeFix id))
      (fun p q u v => p = q ∧ p.id = id ∧ Fixes held s.pager s p u ∧ Follows X pageSize s u v)
      (Follows X pageSize s) s t := by
  have hone {x : Sys} (hx : Holding held x) (hid : x.pageAt id ≠ none) :
      wp (tryCall site text (treeFix id))
        (fun p u => p.id = id ∧ Fixes held x.pager x p u ∧ u.pageAt = x.pageAt)
        (fun u => u.pageAt = x.pageAt ∧ u.tree = x.tree ∧ u.pager.nextPage = x.pager.nextPage ∧
          u.pager.pageSize = x.pager.pageSize) (fun _ => True) x := by
    refine wp_fixPage hx (fun p u hp hfix => ⟨hp, hfix, ?_⟩)
      (fun q e heap _ href _ => ⟨?_, rfl, href.nextPage, href.shape.pageSize⟩) fun _ _ _ => trivial
    · exact hfix.pageAt_of_there (Or.inl rfl) (hp ▸ hid)
    · have hsame : SamePages x (x.afterCall q heap) := href.samePages hid
      exact hsame.pageAt
  have hthere' : t.ownAt X id ≠ none := fun hnone => hthere ((h.pages.there id).mpr hnone)
  have hthereS := (ownAt_ne_none hthere).2
  have hthereT := (ownAt_ne_none hthere').2
  refine (((ignores_tryCall (ignores_treeFix id)).agree h.bare).and_wp (hone hheld hthereS)
    (hone (holding_right h.bare hheld) hthereT)).mono (fun p q u v hend => ?_) fun u v hend => ?_
  · obtain ⟨⟨rfl, hbare⟩, ⟨hid, hfix, hleft⟩, ⟨-, -, hright⟩⟩ := hend
    refine ⟨rfl, hid, hfix, ⟨⟨hbare, hfix.fixed.shape.pageSize.trans h.size, ?_, ?_⟩,
      stays_of_same (ownAt_congr hleft) hfix.tree⟩⟩
    · rw [ownAt_congr hleft, ownAt_congr hright]
      exact h.pages
    · exact hfix.fixed.nextPage ▸ h.nextPage
  · obtain ⟨hbare, ⟨hleft, htree, hnext, hsize⟩, ⟨hright, -, -⟩⟩ := hend
    refine ⟨⟨hbare, hsize.trans h.size, ?_, hnext ▸ h.nextPage⟩,
      stays_of_same (ownAt_congr hleft) htree⟩
    rw [ownAt_congr hleft, ownAt_congr hright]
    exact h.pages

/-- A new page is fixed on both sides, in the same frame. -/
theorem agree_nextPage {site : Site} {text : String} (h : Apart X pageSize S T tree s t)
    (hheld : Holding held s)
    (hkeep : ∀ v, s.pager.takeId.evictsFor s.pager.nextPage = some v → X v = true) :
    Agree (tryCall site text treeNext) (tryCall site text treeNext)
      (fun p q u v => p = q ∧ p.id = s.pager.nextPage ∧ u.bare = v.bare ∧
        Fixes held s.pager.takeId s p u ∧ Fixes held t.pager.takeId t p v)
      (Apart X pageSize S T tree) s t := by
  have hone {x : Sys} (hx : Holding held x)
      (hkeep : ∀ v, x.pager.takeId.evictsFor x.pager.nextPage = some v → X v = true) :
      wp (tryCall site text treeNext)
        (fun p u => p.id = x.pager.nextPage ∧ Fixes held x.pager.takeId x p u)
        (fun u => u.ownAt X = x.ownAt X ∧ u.tree = x.tree ∧ u.pager.nextPage < 2 ^ 32 ∧
          u.pager.pageSize = x.pager.pageSize) (fun _ => True) x := by
    refine wp_nextPage hx (fun p u hp hfix => ⟨hp, hfix⟩)
      (fun q e heap _ href => ⟨?_, rfl, ?_, href.shape.pageSize⟩) fun _ _ _ => trivial
    · exact href.ownAt (t := { x.afterCall q heap with err := e }) (Or.inr rfl) hkeep
    · change q.nextPage < 2 ^ 32
      rw [href.nextPage]
      exact Nat.mod_lt _ (by decide)
  refine (((ignores_tryCall ignores_treeNext).agree h.bare).and_wp (hone hheld hkeep)
    (hone (holding_right h.bare hheld) (evictsFor_right h.bare ▸ hkeep))).mono
      (fun p q u v hend => ?_)
    fun u v hend => ?_
  · obtain ⟨⟨rfl, hbare⟩, ⟨hid, hfix⟩, ⟨-, hfix'⟩⟩ := hend
    exact ⟨rfl, hid, hbare, hfix, hfix'⟩
  · obtain ⟨hbare, ⟨hleft, htree, hnext, hsize⟩, ⟨hright, -, -⟩⟩ := hend
    exact ⟨hbare, hsize.trans h.size, hleft.trans h.left, hright.trans h.right,
      htree.trans h.tree, hnext⟩

/-! ### Splitting -/

/-- The page `page` was cut in two on both sides, with its upper half on the new
page `split`. -/
structure Cut (X : PageId → Bool) (pageSize type : Nat) (node : TreeNode) (held : List PageRef)
    (page split : PageRef) (s t : Sys) (k k' : Blob) (x y : Sys) : Prop where
  id : split.id = s.pager.nextPage
  run : ∃ u, treeNext s = .success split u ∧ splitPage page split u = .success k x
  bare : x.bare = y.bare
  size : x.pager.pageSize = pageSize
  tree : x.tree = s.tree
  nextPage : x.pager.nextPage < 2 ^ 32
  divided : cellCount (s.page page) / 2 ≠ 0
  holding : Holding (split :: held) x
  key : k.bytes = cutKey node
  key' : k'.bytes = cutKey node
  encoded : KeyEncoded type (cutKey node)
  fits : sizeofHeader + 2 + (sizeofPageId + (cutKey node).length) ≤ pageSize
  compare : ∀ key, keyCompare key k.data = keyCompare key k'.data
  pages : AlikePages pageSize (x.ownAt X) (y.ownAt X)
  upper : HasType pageSize (x.ownAt X) type split.id
  types : ∀ type' j, HasType pageSize (s.ownAt X) type' j → HasType pageSize (x.ownAt X) type' j
  lower : SameNode type pageSize (node.takeTo (cutAt node) split.id) (x.page page) (y.page page)
  others : ∀ q ∈ held, q ≠ page → x.page q = s.page q ∧ y.page q = t.page q

theorem bare_halved (h : u.bare = v.bare) :
    (u.halved page split).bare = (v.halved page split).bare := by
  simp only [Sys.halved, Sys.bare_written, h]

theorem agree_cut {site : Site} {text : String} {node : TreeNode} {f : PageRef → Blob → Call α}
    {Q : α → α → Sys → Sys → Prop} {E : Sys → Sys → Prop} (h : Alike X pageSize s t)
    (hsize : s.tree.pageSize = pageSize) (hheld : Holding held s) (hpage : page ∈ held)
    (hnode : SameNode type pageSize node (s.page page) (t.page page))
    (htype : HasType pageSize (s.ownAt X) type page.id) (hnext : NextNew X s)
    (hrest : ∀ split k k' x y, Cut X pageSize type node held page split s t k k' x y →
      Agree (f split k) (f split k') Q E x y)
    (hE : ∀ u v, Follows X pageSize s u v → E u v) :
    Agree (do
      let split ← tryCall site text treeNext
      let k ← splitPage page split
      f split k) (do
      let split ← tryCall site text treeNext
      let k ← splitPage page split
      f split k) Q E s t := by
  have hheld' := holding_right h.bare hheld
  have hid := h.nextPage
  refine agree_bind ((agree_nextPage h.apart hheld hnext.keeps).mono (fun _ _ _ _ hend => hend)
      fun u v hend =>
    hE u v ⟨hend.alike h.pages, stays_of_same hend.left hend.tree⟩) ?_
  rintro split _ u v hrun ⟨rfl, hsplit, hbare, hfix, hfix'⟩
  have hin : page ∈ split :: held := List.mem_cons_of_mem _ hpage
  have hne : page ≠ split := by
    rintro rfl
    exact (List.nodup_cons.mp hfix.holding.nodup).1 (List.mem_map_of_mem hpage)
  have hu : u.page page = s.page page := hfix.page page hpage
  have hv : v.page page = t.page page := hfix'.page page hpage
  -- A page of fewer than two cells aborts on both sides.
  by_cases hcut : cellCount (u.page page) / 2 = 0
  · apply agree_of_fault (r := Fault.splitIndex)
    rw [bind_apply, splitPage_apply, if_neg (not_not.mpr hcut), Outcome.bind_fault]
  have hcut' : cellCount (v.page page) / 2 ≠ 0 := by
    rw [hv, ← hnode.count, ← hu]
    exact hcut
  have hcutS : cellCount (s.page page) / 2 ≠ 0 := hu ▸ hcut
  have hsplitU : splitPage page split u = .success (u.splitKey page split.id)
      (u.halved page split) := by
    rw [splitPage_apply, if_pos hcut]
  have hsplitV : splitPage page split v = .success (v.splitKey page split.id)
      (v.halved page split) := by
    rw [splitPage_apply, if_pos hcut']
  -- The split of a page writes the same nodes on both sides.
  have htree : t.tree = s.tree := tree_eq h.bare
  have hsplit' : split.id = t.pager.nextPage := hsplit.trans (nextPage_right h.bare).symm
  have hown : X split.id = false := hsplit ▸ hnext.own
  obtain ⟨hstore, hleft⟩ := hfix.ownAt_halved hsplit (hsplit ▸ hnext.keeps) hown hpage htype.own
  obtain ⟨hstore', hleft'⟩ := hfix'.ownAt_halved hsplit'
      (hsplit' ▸ evictsFor_right h.bare ▸ hnext.keeps) hown
    hpage htype.own
  have hnew : s.ownAt X split.id = none := (ownAt_eq hown).trans (hsplit ▸ hnext.fresh)
  rw [← hsplit, hsize] at hstore
  rw [← hsplit', htree, hsize] at hstore'
  rw [← hsplit, hsize] at hleft
  rw [← hsplit', htree, hsize] at hleft'
  rw [← hsplit] at hid
  obtain ⟨hpages, hupper, htypes⟩ := h.pages.split s.stack t.stack (u.page split) (v.page split)
    (hheld.ownAt hpage htype.own) (hheld'.ownAt hpage htype.own) htype hnew hid
  have hkeyU : u.splitKey page split.id = Wednesday.splitKey u.stack pageSize
      (s.page page) split.id := by
    rw [Sys.splitKey, hfix.tree, hsize, hu]
  have hkeyV : v.splitKey page split.id = Wednesday.splitKey v.stack pageSize
      (t.page page) split.id := by
    rw [Sys.splitKey, hfix'.tree, htree, hsize, hv]
  obtain ⟨hbytes, hbytes', henc⟩ := hnode.splitKey u.stack v.stack hcutS hid
  have hkept {q : PageRef} (hq : q ∈ held) (hqp : q ≠ page) :
      q ∈ split :: held ∧ q ≠ split := by
    refine ⟨List.mem_cons_of_mem _ hq, ?_⟩
    rintro rfl
    exact (List.nodup_cons.mp hfix.holding.nodup).1 (List.mem_map_of_mem hq)
  refine agree_bind (agree_of_success hsplitU hsplitV (E := E)
    (Q := fun k k' x y => Cut X pageSize type node held page split s t k k' x y) ?_)
    fun k k' x y _ hcutEnd => hrest split k k' x y hcutEnd
  refine ⟨hsplit, ⟨u, tryCall_eq_success.mp hrun, hsplitU⟩, bare_halved hbare,
    hfix.fixed.shape.pageSize.trans h.size, hfix.tree, ?_,
    hcutS, hfix.holding.halved, ?_, ?_, henc, hnode.left.root_fits hcutS,
      fun key => ?_, ?_, ?_, ?_, ?_,
    fun q hq hqp => ?_⟩
  · rw [nextPage_halved, hfix.fixed.nextPage]
    exact Nat.mod_lt _ (by decide)
  · rw [hkeyU]
    exact hbytes
  · rw [hkeyV]
    exact hbytes'
  · rw [hkeyU, hkeyV]
    exact hnode.keyCompare_splitKey hcutS hid key
  · rw [hstore, hstore']
    exact hpages
  · rw [hstore]
    exact hupper
  · rw [hstore]
    exact htypes
  · rw [hleft, hleft']
    exact hnode.splitLeft hid
  · obtain ⟨hqin, hqs⟩ := hkept hq hqp
    have hsplitIn : split ∈ split :: held := List.mem_cons_self ..
    rw [hfix.holding.page_halved hin hsplitIn hqin hqp hqs,
      hfix'.holding.page_halved hin hsplitIn hqin hqp hqs]
    exact ⟨hfix.page q hq, hfix'.page q hq⟩

/-- The half of a split page the insert leaves is unfixed on both sides. -/
theorem agree_leaveHalf {k k' : Blob} {S T : PageId → Option Mem}
    (h : Apart X pageSize S T tree s t)
    (hcompare : keyCompare key.data k.data = keyCompare key.data k'.data) {E : Sys → Sys → Prop} :
    Agree (if keyCompare key.data k.data < 0 then do
        pagerUnfix split
        pure page
      else do
        pagerUnfix page
        pure split)
      (if keyCompare key.data k'.data < 0 then do
        pagerUnfix split
        pure page
      else do
        pagerUnfix page
        pure split)
      (fun p q u v => p = q ∧ (p = page ∨ p = split) ∧ Apart X pageSize S T tree u v) E s t := by
  refine agree_ite (by rw [hcompare]) (fun _ => ?_) fun _ => ?_
  · exact agree_bind (h.unfix split) fun _ _ _ _ _ hend => agree_pure ⟨rfl, Or.inl rfl, hend⟩
  · exact agree_bind (h.unfix page) fun _ _ _ _ _ hend => agree_pure ⟨rfl, Or.inr rfl, hend⟩

theorem agree_splitRoot (h : Alike X pageSize s t) (hsize : s.tree.pageSize = pageSize)
    (hheld : Holding [page] s)
    (htype : HasType pageSize (s.ownAt X) type page.id) (hroot : page.id = s.tree.root)
    (hnext : NextNew X s)
    (hnext' : ∀ split u k w, treeNext s = .success split u → splitPage page split u = .success k w →
      NextNew X w) :
    Agree (splitRoot page key) (splitRoot page key)
      (fun p q u v => p = q ∧ Follows X pageSize s u v ∧ HasType pageSize (u.ownAt X) type p.id)
      (Follows X pageSize s) s t := by
  have hmem := List.mem_singleton_self page
  obtain ⟨node, hnode, -⟩ := h.node hheld hmem htype
  unfold Wednesday.splitRoot
  refine agree_cut h hsize hheld hmem hnode htype hnext (fun split k k' x y hcut => ?_)
    fun _ _ hend => hend
  obtain ⟨u₀, hrun₀, hrun₁⟩ := hcut.run
  have hnew := hnext' split u₀ k x hrun₀ hrun₁
  have hkept : Stays X pageSize s x := by
    refine ⟨hcut.types, by rw [hcut.tree], fun type' htype' => ?_⟩
    rw [hcut.tree]
    exact hcut.types type' _ htype'
  refine agree_bind ((agree_nextPage ⟨hcut.bare, hcut.size, rfl, rfl, rfl,
    hcut.nextPage⟩ hcut.holding
    hnew.keeps).mono
    (fun _ _ _ _ hend => hend) fun u v hend =>
      ⟨hend.alike hcut.pages, hkept.trans (stays_of_same hend.left hend.tree)⟩) ?_
  rintro new _ w z hrunNew ⟨rfl, hid, hbare, hfix, hfix'⟩
  -- The new root is written on both sides.
  have hnewIn : new ∈ [new, split, page] := List.mem_cons_self ..
  have hpageIn : page ∈ [split, page] := by simp
  have hown : X new.id = false := hid ▸ hnew.own
  have hw := hfix.ownAt_of_new (Or.inr rfl) (hid ▸ hnew.keeps) hown
  have hid' : new.id = y.pager.nextPage := hid.trans (nextPage_right hcut.bare).symm
  have hz := hfix'.ownAt_of_new (Or.inr rfl) (hid' ▸ evictsFor_right hcut.bare ▸ hnew.keeps) hown
  have hfresh : x.ownAt X new.id = none := (ownAt_eq hown).trans (hid ▸ hnew.fresh)
  have htreeW : w.tree.pageSize = pageSize := by rw [hfix.tree, hcut.tree, hsize]
  have htreeZ : z.tree.pageSize = pageSize := by
    rw [hfix'.tree, tree_eq hcut.bare, hcut.tree, hsize]
  obtain ⟨d, hd⟩ : ∃ d, d =
      pageInitRoot w.tree.pageSize (w.page new) (pageFlags (w.page page)) page.id k split.id :=
        ⟨_, rfl⟩
  obtain ⟨d', hd'⟩ : ∃ d', d' =
      pageInitRoot z.tree.pageSize (z.page new) (pageFlags (z.page page)) page.id k' split.id :=
        ⟨_, rfl⟩
  have hnodeRoot : SameNode type pageSize (.inner [⟨page.id, cutKey node⟩] split.id) d d' := by
    rw [hd, hd', htreeW, htreeZ, hfix.page page hpageIn, hfix'.page page hpageIn]
    exact hcut.lower.initRoot hcut.key hcut.key' hcut.encoded hcut.fits (h.pages.ids _ htype.there)
      (hcut.pages.ids _ hcut.upper.there)
  have hold : x.ownAt X new.id ≠ none → HasType pageSize (x.ownAt X) type new.id :=
    fun hthere => absurd hfresh hthere
  have hlinks : ∀ c ∈ (Node.inner [⟨page.id, cutKey node⟩] split.id : TreeNode).links,
      HasType pageSize (x.ownAt X) type c := by
    intro c hc
    simp only [Node.links, List.map_cons, List.map_nil, List.cons_append,
      List.nil_append, List.mem_cons, List.not_mem_nil, or_false] at hc
    rcases hc with rfl | rfl
    · exact hcut.types type _ htype
    · exact hcut.upper
  have hidLt : new.id < 2 ^ 32 := hid ▸ hcut.nextPage
  have hpages := hcut.pages.write hnodeRoot
      (fun c hc => (hlinks c hc).write hold hnodeRoot.left) hold hidLt
  have htypes : ∀ type' j, HasType pageSize (s.ownAt X) type' j →
      HasType pageSize (Function.update (x.ownAt X) new.id (some d)) type' j :=
    fun type' j hj => (hcut.types type' j hj).write hold hnodeRoot.left
  have hupper : HasType pageSize (Function.update (x.ownAt X) new.id (some d)) type split.id :=
    hcut.upper.write hold hnodeRoot.left
  have hend {u v : Sys} (hapart : Apart X pageSize (Function.update (x.ownAt X) new.id (some d))
      (Function.update (y.ownAt X) new.id (some d')) { s.tree with root := new.id } u v) :
      Follows X pageSize s u v := by
    refine ⟨hapart.alike hpages, fun type' j hj => ?_, by rw [hapart.tree], fun type' htype' => ?_⟩
    · rw [hapart.left]
      exact htypes type' j hj
    · -- The new root has the type of the old one.
      rw [← hroot] at htype'
      obtain rfl := htype.eq htype'
      rw [hapart.tree, hapart.left]
      exact ⟨_, _, Function.update_self .., hnodeRoot.left⟩
  have hcrown : Apart X pageSize (Function.update (x.ownAt X) new.id (some d))
      (Function.update (y.ownAt X) new.id (some d')) s.tree (w.written new d)
      (z.written new d') := by
    refine ⟨?_, hfix.fixed.shape.pageSize.trans hcut.size, ?_, ?_, hfix.tree.trans hcut.tree, ?_⟩
    · rw [Sys.bare_written, Sys.bare_written, hbare]
    · rw [hfix.holding.ownAt_written hnewIn hown, hw, Function.update_idem]
    · rw [hfix'.holding.ownAt_written hnewIn hown, hz, Function.update_idem]
    · rw [nextPage_written, hfix.fixed.nextPage]
      exact Nat.mod_lt _ (by decide)
  rw [hd, hd'] at hcrown
  rw [hd, hd'] at hend
  refine agree_deferred (agree_get (agree_readPage (agree_readPage (agree_writePage
    (agree_bind (agree_setRoot hcrown new.id) fun _ _ u v _ hapart => ?_)))))
  refine (agree_leaveHalf hapart (hcut.compare key.data)).mono (fun p q u v hleft => ?_)
    fun _ _ hfalse => hfalse
  obtain ⟨rfl, hhalf, hapart'⟩ := hleft
  refine (hapart'.unfix new).mono (fun _ _ u v hlast => ⟨rfl, hend hlast, ?_⟩)
    fun _ _ hfalse => hfalse
  rw [hlast.left]
  rcases hhalf with rfl | rfl
  · exact hd ▸ htypes type _ htype
  · exact hd ▸ hupper

theorem agree_insertInner {pre post : List TreeSep} {right : PageId} {sep sep' : Blob} {k : Bytes}
    {E : Sys → Sys → Prop} (htree : t.tree = s.tree) (hsize : s.tree.pageSize = pageSize)
    (hnode : SameNode type pageSize (.inner (pre ++ post) right) (s.page parent) (t.page parent))
    (hk : sep.bytes = k) (hk' : sep'.bytes = k) (henc : KeyEncoded type k) (hid : id < 2 ^ 32)
    (hspace : NotCompacted (s.page parent) (sep.size + sizeofPageId)) :
    Agree (insertInner parent pre.length sep id) (insertInner parent pre.length sep' id)
      (fun _ _ u v => ∃ d d', u = s.written parent d ∧ v = t.written parent d' ∧
        SameNode type pageSize (insertSep pre post right k id) d d') E s t := by
  have hsize' : t.tree.pageSize = pageSize := by rw [htree, hsize]
  refine agree_get (agree_readPage ?_)
  rw [hsize, hsize']
  cases hrun : pageInsertInner s.stack pageSize (s.page parent) pre.length sep id with
  | error r => exact agree_of_fault rfl
  | ok d =>
      obtain ⟨d', hrun', hwritten⟩ := hnode.insertInner t.stack hk hk' henc hid hspace hrun
      rw [hrun']
      exact ⟨(), _, rfl, d, d', rfl, rfl, hwritten⟩

theorem agree_splitChild (h : Alike X pageSize s t) (hsize : s.tree.pageSize = pageSize)
    (hheld : Holding [page, parent] s) (htype : HasType pageSize (s.ownAt X) type page.id)
    (hparent : HasType pageSize (s.ownAt X) type parent.id)
    (hinner : pageIsInner (pageFlags (s.page parent)) = true)
    (hindex : index = (pageFindPointer (s.page parent) key).2) (hnext : NextNew X s)
    (hspace : NotCompacted (s.page parent)
      ((s.splitKey page s.pager.nextPage).size + sizeofPageId)) :
    Agree (splitChild parent page index key) (splitChild parent page index key)
      (fun p q u v => p = q ∧ Follows X pageSize s u v ∧ HasType pageSize (u.ownAt X) type p.id)
      (Follows X pageSize s) s t := by
  have hheld' := holding_right h.bare hheld
  have hpageIn : page ∈ [page, parent] := by simp
  have hparentIn : parent ∈ [page, parent] := by simp
  have hne : parent ≠ page := by
    rintro rfl
    simpa using hheld.nodup
  obtain ⟨node, hnode, -⟩ := h.node hheld hpageIn htype
  obtain ⟨above, habove, hlinks⟩ := h.node hheld hparentIn hparent
  obtain ⟨pre, post, right, henters, hpre, -⟩ := habove.left.inner_search hinner key
  obtain rfl : index = pre.length := hindex.trans hpre
  rw [henters.node] at habove hlinks
  unfold Wednesday.splitChild
  refine agree_cut h hsize hheld hpageIn hnode htype hnext (fun split k k' x y hcut => ?_)
    fun _ _ hend => hend
  obtain ⟨hx, hy⟩ := hcut.others parent hparentIn hne
  have hkeySize : k.size = (s.splitKey page s.pager.nextPage).size := by
    have hbytes := (hnode.left.splitKey_bytes s.stack hcut.divided h.nextPage).1
    rw [← Blob.length_bytes, ← Blob.length_bytes, hcut.key, Sys.splitKey, hsize, hbytes]
  have hidLt : split.id < 2 ^ 32 := hcut.id ▸ h.nextPage
  refine agree_bind (agree_insertInner (tree_eq hcut.bare) (by rw [hcut.tree, hsize])
    (by rw [hx, hy]; exact habove)
    hcut.key hcut.key' hcut.encoded hidLt (by rw [hx, hkeySize]; exact hspace)) ?_
  rintro - - u v - ⟨d, d', rfl, rfl, hwritten⟩
  -- The parent takes the separator on both sides.
  have hparentX := hcut.types type _ hparent
  have hold : x.ownAt X parent.id ≠ none → HasType pageSize (x.ownAt X) type parent.id :=
    fun _ => hparentX
  have hin : parent ∈ [split, page, parent] := by simp
  have hpages := hcut.pages.write hwritten (fun c hc => ?_) hold (h.pages.ids _ hparent.there)
  swap
  · rcases links_insertSep hc with rfl | hc
    · exact hcut.upper.write hold hwritten.left
    · exact (hcut.types type c (hlinks c hc)).write hold hwritten.left
  have htypes : ∀ type' j, HasType pageSize (s.ownAt X) type' j →
      HasType pageSize (Function.update (x.ownAt X) parent.id (some d)) type' j :=
    fun type' j hj => (hcut.types type' j hj).write hold hwritten.left
  have hapart : Apart X pageSize (Function.update (x.ownAt X) parent.id (some d))
      (Function.update (y.ownAt X) parent.id (some d')) s.tree (x.written parent d)
      (y.written parent d') := by
    have hholding' := holding_right hcut.bare hcut.holding
    refine ⟨?_, hcut.size, hcut.holding.ownAt_written hin hparent.own d,
      hholding'.ownAt_written hin hparent.own d', hcut.tree, hcut.nextPage⟩
    rw [Sys.bare_written, Sys.bare_written, hcut.bare]
  refine (agree_leaveHalf hapart (hcut.compare key.data)).mono (fun p q u v hleft => ?_)
    fun _ _ hfalse => hfalse
  obtain ⟨rfl, hhalf, hlast⟩ := hleft
  refine ⟨rfl, ⟨hlast.alike hpages, fun type' j hj => ?_, by rw [hlast.tree], fun type' hj => ?_⟩,
    ?_⟩
  · rw [hlast.left]
    exact htypes type' j hj
  · rw [hlast.left, hlast.tree]
    exact htypes type' _ hj
  · rw [hlast.left]
    rcases hhalf with rfl | rfl
    · exact htypes type _ htype
    · exact hcut.upper.write hold hwritten.left

/-! ### The way down -/

theorem Follows.refl (h : Alike X pageSize s t) : Follows X pageSize s s t := ⟨h, .refl pageSize s⟩

theorem Stays.follows (h : Stays X pageSize s t) (h' : Follows X pageSize t u v) :
    Follows X pageSize s u v :=
  ⟨h'.alike, h.trans h'.stays⟩

theorem Alike.unfix (h : Alike X pageSize s t) (page : PageRef) {E : Sys → Sys → Prop} :
    Agree (pagerUnfix page) (pagerUnfix page) (fun _ _ => Follows X pageSize s) E s t := by
  refine (h.apart.unfix page).mono (fun _ _ x y hend => ?_) fun _ _ hfalse => hfalse
  exact ⟨hend.alike h.pages, stays_of_same hend.left hend.tree⟩

theorem Follows.unfix (h : Follows X pageSize s u v) (page : PageRef) {E : Sys → Sys → Prop} :
    Agree (pagerUnfix page) (pagerUnfix page) (fun _ _ => Follows X pageSize s) E u v :=
  (h.alike.unfix page).mono (fun _ _ _ _ hend => h.stays.follows hend) fun _ _ hfalse => hfalse

/-- A failure changes the error only. -/
theorem wp_failure_err (site : Site) (code : Int) (texts : List String) (s : Sys) :
    wp (failure site code texts : Call α) (fun _ _ => False) (fun u => ∃ e, u = { s with err := e })
      (fun _ => True) s := by
  simp only [failure, wp_bind, wp_get, wp_ofExcept]
  cases reportFailure s.err site code texts with
  | error r => trivial
  | ok e => exact ⟨e, rfl⟩

/-- A failure is reported on both sides. -/
theorem agree_failure {site : Site} {code : Int} {texts : List String}
    {Q : α → α → Sys → Sys → Prop}
    (h : Follows X pageSize s u v) :
    Agree (failure site code texts) (failure site code texts) Q (Follows X pageSize s) u v := by
  refine (((ignores_failure site code texts).agree h.alike.bare).and_wp
    (wp_failure_err site code texts u)
    (wp_failure_err site code texts v)).mono (fun _ _ _ _ hend => hend.2.1.elim) fun x y hend => ?_
  obtain ⟨hbare, ⟨e, rfl⟩, ⟨e', rfl⟩⟩ := hend
  exact ⟨⟨hbare, h.alike.size, h.alike.pages, h.alike.nextPage⟩,
    h.stays.trans ⟨fun _ _ hj => hj, rfl, fun _ hj => hj⟩⟩

theorem agree_tryCall {site : Site} {text : String} {m m' : Call α} {Q : α → α → Sys → Sys → Prop}
    (hm : Agree m m' Q (Follows X pageSize s) u v) :
    Agree (tryCall site text m) (tryCall site text m') Q (Follows X pageSize s) u v := by
  refine agree_recover hm fun x y _ hend => agree_get ?_
  have herr : y.err = x.err := (congrArg Sys.err hend.alike.bare).symm
  rw [herr]
  exact agree_failure hend

/-- The search on a fixed page goes to the same child on both sides. -/
theorem agree_stepDown (h : Alike X pageSize s t) (hheld : Holding [parent] s)
    (htype : HasType pageSize (s.ownAt X) type parent.id)
    (hinner : pageIsInner (pageFlags (s.page parent)) = true) :
    Agree (stepDown parent key) (stepDown parent key)
      (fun r r' u v => r = r' ∧ Follows X pageSize s u v ∧ HasType pageSize (u.ownAt X) type r.1.id)
      (Follows X pageSize s) s t := by
  have hmem := List.mem_singleton_self parent
  obtain ⟨node, hnode, hlinks⟩ := h.node hheld hmem htype
  obtain ⟨hchild, hlink⟩ := hnode.child hinner key
  refine agree_readPage ?_
  rw [← hnode.search key]
  rw [← hnode.search key] at hchild
  rcases hsearch : pageFindPointer (s.page parent) key with ⟨found, index⟩
  rw [hsearch] at hchild hlink
  cases found with
  | true => exact agree_failure (.refl h)
  | false =>
      dsimp only at hchild hlink ⊢
      rw [← hchild]
      have hthere := hlinks _ hlink
      refine agree_bind (agree_assert (Q := fun _ _ x y => x = s ∧ y = t) id fun _ => ⟨rfl, rfl⟩) ?_
      rintro - - x y - ⟨rfl, rfl⟩
      refine agree_bind (agree_fixPage h hheld hthere.there) ?_
      rintro child _ u v - ⟨rfl, hid, -, hend⟩
      exact agree_pure ⟨rfl, hend, hid ▸ hend.stays.types type _ hthere⟩

/-! ### Inserting -/

/-- The states in which an insert asks the pager for a new page. -/
inductive AsksNext (key value : Blob) (s : Sys) : Sys → Prop where
  | split {above : Above} {page : PageRef} {t : Sys} (hvisit : Visit key value s above page t)
      (hfull : needsSplit (t.page page) key value = true) : AsksNext key value s t
  | root {page split : PageRef} {t u v : Sys} {k : Blob} (hvisit : Visit key value s none page t)
      (hfull : needsSplit (t.page page) key value = true) (hnext : treeNext t = .success split u)
      (hsplit : splitPage page split u = .success k v) : AsksNext key value s v

/-- Every page an insert takes is a new one, and no page of a tree is evicted for
it. -/
def TakesNew (X : PageId → Bool) (key value : Blob) (s : Sys) : Prop :=
  ∀ t, AsksNext key value s t → NextNew X t

section

variable {s₀ : Sys} {fuel : Nat}

theorem agree_makeRoomBelow (hok : s₀.PagerOk) (hnew : TakesNew X key value s₀)
    (hspace : Uncompacted key value s₀)
    (hvisit : Visit key value s₀ (some (parent, index)) page s) (h : Alike X pageSize s t)
    (hsize : s.tree.pageSize = pageSize) (htype : HasType pageSize (s.ownAt X) type page.id)
    (hparent : HasType pageSize (s.ownAt X) type parent.id) :
    Agree (makeRoomBelow key value parent page index) (makeRoomBelow key value parent page index)
      (fun p q u v => p = q ∧ Follows X pageSize s u v ∧ HasType pageSize (u.ownAt X) type p.id)
      (Follows X pageSize s) s t := by
  have hstand := hvisit.standing hok
  have hheld : Holding [page, parent] s := hstand.holding
  have hchecked := hstand.checked parent index rfl
  have hmem : page ∈ [page, parent] := by simp
  obtain ⟨node, hnode, -⟩ := h.node hheld hmem htype
  refine agree_readPage (agree_ite (by rw [hnode.needsSplit key value])
    (fun hfull => ?_) fun _ => ?_)
  · exact agree_splitChild h hsize hheld htype hparent hchecked.inner (by rw [hchecked.search])
      (hnew s (.split hvisit hfull)) (hspace.parent parent index page s hvisit hfull)
  · exact agree_pure ⟨rfl, .refl h, htype⟩

theorem agree_descend (hok : s₀.PagerOk) (hnew : TakesNew X key value s₀)
    (hspace : Uncompacted key value s₀)
    (hreach : Reaches key value s₀ parent s) (h : Alike X pageSize s t)
    (hsize : s.tree.pageSize = pageSize)
    (htype : HasType pageSize (s.ownAt X) type parent.id)
    (hinner : pageIsInner (pageFlags (s.page parent)) = true)
    (hroom : payloadPutLen (pageFlags (s.page parent)) key value ≤ freeSpace (s.page parent)) :
    Agree (descend parent key value) (descend parent key value)
      (fun p q u v => p = q ∧ Follows X pageSize s u v ∧ HasType pageSize (u.ownAt X) type p.id)
      (Follows X pageSize s) s t := by
  obtain ⟨above, top, x, hvisit, hmade⟩ := hreach
  have hheld := (Reaches.settled hok ⟨above, top, x, hvisit, hmade⟩).holding
  rw [descend_eq]
  refine agree_deferred (agree_bind ((agree_stepDown h hheld htype hinner).mono
    (fun _ _ _ _ hend => hend)
    fun u v hend => hend.unfix parent) ?_)
  rintro ⟨child, index⟩ _ u v hstep ⟨rfl, hend, hchild⟩
  have hvisit' : Visit key value s₀ (some (parent, index)) child u :=
    .child hvisit hmade hinner hroom hstep
  refine (agree_makeRoomBelow hok hnew hspace hvisit' hend.alike
    (hend.stays.size.trans hsize) hchild
    (hend.stays.types type _ htype)).mono (fun p q x y hlast => ?_) fun x y hlast => ?_
  · obtain ⟨rfl, hfollows, hp⟩ := hlast
    refine (hfollows.alike.unfix parent).mono
      (fun _ _ a b hun => ⟨rfl, ?_, hun.stays.types type _ hp⟩)
      fun _ _ hfalse => hfalse
    exact hend.stays.follows (hfollows.stays.follows hun)
  · exact (hend.stays.follows hlast).unfix parent

/-- The row is placed on both sides, or on none. -/
theorem agree_insertLeaf (h : Alike X pageSize s t) (hsize : s.tree.pageSize = pageSize)
    (hheld : Holding [page] s)
    (htype : HasType pageSize (s.ownAt X) type page.id)
    (hleaf : pageIsLeaf (pageFlags (s.page page)) = true)
    (hkey : KeyEncoded type key.bytes) (hvalue : ValueEncoded type value.bytes)
    (hspace : NotCompacted (s.page page) (key.size + value.size)) :
    Agree (insertLeaf page key value) (insertLeaf page key value) (fun _ _ => Follows X pageSize s)
      (Follows X pageSize s) s t := by
  have hmem := List.mem_singleton_self page
  have hheld' := holding_right h.bare hheld
  obtain ⟨node, hnode, -⟩ := h.node hheld hmem htype
  have hsize' : t.tree.pageSize = pageSize := by rw [tree_eq h.bare, hsize]
  refine agree_get (agree_readPage ?_)
  rw [hsize, hsize']
  cases hrun : pageInsertLeaf s.stack pageSize (s.page page) key value with
  | error r => exact agree_of_fault rfl
  | ok result =>
      cases result with
      | none =>
          rw [hnode.insertLeaf_exists t.stack hrun]
          exact agree_failure (.refl h)
      | some d =>
          obtain ⟨d', rows, right, hrun', hwritten⟩ :=
            hnode.insertLeaf t.stack hleaf hkey hvalue hspace hrun
          rw [hrun']
          have hpages := h.pages.write hwritten (fun c hc => absurd hc List.not_mem_nil)
              (fun _ => htype)
            (h.pages.ids _ htype.there)
          have hstore := hheld.ownAt_written hmem htype.own d
          refine ⟨(), _, rfl, ⟨?_, h.size, ?_, h.nextPage⟩, fun type' j hj => ?_,
            rfl, fun type' hj => ?_⟩
          · change (s.written page d).bare = (t.written page d').bare
            rw [Sys.bare_written, Sys.bare_written, h.bare]
          · change AlikePages pageSize ((s.written page d).ownAt X) ((t.written page d').ownAt X)
            rwa [hstore, hheld'.ownAt_written hmem htype.own]
          · change HasType pageSize ((s.written page d).ownAt X) type' j
            rw [hstore]
            exact hj.write (fun _ => htype) hwritten.left
          · change HasType pageSize ((s.written page d).ownAt X) type' s.tree.root
            rw [hstore]
            exact hj.write (fun _ => htype) hwritten.left

/-- What is left to do on a page with room is done alike on both sides. -/
theorem agree_placeRow {site : Site} {text : String} (hok : s₀.PagerOk)
    (hspace : Uncompacted key value s₀)
    (hreach : Reaches key value s₀ page s) (h : Alike X pageSize s t)
    (hsize : s.tree.pageSize = pageSize)
    (htype : HasType pageSize (s.ownAt X) type page.id)
    (hleaf : pageIsLeaf (pageFlags (s.page page)) = true)
    (hkey : KeyEncoded type key.bytes) (hvalue : ValueEncoded type value.bytes) :
    Agree (deferred (pagerUnfix page) (tryCall site text (insertLeaf page key value)))
      (deferred (pagerUnfix page) (tryCall site text (insertLeaf page key value)))
      (fun _ _ => Follows X pageSize s) (Follows X pageSize s) s t := by
  have hheld := (hreach.settled hok).holding
  refine agree_deferred ((agree_tryCall (agree_insertLeaf h hsize hheld htype hleaf hkey hvalue
    (hspace.leaf page s hreach hleaf))).mono (fun _ _ u v hend => ?_) fun u v hend => ?_)
  · exact hend.unfix page
  · exact hend.unfix page

theorem flags_agree (h : Alike X pageSize s t) (hheld : Holding held s) (hpage : page ∈ held)
    (htype : HasType pageSize (s.ownAt X) type page.id) :
    pageFlags (s.page page) = pageFlags (t.page page) := by
  obtain ⟨node, hnode, -⟩ := h.node hheld hpage htype
  exact hnode.flags

theorem agree_btreeInsertWalk (hok : s₀.PagerOk) (hnew : TakesNew X key value s₀)
    (hspace : Uncompacted key value s₀) (hreach : Reaches key value s₀ page s)
    (h : Alike X pageSize s t)
    (hsize : s.tree.pageSize = pageSize) (htype : HasType pageSize (s.ownAt X) type page.id)
    (hkey : KeyEncoded type key.bytes) (hvalue : ValueEncoded type value.bytes) :
    Agree (btreeInsertWalk fuel page key value) (btreeInsertWalk fuel page key value)
      (fun _ _ => Follows X pageSize s) (Follows X pageSize s) s t := by
  induction fuel generalizing page s t with
  | zero => exact agree_abort _
  | succ fuel ih =>
      have hheld := (hreach.settled hok).holding
      have hmem := List.mem_singleton_self page
      obtain ⟨node, hnode, -⟩ := h.node hheld hmem htype
      refine agree_readPage ?_
      refine agree_bind (agree_assert (Q := fun _ _ x y =>
        pageIsInner (pageFlags (s.page page)) = true ∧ x = s ∧ y = t)
          (by rw [hnode.flags]; exact id)
        fun hinner => ⟨hinner, rfl, rfl⟩) ?_
      rintro - - x y - ⟨hinner, rfl, rfl⟩
      refine agree_bind (agree_assert (Q := fun _ _ x' y' =>
        payloadPutLen (pageFlags (x.page page)) key value ≤ freeSpace (x.page page) ∧
          x' = x ∧ y' = y)
        (by rw [hnode.flags, hnode.free]; exact id) fun hroom => ⟨hroom, rfl, rfl⟩) ?_
      rintro - - x' y' - ⟨hroom, rfl, rfl⟩
      refine agree_bind (agree_descend hok hnew hspace hreach h hsize htype hinner hroom) ?_
      rintro child _ u v hdescend ⟨rfl, hend, hchild⟩
      have hreach' : Reaches key value s₀ child u := by
        obtain ⟨above, p, w, hvisit, hmade⟩ := hreach
        obtain ⟨next, index, z, hstep, hmade'⟩ := descend_eq_success.mp hdescend
        exact ⟨_, next, z, .child hvisit hmade hinner hroom hstep, hmade'⟩
      have hsize' := hend.stays.size.trans hsize
      have hlast {m m' : Call Unit} (hm : Agree m m' (fun _ _ => Follows X pageSize u)
          (Follows X pageSize u) u v) :
          Agree m m' (fun _ _ => Follows X pageSize x') (Follows X pageSize x') u v :=
        hm.mono (fun _ _ _ _ hf => hend.stays.follows hf) fun _ _ hf => hend.stays.follows hf
      have hheld' := (hreach'.settled hok).holding
      refine agree_readPage
        (agree_ite (by rw [flags_agree hend.alike hheld' (List.mem_singleton_self child) hchild])
        (fun hleaf => ?_) fun _ => ?_)
      · exact hlast (agree_placeRow hok hspace hreach' hend.alike hsize' hchild hleaf hkey hvalue)
      · exact hlast (agree_tryCall (ih hreach' hend.alike hsize' hchild))

end

end

end Wednesday
