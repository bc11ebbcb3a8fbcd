import Wednesday.TreeNodes

/-!
The pages on the way of an insert. Where the pager has the pages a split takes
and no page is compacted to make room, every visit finds nodes on its pages, and
a placed row leaves nodes behind.
-/

namespace Wednesday

open Lib Prog Pager FenceTree

/-- The pages and the root are the same, and no page id has become free again. -/
structure SamePages (s t : Sys) : Prop where
  pageAt : t.pageAt = s.pageAt
  tree : t.tree = s.tree
  nextPage : s.pager.nextPage ≤ t.pager.nextPage

/-- The insert of so many bytes does not get past the check of `free_space` by
what `page_compact` made of it. -/
def NotCompacted (page : Mem) (size : Nat) : Prop :=
  size + 2 ≤ freeSpace page → size + 2 ≤ pageGetSpace page

/-- The pager has the pages the splits of the insert take. -/
def HasPages (key value : Blob) (s : Sys) : Prop :=
  ∀ above page t, Visit key value s above page t →
    needsSplit (t.page page) key value = true → t.Spare above.newPages

/-- No page is compacted to take a cell of the insert. -/
structure Uncompacted (key value : Blob) (s : Sys) : Prop where
  parent : ∀ parent index page t, Visit key value s (some (parent, index)) page t →
    needsSplit (t.page page) key value = true →
      NotCompacted (t.page parent) ((t.splitKey page t.pager.nextPage).size + sizeofPageId)
  leaf : ∀ page t, Reaches key value s page t → pageIsLeaf (pageFlags (t.page page)) = true →
    NotCompacted (t.page page) (key.size + value.size)

section

variable {type index : Nat} {nodes : PageId → TreeNode} {s t u v w : Sys}
  {page parent p root : PageRef}
  {key value : Blob} {above : Above} {held : List PageRef}

theorem fixRoot_fixes (hok : s.PagerOk) (h : fixRoot s = .success page t) :
    page.id = s.tree.root ∧ Fixes [] s.pager s page t := by
  have hwp : wp fixRoot (fun page t => page.id = s.tree.root ∧ Fixes [] s.pager s page t)
      (fun _ => True) (fun _ => True) s :=
    wp_fixRoot hok (fun _ _ _ _ _ _ => trivial) (fun _ _ _ => trivial)
      fun root t hid hfix => ⟨hid, hfix⟩
  exact hwp.success h

theorem stepDown_fixes (h : Holding [parent] t)
    (hstep : stepDown parent key t = .success (page, index) u) :
    pageFindPointer (t.page parent) key = (false, index) ∧ page.id = childAt (t.page parent) index ∧
      Fixes [parent] t.pager t page u := by
  have hwp : wp (stepDown parent key) (fun r v =>
      pageFindPointer (t.page parent) key = (false, r.2) ∧ r.1.id = childAt (t.page parent) r.2 ∧
        Fixes [parent] t.pager t r.1 v) (fun _ => True) (fun _ => True) t :=
    wp_stepDown h (fun _ _ _ => trivial) (fun _ => trivial) (fun _ _ _ _ _ _ => trivial)
      (fun _ _ _ => trivial) fun hfound child v hid hfix => ⟨Prod.ext hfound rfl, hid, hfix⟩
  exact hwp.success hstep

theorem PagesHold.fixes {held : List PageRef} (h : PagesHold type nodes s)
    (hfix : Fixes held s.pager s page t) (hthere : s.pageAt page.id ≠ none) :
    PagesHold type nodes t :=
  h.congr (hfix.pageAt_of_there (Or.inl rfl) hthere) hfix.tree hfix.fixed.nextPage.ge

theorem SamePages.refl (s : Sys) : SamePages s s := ⟨rfl, rfl, le_rfl⟩

theorem SamePages.trans (h : SamePages s t) (h' : SamePages t u) : SamePages s u :=
  ⟨h'.pageAt.trans h.pageAt, h'.tree.trans h.tree, h.nextPage.trans h'.nextPage⟩

theorem SamePages.err (h : SamePages s t) (e : ErrorState) : SamePages s { t with err := e } :=
  ⟨h.pageAt, h.tree, h.nextPage⟩

theorem samePages_unfixed (s : Sys) (page : PageRef) : SamePages s (s.unfixed page) :=
  ⟨pageAt_unfixed, rfl, le_rfl⟩

theorem PagesHold.same (h : PagesHold type nodes s) (hsame : SamePages s t) :
    PagesHold type nodes t :=
  h.congr hsame.pageAt hsame.tree hsame.nextPage

theorem Fixes.samePages (h : Fixes held s.pager s page t) (hthere : s.pageAt page.id ≠ none) :
    SamePages s t :=
  ⟨h.pageAt_of_there (Or.inl rfl) hthere, h.tree, h.fixed.nextPage.ge⟩

/-- The separators of an inner node, cut where the search for an id ends. -/
structure Enters (node : TreeNode) (x : Nat) (pre post : List TreeSep) (right : PageId) : Prop where
  node : node = .inner (pre ++ post) right
  below : ∀ sep ∈ pre, idCompare (keyId sep.key) x < 0
  above : ∀ sep ∈ post.head?, 0 ≤ idCompare (keyId sep.key) x

/-- An inner page is entered where its search ends. -/
theorem PageHolds.inner_search {pageSize : Nat} {data : Mem} {node : TreeNode}
    (h : PageHolds type pageSize data node) (hinner : pageIsInner (pageFlags data) = true)
    (key : Blob) :
    ∃ pre post right, Enters node (varintGet key.data).1 pre post right ∧
      (pageFindPointer data key).2 = pre.length ∧
      Wednesday.childAt data (pageFindPointer data key).2 = childOf post right ∧
      ((pageFindPointer data key).1 = true ↔
        ∃ sep ∈ post.head?, idCompare (keyId sep.key) (varintGet key.data).1 = 0) := by
  obtain ⟨as, bs, hkeys, hindex, hbelow, hstop, hfound⟩ := h.search key
  cases node with
  | leaf rows right =>
      rw [h.flags, pageIsInner_leaf h.isType] at hinner
      cases hinner
  | inner seps right =>
      obtain ⟨pre, post, rfl, rfl, rfl⟩ := List.map_eq_append_iff.mp hkeys
      rw [List.length_map] at hindex
      refine ⟨pre, post, right, ⟨rfl, fun sep hsep => ?_, fun sep hsep => ?_⟩, hindex, ?_, ?_⟩
      · exact hbelow _ (List.mem_map_of_mem hsep)
      · exact hstop _ (by simp [Option.mem_def.mp hsep])
      · rw [hindex, h.childAt]
      · rw [hfound]
        cases post <;> simp

/-- The child a search finds is a page of the tree. -/
theorem PagesHold.child_there {held : List PageRef} (h : PagesHold type nodes t)
    (hheld : Holding held t) (hpage : page ∈ held)
    (hinner : pageIsInner (pageFlags (t.page page)) = true) (key : Blob) :
    t.pageAt (childAt (t.page page) (pageFindPointer (t.page page) key).2) ≠ none := by
  obtain ⟨pre, post, right, henters, -, hchild, -⟩ := (h.onPage hheld hpage).inner_search hinner key
  rw [hchild]
  exact h.links page.id (by simp [hheld.pageAt hpage]) _ (henters.node ▸ childOf_mem_links)

/-- The page an insert visits is the child of the one above it that its search
has found, and the key is not on that one. -/
structure Below (nodes : PageId → TreeNode) (x : Nat) (parent : PageRef)
    (index : Nat) (page : PageRef)
    (pre post : List TreeSep) (right : PageId) : Prop where
  enters : Enters (nodes parent.id) x pre post right
  new : ∀ sep ∈ post.head?, idCompare (keyId sep.key) x ≠ 0
  index : index = pre.length
  child : page.id = childOf post right

/-- A visited page is below the one above it. -/
def Hangs (nodes : PageId → TreeNode) (x : Nat) (page : PageRef) : Above → Prop
  | none => True
  | some (parent, index) => ∃ pre post right, Below nodes x parent index page pre post right

/-- What making room does to the nodes of the pages. -/
inductive Grows (key value : Blob) (nodes : PageId → TreeNode) (t : Sys) :
    Above → PageRef → PageRef → Sys → (PageId → TreeNode) → Prop where
  | stay {above : Above} {page : PageRef} {u : Sys}
      (hstay : needsSplit (t.page page) key value = false)
      (hpages : u.pageAt = t.pageAt) (htree : u.tree = t.tree)
      (hnext : u.pager.nextPage = t.pager.nextPage) :
      Grows key value nodes t above page page u nodes
  | root {page p : PageRef} {u : Sys} (hfull : needsSplit (t.page page) key value = true)
      (hsplit : RootSplit key t page p u) :
      Grows key value nodes t none page p u (rootNodes nodes page.id t.pager.nextPage)
  | child {parent page p : PageRef} {index : Nat} {pre post : List TreeSep}
      {right : PageId} {u : Sys}
      (hfull : needsSplit (t.page page) key value = true)
      (hbelow : Below nodes (varintGet key.data).1 parent index page pre post right)
      (hsplit : ChildSplit key t parent page pre.length p u) :
      Grows key value nodes t (some (parent, index)) page p u
        (childNodes nodes page.id t.pager.nextPage parent.id pre post right)

/-- Making room keeps nodes on the pages. -/
theorem MakesRoom.grows (hmakes : MakesRoom key value t above page p u)
    (h : PagesHold type nodes t) (hstand : Standing key value s above page t)
    (hhangs : Hangs nodes (varintGet key.data).1 page above)
    (hspare : needsSplit (t.page page) key value = true → t.Spare above.newPages)
    (hspace : ∀ parent index, above = some (parent, index) →
      needsSplit (t.page page) key value = true →
        NotCompacted (t.page parent) ((t.splitKey page t.pager.nextPage).size + sizeofPageId)) :
    ∃ nodes', Grows key value nodes t above page p u nodes' ∧ PagesHold type nodes' u := by
  have hheld := hstand.holding
  cases hmakes with
  | stayRoot hstay => exact ⟨nodes, .stay hstay rfl rfl rfl, h⟩
  | splitRoot hfull hsplit =>
      exact ⟨_, .root hfull hsplit, h.rootSplit hheld (List.mem_cons_self ..) (hspare hfull) hsplit⟩
  | @stayChild page parent index hstay =>
      exact ⟨nodes, .stay hstay pageAt_unfixed rfl rfl, h.congr pageAt_unfixed rfl le_rfl⟩
  | @splitChild page parent p index u hfull hsplit =>
      obtain ⟨pre, post, right, hbelow⟩ := hhangs
      obtain rfl := hbelow.index
      exact ⟨_, .child hfull hbelow hsplit, h.childSplit hheld (hspare hfull) hbelow.enters.node
        hbelow.child hsplit (hspace parent _ rfl hfull)⟩

/-- The child found by a step down hangs below the page. -/
theorem stepDown_hangs (h : PagesHold type nodes t) (hheld : Holding [parent] t)
    (hinner : pageIsInner (pageFlags (t.page parent)) = true)
    (hstep : stepDown parent key t = .success (page, index) u) :
    Hangs nodes (varintGet key.data).1 page (some (parent, index)) ∧ SamePages t u := by
  obtain ⟨hsearch, hid, hfixes⟩ := stepDown_fixes hheld hstep
  have hmem := List.mem_singleton_self parent
  obtain ⟨pre, post, right, henters, hindex, hchild, hfound⟩ :=
    (h.onPage hheld hmem).inner_search hinner key
  have hthere := h.child_there hheld hmem hinner key
  rw [hsearch] at hindex hchild hfound hthere
  refine ⟨⟨pre, post, right, henters, fun sep hsep heq => ?_, hindex, hid.trans hchild⟩,
    hfixes.samePages (hid ▸ hthere)⟩
  cases hfound.mpr ⟨sep, hsep, heq⟩

/-- What holds of the nodes wherever the insert comes: `I` on a page it visits, and
`J` on a page it has made room on. No page above is compacted for a separator. -/
structure WalkRule (type : Nat) (key value : Blob) (s : Sys) (start : PageId → TreeNode)
    (I : Above → PageRef → Sys → (PageId → TreeNode) → Prop)
    (J : PageRef → Sys → (PageId → TreeNode) → Prop) : Prop where
  root : ∀ page t, page.id = s.tree.root → SamePages s t → I none page t start
  room : ∀ above page t p u nodes nodes', Visit key value s above page t →
    Standing key value s above page t → PagesHold type nodes t →
    (needsSplit (t.page page) key value = true → t.Spare above.newPages) →
    Hangs nodes (varintGet key.data).1 page above → I above page t nodes →
    Grows key value nodes t above page p u nodes' → PagesHold type nodes' u → J p u nodes'
  step : ∀ page t child index u nodes, Settled s page t → PagesHold type nodes t → J page t nodes →
    Hangs nodes (varintGet key.data).1 child (some (page, index)) → SamePages t u →
    I (some (page, index)) child u nodes
  space : ∀ parent index page t nodes, Visit key value s (some (parent, index)) page t →
    Holding [page, parent] t → PagesHold type nodes t → I (some (parent, index)) page t nodes →
    needsSplit (t.page page) key value = true →
      NotCompacted (t.page parent) ((t.splitKey page t.pager.nextPage).size + sizeofPageId)

section

variable {I : Above → PageRef → Sys → (PageId → TreeNode) → Prop}
  {J : PageRef → Sys → (PageId → TreeNode) → Prop}

theorem WalkRule.makeRoom (hrule : WalkRule type key value s nodes I J) (hok : s.PagerOk)
    (hpages : HasPages key value s)
    (hvisit : Visit key value s above page t) {nodes' : PageId → TreeNode}
    (ht : PagesHold type nodes' t) (hhangs : Hangs nodes' (varintGet key.data).1 page above)
    (hI : I above page t nodes')
    (hmade : Wednesday.makeRoom key value page above t = .success p u) :
    ∃ nodes'', PagesHold type nodes'' u ∧ J p u nodes'' := by
  have hstand := hvisit.standing hok
  have hspare := hpages _ _ _ hvisit
  have hmakes := makeRoom_makes hstand.holding (fun hfull => ht.newPage (hspare hfull)) hmade
  obtain ⟨nodes'', hgrows, hu⟩ := hmakes.grows ht hstand hhangs hspare
      fun parent index habove hfull => by
    subst habove
    exact hrule.space parent index page t nodes' hvisit hstand.holding ht hI hfull
  exact ⟨nodes'', hu, hrule.room _ _ _ _ _ _ _ hvisit hstand ht hspare hhangs hI hgrows hu⟩

theorem Visit.keeps (hrule : WalkRule type key value s nodes I J) (hok : s.PagerOk)
    (h : PagesHold type nodes s) (hpages : HasPages key value s)
    (hvisit : Visit key value s above page t) :
    ∃ nodes', PagesHold type nodes' t ∧ Hangs nodes' (varintGet key.data).1 page above ∧
      I above page t nodes' := by
  induction hvisit with
  | root hfix =>
      obtain ⟨hid, hfixes⟩ := fixRoot_fixes hok hfix
      have hsame := hfixes.samePages (hid ▸ h.root)
      exact ⟨nodes, h.same hsame, trivial, hrule.root _ _ hid hsame⟩
  | @child above page parent child index t u v hvisit hmade hinner hroom hdown ih =>
      obtain ⟨nodes', ht, hhangs, hI⟩ := ih
      obtain ⟨nodes'', hu, hJ⟩ := hrule.makeRoom hok hpages hvisit ht hhangs hI hmade
      have hsettled := makeRoom_settled (hvisit.standing hok) hmade
      obtain ⟨hhangs', hsame⟩ := stepDown_hangs hu hsettled.holding hinner hdown
      exact ⟨nodes'', hu.same hsame, hhangs', hrule.step _ _ _ _ _ _ hsettled hu hJ hhangs' hsame⟩

theorem Reaches.keeps (hrule : WalkRule type key value s nodes I J) (hok : s.PagerOk)
    (h : PagesHold type nodes s) (hpages : HasPages key value s)
    (hreach : Reaches key value s page t) : ∃ nodes', PagesHold type nodes' t ∧
    J page t nodes' := by
  obtain ⟨above, q, u, hvisit, hmade⟩ := hreach
  obtain ⟨nodes', hu, hhangs, hI⟩ := hvisit.keeps hrule hok h hpages
  exact hrule.makeRoom hok hpages hvisit hu hhangs hI hmade

theorem walkRule_true (hspace : Uncompacted key value s) :
    WalkRule type key value s nodes (fun _ _ _ _ => True) fun _ _ _ => True :=
  ⟨fun _ _ _ _ => trivial, fun _ _ _ _ _ _ _ _ _ _ _ _ _ _ _ => trivial,
    fun _ _ _ _ _ _ _ _ _ _ _ => trivial,
    fun parent index page t _ hvisit _ _ _ => hspace.parent parent index page t hvisit⟩

end

theorem Visit.pagesHold (hok : s.PagerOk) (h : PagesHold type nodes s)
    (hpages : HasPages key value s)
    (hspace : Uncompacted key value s) (hvisit : Visit key value s above page t) :
    ∃ nodes', PagesHold type nodes' t := by
  obtain ⟨nodes', ht, -⟩ := hvisit.keeps (walkRule_true hspace) hok h hpages
  exact ⟨nodes', ht⟩

theorem Reaches.pagesHold (hok : s.PagerOk) (h : PagesHold type nodes s)
    (hpages : HasPages key value s) (hspace : Uncompacted key value s)
    (hreach : Reaches key value s page t) : ∃ nodes', PagesHold type nodes' t := by
  obtain ⟨nodes', ht, -⟩ := hreach.keeps (walkRule_true hspace) hok h hpages
  exact ⟨nodes', ht⟩

/-! ### The end of an insert -/

/-- The row is written to the leaf, and the leaf is unfixed. -/
theorem PlacesRow.written (h : Holding [page] t) (hplace : PlacesRow key value page t u) :
    ∃ data, pageInsertLeaf t.stack t.tree.pageSize (t.page page) key value = .ok (some data) ∧
      u = (t.written page data).unfixed page := by
  obtain ⟨v, hinsert, hunfix⟩ := hplace
  have hwp : wp (insertLeaf page key value) (fun _ v => ∃ data,
      pageInsertLeaf t.stack t.tree.pageSize (t.page page) key value = .ok (some data) ∧
        v = t.written page data) (fun _ => True) (fun _ => True) t := by
    simp only [insertLeaf, wp_bind, wp_get, wp_readPage, wp_ofExcept]
    cases hdata : pageInsertLeaf t.stack t.tree.pageSize (t.page page) key value with
    | error r => trivial
    | ok result =>
        cases result with
        | none => exact wp_failure (by decide) fun _ _ => trivial
        | some data => exact ⟨data, rfl, rfl⟩
  obtain ⟨data, hdata, rfl⟩ := hwp.success hinsert
  have hwritten : Holding [page] (t.written page data) := h.written _
  have hrun : wp (pagerUnfix page) (fun _ u => u = (t.written page data).unfixed page)
      (fun _ => True) (fun _ => True) (t.written page data) :=
    hwritten.wp_pagerUnfix (List.mem_singleton_self _) rfl
  exact ⟨data, hdata, hrun.success hunfix⟩

/-- Unfixing a page changes no data, whether or not it is latched. -/
theorem pagerUnfix_success (h : pagerUnfix page s = .success () t) :
    ∃ header : Frame, header.data = (s.pager.header page.frame).data ∧
      t = { s with pager := s.pager.setHeader page.frame header } := by
  have hwp : wp (pagerUnfix page) (fun _ t => ∃ header : Frame,
      header.data = (s.pager.header page.frame).data ∧
        t = { s with pager := s.pager.setHeader page.frame header }) (fun _ => True)
          (fun _ => True) s := by
    simp only [pagerUnfix, getPager, modifyPager, latchReleaseWrite, latchReleaseRead, wp_bind,
      wp_get, wp_pure, wp_ite, wp_modify, wp_assert, header_setHeader_self, setHeader_setHeader]
    split
    · split
      · refine ⟨_, ?_, rfl⟩
        rfl
      · trivial
    · split
      · refine ⟨_, ?_, rfl⟩
        rfl
      · trivial
  exact hwp.success h

theorem pageAt_setHeader {header : Frame} {f : Nat}
    (hdata : header.data = (s.pager.header f).data) :
    ({ s with pager := s.pager.setHeader f header } : Sys).pageAt = s.pageAt := by
  refine pageAt_congr (fun _ _ => rfl) fun id g _ _ => ?_
  by_cases hg : g = f
  · rw [hg, header_setHeader_self, hdata]
  · rw [header_setHeader_ne _ _ _ _ hg]

/-- A cleanup that returns has changed no data. -/
theorem deferGuard_success (h : deferGuard (pagerUnfix root) s = .success () t) :
    t.pageAt = s.pageAt ∧ t.tree = s.tree ∧ t.pager.nextPage = s.pager.nextPage := by
  simp only [deferGuard, bind_apply, get_apply, Outcome.bind_success] at h
  split at h
  · obtain ⟨-, rfl⟩ := Outcome.success.inj h
    exact ⟨rfl, rfl, rfl⟩
  · obtain ⟨header, hdata, rfl⟩ := pagerUnfix_success h
    exact ⟨pageAt_setHeader hdata, rfl, rfl⟩

/-- The leaf a row is placed on, with its position. -/
theorem PageHolds.leaf_search {pageSize : Nat} {data : Mem} {node : TreeNode}
    (h : PageHolds type pageSize data node) (hleaf : pageIsLeaf (pageFlags data) = true)
    (key : Blob) :
    ∃ rows rows' right, node = .leaf (rows ++ rows') right ∧
      (pageFindPointer data key).2 = rows.length ∧
      (∀ row ∈ rows, idCompare (keyId row.key) (varintGet key.data).1 < 0) ∧
      (∀ row ∈ rows'.head?, 0 ≤ idCompare (keyId row.key) (varintGet key.data).1) ∧
      ((pageFindPointer data key).1 = true ↔
        ∃ row ∈ rows'.head?, idCompare (keyId row.key) (varintGet key.data).1 = 0) := by
  obtain ⟨as, bs, hkeys, hindex, hbelow, hstop, hfound⟩ := h.search key
  cases node with
  | inner seps right =>
      rw [h.flags, pageIsLeaf_inner h.isType] at hleaf
      cases hleaf
  | leaf rows right =>
      obtain ⟨pre, post, rfl, rfl, rfl⟩ := List.map_eq_append_iff.mp hkeys
      rw [List.length_map] at hindex
      refine ⟨pre, post, right, rfl, hindex, fun row hrow => ?_, fun row hrow => ?_, ?_⟩
      · exact hbelow _ (List.mem_map_of_mem hrow)
      · exact hstop _ (by simp [Option.mem_def.mp hrow])
      · rw [hfound]
        cases post <;> simp

theorem pageInsertLeaf_some {stack data data' : Mem} {pageSize : Nat}
    (h : pageInsertLeaf stack pageSize data key value = .ok (some data')) :
    (pageFindPointer data key).1 = false ∧ key.size + value.size + 2 ≤ freeSpace data := by
  unfold pageInsertLeaf at h
  rcases hsearch : pageFindPointer data key with ⟨found, index⟩
  rw [hsearch] at h
  cases found with
  | true => cases h
  | false =>
      cases hrun : pageInsertPayload stack pageSize data index (key.size + value.size) with
      | ok r => exact ⟨rfl, pageInsertPayload_ok hrun⟩
      | error r =>
          simp only [hrun] at h
          cases h

theorem pageInsertLeaf_none {stack data : Mem} {pageSize : Nat}
    (h : pageInsertLeaf stack pageSize data key value = .ok none) :
    (pageFindPointer data key).1 = true := by
  unfold pageInsertLeaf at h
  rcases hsearch : pageFindPointer data key with ⟨found, index⟩
  rw [hsearch] at h
  cases found with
  | true => rfl
  | false =>
      cases hrun : pageInsertPayload stack pageSize data index (key.size + value.size) <;>
        simp only [hrun] at h <;>
        cases h

/-- A placed row stands between the rows that compare below its key and the others. -/
structure RowPlaced (type : Nat) (nodes : PageId → TreeNode) (key value : Blob) (page : PageRef)
    (t u : Sys) (rows rows' : List TreeRow) (right : PageId) : Prop where
  leaf : nodes page.id = .leaf (rows ++ rows') right
  below : ∀ row ∈ rows, idCompare (keyId row.key) (varintGet key.data).1 < 0
  above : ∀ row ∈ rows'.head?, 0 < idCompare (keyId row.key) (varintGet key.data).1
  written : ∃ data, PageHolds type t.tree.pageSize data
      (.leaf (rows ++ ⟨key.bytes, value.bytes⟩ :: rows') right) ∧
    freeSpace data = freeSpace (t.page page) - (key.size + value.size + 2) ∧
    u = (t.written page data).unfixed page

theorem rowPlaced_of_insertLeaf {data : Mem} (h : PagesHold type nodes t) (hheld : Holding held t)
    (hpage : page ∈ held)
    (hleaf : pageIsLeaf (pageFlags (t.page page)) = true) (hkey : KeyEncoded type key.bytes)
    (hvalue : ValueEncoded type value.bytes)
    (hspace : NotCompacted (t.page page) (key.size + value.size))
    (hdata : pageInsertLeaf t.stack t.tree.pageSize (t.page page) key value = .ok (some data)) :
    ∃ rows rows' right, RowPlaced type nodes key value page t ((t.written page data).unfixed page)
      rows rows' right := by
  obtain ⟨hnew, hfree⟩ := pageInsertLeaf_some hdata
  have hholds := h.onPage hheld hpage
  obtain ⟨rows, rows', right, hnode, hindex, hbelow, hstop, hfound⟩ := hholds.leaf_search hleaf key
  rw [hnode] at hholds
  have hsearch : pageFindPointer (t.page page) key = (false, rows.length) := Prod.ext hnew hindex
  obtain ⟨data', hdata', hplaced, hfree'⟩ := hholds.insertLeaf t.stack hkey hvalue hsearch hfree
    (hspace hfree)
  obtain rfl := Option.some.inj (Except.ok.inj (hdata'.symm.trans hdata))
  refine ⟨rows, rows', right, hnode, hbelow, fun row hrow => ?_, data', hplaced, hfree', rfl⟩
  refine lt_of_le_of_ne (hstop row hrow) fun heq => ?_
  rw [hfound.mpr ⟨row, hrow, heq.symm⟩] at hnew
  cases hnew

theorem PlacesRow.placed (hplace : PlacesRow key value page t u) (h : PagesHold type nodes t)
    (hheld : Holding [page] t) (hleaf : pageIsLeaf (pageFlags (t.page page)) = true)
    (hkey : KeyEncoded type key.bytes) (hvalue : ValueEncoded type value.bytes)
    (hspace : NotCompacted (t.page page) (key.size + value.size)) :
    ∃ rows rows' right, RowPlaced type nodes key value page t u rows rows' right := by
  obtain ⟨data, hdata, rfl⟩ := hplace.written hheld
  exact rowPlaced_of_insertLeaf h hheld (List.mem_singleton_self page) hleaf
    hkey hvalue hspace hdata

theorem RowPlaced.pagesHold {rows rows' : List TreeRow} {right : PageId}
    (hplaced : RowPlaced type nodes key value page t u rows rows' right)
    (h : PagesHold type nodes t)
    (hheld : Holding [page] t) :
    PagesHold type (Function.update nodes page.id
      (.leaf (rows ++ ⟨key.bytes, value.bytes⟩ :: rows') right)) u := by
  obtain ⟨data, hdata, -, rfl⟩ := hplaced.written
  have hpage := h.placeRow hheld (List.mem_singleton_self page) hdata
  exact hpage.congr pageAt_unfixed rfl le_rfl

/-- An insert that succeeds keeps nodes on the pages. -/
theorem PagesHold.insert {fuel : Nat} (h : PagesHold type nodes s) (hok : s.PagerOk)
    (hpages : HasPages key value s) (hspace : Uncompacted key value s)
    (hkey : KeyEncoded type key.bytes) (hvalue : ValueEncoded type value.bytes)
    (hrun : btreeInsert fuel key value s = .success () w) : ∃ nodes', PagesHold type nodes' w := by
  obtain ⟨leaf, t, u, root, hreach, hleaf, hplace, hexit⟩ := btreeInsert_reaches hrun
  obtain ⟨nodes', ht⟩ := hreach.pagesHold hok h hpages hspace
  have hheld := (hreach.settled hok).holding
  obtain ⟨rows, rows', right, hplaced⟩ := hplace.placed ht hheld hleaf hkey hvalue
    (hspace.leaf leaf t hreach hleaf)
  obtain ⟨hdata, htree, hnext⟩ := deferGuard_success hexit
  exact ⟨_, (hplaced.pagesHold ht hheld).congr hdata htree hnext.ge⟩

end

end Wednesday
