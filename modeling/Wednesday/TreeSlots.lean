import Wednesday.TreeOrder
import Wednesday.TreeSplits

/-!
The slots of the pages of a tree. While every split takes half of the bytes of a
page into its lower half, what `page_compact` leaves as the free space is what is
free, and all header fields, slots and cells of all pages fit each other.
-/

namespace Wednesday

open Lib Prog Pager FenceTree

/-! ### Properties of pages -/

/-- A property of pages and their nodes that every change of a page keeps, where
pages are cut as given and the rows are of the given kind. -/
structure PageRule (type : Nat) (cuts : Nat → Mem → Prop) (R : TreeRow → Prop)
    (P : Mem → TreeNode → Prop) :
    Prop where
  space : ∀ data node size, P data node → NotCompacted data size
  left : ∀ pageSize data node stack next, PageHolds type pageSize data node → P data node →
    cuts pageSize data → next < 2 ^ 32 → P (splitLeft stack pageSize data next)
      (node.takeTo (cutAt node) next)
  right : ∀ pageSize data node stack page next, PageHolds type pageSize data node → P data node →
    P (splitRight stack pageSize data page next) (node.dropTo (cutAt node))
  root : ∀ pageSize data node new c n, PageHolds type pageSize data node →
    P data node → cutAt node ≠ 0 →
    PageHolds type pageSize new (.inner [⟨c, cutKey node⟩] n) →
    freeSpace new = pageSize - (sizeofHeader + 2 + (sizeofPageId + (cutKey node).length)) →
    P new (.inner [⟨c, cutKey node⟩] n)
  parent : ∀ pageSize data node parent pre post right new n, P data node → cutAt node ≠ 0 →
    PageHolds type pageSize parent (.inner (pre ++ post) right) →
      P parent (.inner (pre ++ post) right) →
    PageHolds type pageSize new (insertSep pre post right (cutKey node) n) →
    freeSpace new = freeSpace parent - ((cutKey node).length + sizeofPageId + 2) →
    P new (insertSep pre post right (cutKey node) n)
  row : ∀ pageSize data rows rows' right row new, PageHolds type pageSize data
    (.leaf (rows ++ rows') right) →
    P data (.leaf (rows ++ rows') right) → R row →
    PageHolds type pageSize new (.leaf (rows ++ row :: rows') right) →
    freeSpace new = freeSpace data - (row.key.length + row.value.length + 2) →
    P new (.leaf (rows ++ row :: rows') right)

/-- Every page has the property. -/
def Everywhere (P : Mem → TreeNode → Prop) (nodes : PageId → TreeNode) (s : Sys) : Prop :=
  ∀ id data, s.pageAt id = some data → P data (nodes id)

section

variable {type index : Nat} {nodes nodes' : PageId → TreeNode} {s s₀ t u w : Sys}
  {page parent p : PageRef}
  {key value : Blob} {above : Above} {held : List PageRef} {cuts : Nat → Mem → Prop}
  {R : TreeRow → Prop} {P : Mem → TreeNode → Prop}

theorem Everywhere.same (h : Everywhere P nodes s) (hsame : SamePages s t) :
    Everywhere P nodes t := by
  intro id data hdata
  rw [hsame.pageAt] at hdata
  exact h id data hdata

theorem Everywhere.onPage (h : Everywhere P nodes s) (hheld : Holding held s)
    (hpage : page ∈ held) :
    P (s.page page) (nodes page.id) :=
  h page.id _ (hheld.pageAt hpage)

/-- Both halves of a split page have the property. -/
theorem PageRule.splitStore (hrule : PageRule type cuts R P) (h : Everywhere P nodes t)
    (ht : PagesHold type nodes t) (hheld : Holding held t) (hpage : page ∈ held)
    (hcuts : cuts t.tree.pageSize (t.page page)) (hid : t.pager.nextPage < 2 ^ 32)
    {next data : Mem} {id : PageId}
    (hdata : t.splitStore page next id = some data) :
    P data (splitNodes nodes page.id t.pager.nextPage id) := by
  have hholds := ht.onPage hheld hpage
  have hP := h.onPage hheld hpage
  have hne : page.id ≠ t.pager.nextPage := by
    refine (ht.fresh _ ?_).ne
    simp [hheld.pageAt hpage]
  unfold Sys.splitStore at hdata
  by_cases hn : id = t.pager.nextPage
  · rw [hn, Function.update_self, Option.some.injEq] at hdata
    rw [hn, splitNodes_right, ← hdata]
    exact hrule.right _ _ _ _ _ _ hholds hP
  · rw [Function.update_of_ne hn] at hdata
    by_cases hp : id = page.id
    · rw [hp, Function.update_self, Option.some.injEq] at hdata
      rw [hp, splitNodes_left hne, ← hdata]
      exact hrule.left _ _ _ _ _ hholds hP hcuts hid
    · rw [Function.update_of_ne hp] at hdata
      rw [splitNodes_other hp hn]
      exact h id data hdata

theorem PageRule.rootSplit (hrule : PageRule type cuts R P) (h : Everywhere P nodes t)
    (ht : PagesHold type nodes t) (hheld : Holding held t) (hpage : page ∈ held)
    (hcuts : cuts t.tree.pageSize (t.page page)) (hspare : t.Spare 2)
    (hsplit : RootSplit key t page p u) :
    Everywhere P (rootNodes nodes page.id t.pager.nextPage) u := by
  intro id data hdata
  obtain ⟨next, new, hstore⟩ := hsplit.store
  have hholds := ht.onPage hheld hpage
  have hid : t.pager.nextPage < 2 ^ 32 := hspare.nextPage_lt
  rw [hstore] at hdata
  by_cases hn : id = t.pager.nextPage + 1
  · subst hn
    obtain ⟨hbytes, hkey⟩ := hholds.splitKey_bytes t.stack hsplit.divided hid
    have hbytes' : (t.splitKey page t.pager.nextPage).bytes = cutKey (nodes page.id) := hbytes
    have hsize : (t.splitKey page t.pager.nextPage).size = (cutKey (nodes page.id)).length := by
      rw [← hbytes', Blob.length_bytes]
    have hcut : cutAt (nodes page.id) ≠ 0 := by
      rw [cutAt, ← hholds.count]
      exact hsplit.divided
    have hhere : page.id < t.pager.nextPage := by
      refine ht.fresh _ ?_
      simp [hheld.pageAt hpage]
    obtain ⟨hnew, hfree⟩ := pageHolds_pageInitRoot new
      ((nodes page.id).takeTo (cutAt (nodes page.id)) t.pager.nextPage) hholds.isType hholds.small
      (hsize ▸ hholds.root_fits hsplit.divided) (hbytes' ▸ hkey) (hhere.trans hid) hid
    rw [← (hholds.splitLeft t.stack hid).flags] at hnew hfree
    rw [hbytes'] at hnew
    rw [hsize] at hfree
    rw [Function.update_self, Option.some.injEq] at hdata
    rw [rootNodes, Function.update_self, ← hdata]
    exact hrule.root _ _ _ _ _ _ hholds (h.onPage hheld hpage) hcut hnew hfree
  · rw [Function.update_of_ne hn] at hdata
    rw [rootNodes, Function.update_of_ne hn]
    exact hrule.splitStore h ht hheld hpage hcuts hid hdata

theorem PageRule.childSplit (hrule : PageRule type cuts R P) (h : Everywhere P nodes t)
    (ht : PagesHold type nodes t) (hheld : Holding [page, parent] t)
    (hcuts : cuts t.tree.pageSize (t.page page)) (hspare : t.Spare 1) {pre post : List TreeSep}
    {right : PageId}
    (hparent : nodes parent.id = .inner (pre ++ post) right)
    (hsplit : ChildSplit key t parent page pre.length p u) :
    Everywhere P (childNodes nodes page.id t.pager.nextPage parent.id pre post right) u := by
  intro id data hdata
  obtain ⟨next, new, hnew, hstore⟩ := hsplit.store
  have hpage : page ∈ [page, parent] := by simp
  have hmem : parent ∈ [page, parent] := by simp
  have hholds := ht.onPage hheld hpage
  have hid : t.pager.nextPage < 2 ^ 32 := hspare.nextPage_lt
  rw [hstore] at hdata
  by_cases hp : id = parent.id
  · subst hp
    obtain ⟨hbytes, hkey⟩ := hholds.splitKey_bytes t.stack hsplit.divided hid
    have hbytes' : (t.splitKey page t.pager.nextPage).bytes = cutKey (nodes page.id) := hbytes
    have hsize : (t.splitKey page t.pager.nextPage).size = (cutKey (nodes page.id)).length := by
      rw [← hbytes', Blob.length_bytes]
    have hcut : cutAt (nodes page.id) ≠ 0 := by
      rw [cutAt, ← hholds.count]
      exact hsplit.divided
    have habove := ht.onPage hheld hmem
    have hP := h.onPage hheld hmem
    rw [hparent] at habove hP
    have hfree := pageInsertInner_ok hnew
    obtain ⟨data', hdata', hholds', hfree'⟩ := habove.insertInner t.stack (hbytes' ▸ hkey) hid hfree
      (hrule.space _ _ _ hP hfree)
    obtain rfl := Except.ok.inj (hdata'.symm.trans hnew)
    rw [hbytes'] at hholds'
    rw [hsize] at hfree'
    rw [Function.update_self, Option.some.injEq] at hdata
    rw [childNodes, Function.update_self, ← hdata]
    exact hrule.parent _ _ _ _ _ _ _ _ _ (h.onPage hheld hpage) hcut habove hP hholds' hfree'
  · rw [Function.update_of_ne hp] at hdata
    rw [childNodes, Function.update_of_ne hp]
    exact hrule.splitStore h ht hheld hpage hcuts hid hdata

/-- The splits of an insert cut pages of the given kind only. -/
def CutsOnly (cuts : Nat → Mem → Prop) (key value : Blob) (s : Sys) : Prop :=
  ∀ above page t, Visit key value s above page t → needsSplit (t.page page) key value = true →
    cuts t.tree.pageSize (t.page page)

/-- The same of the splits that leave cells in both halves: the others are not carried out. -/
def DividesOnly (cuts : Nat → Mem → Prop) (key value : Blob) (s : Sys) : Prop :=
  ∀ above page t, Visit key value s above page t → needsSplit (t.page page) key value = true →
    cellCount (t.page page) / 2 ≠ 0 → cuts t.tree.pageSize (t.page page)

theorem CutsOnly.divides (h : CutsOnly cuts key value s) : DividesOnly cuts key value s :=
  fun above page t hvisit hfull _ => h above page t hvisit hfull

theorem PageRule.walkRule (hrule : PageRule type cuts R P) (h : Everywhere P nodes s)
    (hcuts : DividesOnly cuts key value s) :
    WalkRule type key value s nodes (fun _ _ t nodes => Everywhere P nodes t)
      fun _ t nodes => Everywhere P nodes t := by
  refine ⟨fun page t _ hsame => h.same hsame, ?_,
    fun _ _ _ _ _ _ _ _ hP _ hsame => hP.same hsame, ?_⟩
  · intro above page t p u nodes nodes' hvisit hstand ht hspare _ hP hgrows _
    cases hgrows with
    | stay _ hpages htree hnext => exact hP.same ⟨hpages, htree, hnext.ge⟩
    | root hfull hsplit =>
        exact hrule.rootSplit hP ht hstand.holding (List.mem_cons_self ..)
          (hcuts _ _ _ hvisit hfull hsplit.divided) (hspare hfull) hsplit
    | child hfull hbelow hsplit =>
        exact hrule.childSplit hP ht hstand.holding (hcuts _ _ _ hvisit hfull hsplit.divided)
          (hspare hfull)
          hbelow.enters.node hsplit
  · intro parent index page t nodes _ hheld _ hP _
    exact hrule.space _ _ _ (hP.onPage hheld (by simp))

/-- No page of the insert is compacted, since no page with the property is. -/
theorem PageRule.uncompacted (hrule : PageRule type cuts R P) (h : Everywhere P nodes s)
    (hok : s.PagerOk) (hnodes : PagesHold type nodes s) (hpages : HasPages key value s)
    (hcuts : DividesOnly cuts key value s) : Uncompacted key value s := by
  have hwalk := hrule.walkRule h hcuts
  constructor
  · intro parent index page t hvisit _
    obtain ⟨nodes', -, -, hP⟩ := hvisit.keeps hwalk hok hnodes hpages
    exact hrule.space _ _ _ (hP.onPage (hvisit.standing hok).holding (by simp [Above.held]))
  · intro page t hreach _
    obtain ⟨nodes', -, hP⟩ := hreach.keeps hwalk hok hnodes hpages
    exact hrule.space _ _ _ (hP.onPage (hreach.settled hok).holding (List.mem_singleton_self page))

/-- An insert that succeeds keeps the property. -/
theorem PageRule.insert {fuel : Nat} (hrule : PageRule type cuts R P) (h : Everywhere P nodes s)
    (hok : s.PagerOk) (hnodes : PagesHold type nodes s) (hpages : HasPages key value s)
    (hcuts : DividesOnly cuts key value s) (hkey : KeyEncoded type key.bytes)
    (hvalue : ValueEncoded type value.bytes) (hrow : R ⟨key.bytes, value.bytes⟩)
    (hrun : btreeInsert fuel key value s = .success () w) :
    ∃ nodes', PagesHold type nodes' w ∧ Everywhere P nodes' w := by
  obtain ⟨leaf, t, u, root, hreach, hleaf, hplace, hexit⟩ := btreeInsert_reaches hrun
  obtain ⟨nodes', ht, hP⟩ := hreach.keeps (hrule.walkRule h hcuts) hok hnodes hpages
  have hheld := (hreach.settled hok).holding
  have hmem := List.mem_singleton_self leaf
  have hspace := (hrule.uncompacted h hok hnodes hpages hcuts).leaf leaf t hreach hleaf
  obtain ⟨rows, rows', right, hplaced⟩ := hplace.placed ht hheld hleaf hkey hvalue hspace
  have hsame := deferGuard_same hexit
  refine ⟨_, (hplaced.pagesHold ht hheld).same hsame, Everywhere.same ?_ hsame⟩
  obtain ⟨data, hdata, hfree, rfl⟩ := hplaced.written
  intro id d hd
  rw [pageAt_unfixed, hheld.pageAt_written hmem] at hd
  by_cases hp : id = leaf.id
  · subst hp
    have hold := ht.onPage hheld hmem
    have hPold := hP.onPage hheld hmem
    rw [hplaced.leaf] at hold hPold
    rw [Function.update_self, Option.some.injEq] at hd
    rw [Function.update_self, ← hd]
    refine hrule.row _ _ _ _ _ _ _ hold hPold hrow hdata ?_
    rw [hfree, Blob.length_bytes, Blob.length_bytes]
  · rw [Function.update_of_ne hp] at hd ⊢
    exact hP id d hd

/-- Wherever an insert fails, the property holds. -/
theorem PageRule.fails (hrule : PageRule type cuts R P) (h : Everywhere P nodes s) (hok : s.PagerOk)
    (hnodes : PagesHold type nodes s) (hpages : HasPages key value s)
    (hcuts : CutsOnly cuts key value s)
    (hfails : FailsAt key value s u) : ∃ nodes', PagesHold type nodes' u ∧
    Everywhere P nodes' u := by
  have hwalk := hrule.walkRule h hcuts.divides
  induction hfails with
  | @makeRoom above page t u hvisit hfail =>
      obtain ⟨nodes', ht, -, hP⟩ := hvisit.keeps hwalk hok hnodes hpages
      have hheld := (hvisit.standing hok).holding
      have hspare := hpages _ _ _ hvisit
      rcases makeRoom_fails hheld (fun hfull => ht.newPage (hspare hfull)) hfail with
        hsame | ⟨rfl, hfull, hroot⟩
      · exact ⟨nodes', ht.same hsame, hP.same hsame⟩
      · have hmem : page ∈ [page] := List.mem_singleton_self page
        cases hroot with
        | whole hsame => exact ⟨nodes', ht.same hsame, hP.same hsame⟩
        | halved next hstore htree hnext =>
            refine ⟨_, ht.halved hheld hmem (hspare hfull) hstore htree hnext,
              fun id data hdata => ?_⟩
            rw [hstore] at hdata
            exact hrule.splitStore hP ht hheld hmem (hcuts _ _ _ hvisit hfull)
              (hspare hfull).nextPage_lt hdata
  | stepDown hreach hinner hfail hexit =>
      obtain ⟨nodes', ht, hP⟩ := hreach.keeps hwalk hok hnodes hpages
      have hsame := (stepDown_fails (hreach.settled hok).holding ht hinner hfail).trans
          (pagerUnfix_same hexit)
      exact ⟨nodes', ht.same hsame, hP.same hsame⟩
  | insertLeaf hreach hleaf hfail hexit =>
      obtain ⟨nodes', ht, hP⟩ := hreach.keeps hwalk hok hnodes hpages
      have hsame := ((insertLeaf_fails hfail).err _).trans (pagerUnfix_same hexit)
      exact ⟨nodes', ht.same hsame, hP.same hsame⟩
  | trace _ e ih =>
      obtain ⟨nodes', ht, hP⟩ := ih
      exact ⟨nodes', ht.same ((SamePages.refl _).err e), hP.same ((SamePages.refl _).err e)⟩

/-- The row is encoded as the tree stores it, the pager has pages for the splits
of its insert, and they cut pages of the given kind. -/
structure Cutting (type : Nat) (cuts : Nat → Mem → Prop) (key value : Blob) (s : Sys) : Prop where
  keyEncoded : KeyEncoded type key.bytes
  valueEncoded : ValueEncoded type value.bytes
  pages : HasPages key value s
  splits : CutsOnly cuts key value s

/-- A step whose insert cuts pages of the given kind. -/
def CuttingStep (type : Nat) (cuts : Nat → Mem → Prop) (s : Sys) (e : TreeEvent) (t : Sys) : Prop :=
  (∀ key value, e = .insert key value ∨ e = .insertFails key value →
    Cutting type cuts key value s) ∧
    TreeStep s e t

theorem PageRule.step {e : TreeEvent} (hrule : PageRule type cuts R P) (hok : s.PagerOk)
    (hnodes : PagesHold type nodes s) (h : Everywhere P nodes s)
    (hstep : CuttingStep type cuts s e t)
    (hrow : ∀ key value, e = .insert key value → R ⟨key.bytes, value.bytes⟩) :
    ∃ nodes', PagesHold type nodes' t ∧ Everywhere P nodes' t := by
  obtain ⟨hcutting, hstep⟩ := hstep
  have hstay (hsame : SamePages s t) : ∃ nodes', PagesHold type nodes' t ∧ Everywhere P nodes' t :=
    ⟨nodes, hnodes.same hsame, h.same hsame⟩
  cases hstep with
  | insert hrun =>
      have hc := hcutting _ _ (Or.inl rfl)
      exact hrule.insert h hok hnodes hc.pages hc.splits.divides hc.keyEncoded hc.valueEncoded
        (hrow _ _ rfl) hrun
  | insertFails hrun =>
      have hc := hcutting _ _ (Or.inr rfl)
      rcases btreeInsert_failure hrun with hfix | ⟨root, u, hfails, hexit⟩
      · exact hstay (fixRoot_fails hok hnodes hfix)
      · obtain ⟨nodes', hu, hP⟩ := hrule.fails h hok hnodes hc.pages hc.splits hfails
        have hsame := deferGuard_same hexit
        exact ⟨nodes', hu.same hsame, hP.same hsame⟩
  | lookup hrun => exact hstay ((btreeLookup_route hok hnodes).success hrun).1.same
  | lookupFails hrun => exact hstay ((btreeLookup_route hok hnodes).failure hrun).1.same
  | errorClear => exact hstay ((SamePages.refl s).err _)
  | scratch stack => exact hstay ⟨rfl, rfl, le_rfl⟩

/-- In every state of a run whose inserts cut pages of the given kind, all pages
have the property. -/
theorem PageRule.run {es : List TreeEvent} (hrule : PageRule type cuts R P)
    (hcreated : TreeCreated type s₀)
    (htype : IsTreeType type) (hsize : sizeofHeader ≤ s₀.tree.pageSize)
    (hempty : Everywhere P (fun _ => .leaf [] 0) s₀)
    (hrows : ∀ key value, .insert key value ∈ es → R ⟨key.bytes, value.bytes⟩)
    (hrun : Run (CuttingStep type cuts) s₀ es s) :
    s.PagerOk ∧ ∃ nodes, PagesHold type nodes s ∧ Everywhere P nodes s := by
  refine Run.invariant (I := fun s => s.PagerOk ∧ ∃ nodes, PagesHold type nodes s ∧
    Everywhere P nodes s)
    ?_ ⟨hcreated.pagerOk, _, hcreated.oneLeaf.pagesHold htype hsize, hempty⟩ hrun.events
  rintro s e t ⟨hok, nodes, hnodes, h⟩ ⟨hmem, hstep⟩
  refine ⟨hstep.2.pagerOk hok, hrule.step hok hnodes h hstep fun key value he => ?_⟩
  exact hrows key value (he ▸ hmem)

end

/-! ### Exact pages -/

/-- The keys and rows of a node come from such rows. -/
def MadeOf (R : TreeRow → Prop) : TreeNode → Prop
  | .leaf rows _ => ∀ row ∈ rows, R row
  | .inner seps _ => ∀ sep ∈ seps, ∃ row, R row ∧ row.key = sep.key

/-- The free space of the page is what is free on it. -/
structure Exact (R : TreeRow → Prop) (data : Mem) (node : TreeNode) : Prop where
  space : freeSpace data = pageGetSpace data
  made : MadeOf R node

/-- The cells that stay on a split page have half of the bytes of a page. -/
def CutsEvenly (pageSize : Nat) (page : Mem) : Prop :=
  2 * cellBytes page 0 (cellCount page / 2) = pageSize

instance (pageSize : Nat) (page : Mem) : Decidable (CutsEvenly pageSize page) :=
  inferInstanceAs (Decidable (_ = _))

section

variable {type : Nat} {R : TreeRow → Prop} {node : TreeNode} {pre post : List TreeSep}
  {right n : PageId}
  {k : Bytes}

theorem MadeOf.takeTo (h : MadeOf R node) (m : Nat) (next : PageId) :
    MadeOf R (node.takeTo m next) := by
  cases node with
  | leaf rows right => exact fun row hrow => h row (List.mem_of_mem_take hrow)
  | inner seps right => exact fun sep hsep => h sep (List.mem_of_mem_take hsep)

theorem MadeOf.dropTo (h : MadeOf R node) (m : Nat) : MadeOf R (node.dropTo m) := by
  cases node with
  | leaf rows right => exact fun row hrow => h row (List.mem_of_mem_drop hrow)
  | inner seps right => exact fun sep hsep => h sep (List.mem_of_mem_drop hsep)

theorem MadeOf.key (h : MadeOf R node) (hk : k ∈ node.keys) : ∃ row, R row ∧ row.key = k := by
  cases node with
  | leaf rows right =>
      obtain ⟨row, hrow, rfl⟩ := List.mem_map.mp hk
      exact ⟨row, h row hrow, rfl⟩
  | inner seps right =>
      obtain ⟨sep, hsep, rfl⟩ := List.mem_map.mp hk
      exact h sep hsep

theorem MadeOf.cutKey (h : MadeOf R node) (hcut : cutAt node ≠ 0) :
    ∃ row, R row ∧ row.key = cutKey node := by
  apply h.key
  rw [(keys_cut hcut).1]
  simp

theorem MadeOf.insertSep (h : MadeOf R (.inner (pre ++ post) right))
    (hkey : ∃ row, R row ∧ row.key = k) :
    MadeOf R (insertSep pre post right k n) := by
  have hold : ∀ sep ∈ pre ++ post, ∃ row, R row ∧ row.key = sep.key := h
  cases post with
  | nil =>
      intro sep hsep
      rcases List.mem_append.mp hsep with hsep | hsep
      · exact hold sep (List.mem_append_left _ hsep)
      · rwa [List.mem_singleton.mp hsep]
  | cons sep post =>
      intro sep' hsep
      simp only [List.mem_append, List.mem_cons] at hsep
      rcases hsep with hsep | rfl | rfl | hsep
      · exact hold sep' (List.mem_append_left _ hsep)
      · exact hkey
      · exact hold sep (List.mem_append_right _ (List.mem_cons_self ..))
      · exact hold sep' (List.mem_append_right _ (List.mem_cons_of_mem _ hsep))

/-- A separator takes its bytes and a slot from the space of a page. -/
theorem PageHolds.space_insertSep {pageSize : Nat} {parent new : Mem}
    (h : PageHolds type pageSize parent (.inner (pre ++ post) right))
    (hnew : PageHolds type pageSize new (insertSep pre post right k n)) :
    pageGetSpace new + (k.length + sizeofPageId + 2) = pageGetSpace parent := by
  have hbefore := h.space
  have hafter := hnew.space
  have hbytes : payloadBytes (insertSep pre post right k n) =
      payloadBytes (.inner (pre ++ post) right) + (k.length + sizeofPageId) := by
    cases post <;> simp [payloadBytes, payloads, insertSep] <;> omega
  rw [keys_insertSep] at hafter
  simp only [Node.keys, List.length_append, List.length_cons, List.length_map] at hbefore hafter
  omega

/-- And so does a row. -/
theorem PageHolds.space_row {pageSize : Nat} {data new : Mem} {rows rows' : List TreeRow}
    {row : TreeRow}
    (h : PageHolds type pageSize data (.leaf (rows ++ rows') right))
    (hnew : PageHolds type pageSize new (.leaf (rows ++ row :: rows') right)) :
    pageGetSpace new + (row.key.length + row.value.length + 2) = pageGetSpace data := by
  have hbefore := h.space
  have hafter := hnew.space
  simp only [Node.keys, List.length_append, List.length_cons, List.length_map,
    payloadBytes, payloads, List.map_append, List.map_cons, List.sum_append,
      List.sum_cons] at hbefore hafter
  omega

/-- A root over two halves has one separator. -/
theorem PageHolds.space_root {pageSize : Nat} {new : Mem} {c : PageId}
    (hnew : PageHolds type pageSize new (.inner [⟨c, k⟩] n)) :
    pageGetSpace new = pageSize - (sizeofHeader + 2 + (sizeofPageId + k.length)) := by
  have hspace := hnew.space
  simp only [Node.keys, List.map_cons, List.map_nil, List.length_cons,
    List.length_nil, payloadBytes, payloads, List.length_append, Mem.length_leList, List.sum_cons,
      List.sum_nil] at hspace
  omega

/-- The free space of a new tree is what is free. -/
theorem OneLeaf.space {s : Sys} {id : PageId} {data : Mem} (h : OneLeaf type s)
    (htype : IsTreeType type)
    (hsize : sizeofHeader ≤ s.tree.pageSize) (hdata : s.pageAt id = some data) :
    freeSpace data = pageGetSpace data := by
  have hholds := (h.pagesHold htype hsize).node id data hdata
  obtain ⟨page, hstore⟩ := h.store
  have hspace := hholds.space
  have hsmall := hholds.small
  simp only [Node.keys, List.map_nil, List.length_nil, payloadBytes, payloads,
    List.sum_nil] at hspace
  rw [hstore] at hdata
  by_cases hid : id = s.tree.root
  · rw [hid, Function.update_self, Option.some.injEq] at hdata
    have hfree : freeSpace (pageInitLeaf s.tree.pageSize page type) =
        u16 (s.tree.pageSize - sizeofHeader) :=
      freeSpace_pageInitLeaf page
    rw [hdata, u16_of_bounds] at hfree <;> omega
  · rw [Function.update_of_ne hid] at hdata
    cases hdata

/-- Pages that are cut evenly stay exact. -/
theorem pageRule_exact (type : Nat) (R : TreeRow → Prop) :
    PageRule type CutsEvenly R (Exact R) := by
  constructor
  · intro data node size h hsize
    rwa [← h.space]
  · intro pageSize data node stack next hholds h hcuts hid
    refine ⟨?_, h.made.takeTo _ _⟩
    have hle : cutAt node ≤ node.keys.length := Nat.div_le_self _ _
    have hlen := PageHolds.length_payloads node
    have hsmall := hholds.small
    have hspace := (hholds.splitLeft stack hid).space
    rw [Node.keys_takeTo, List.length_take, Nat.min_eq_left hle] at hspace
    have hbytes : cellBytes data 0 (cellCount data / 2) =
        payloadBytes (node.takeTo (cutAt node) next) := by
      rw [hholds.count, hholds.cellBytes (by omega), List.drop_zero, payloadBytes, payloads_takeTo]
      rfl
    rw [CutsEvenly, hbytes] at hcuts
    rw [hholds.freeSpace_splitLeft stack hid, u16_of_bounds] <;> omega
  · intro pageSize data node stack page next hholds h
    exact ⟨hholds.freeSpace_splitRight stack, h.made.dropTo _⟩
  · intro pageSize data node new c n hholds h hcut hnew hfree
    refine ⟨hfree.trans hnew.space_root.symm, fun sep hsep => ?_⟩
    rw [List.mem_singleton.mp hsep]
    exact h.made.cutKey hcut
  · intro pageSize data node parent pre post right new n h hcut hholds hparent hnew hfree
    refine ⟨?_, hparent.made.insertSep (h.made.cutKey hcut)⟩
    have hspace := hparent.space
    have htaken := hholds.space_insertSep hnew
    omega
  · intro pageSize data rows rows' right row new hholds h hrow hnew hfree
    refine ⟨?_, fun r hr => ?_⟩
    · have hspace := h.space
      have htaken := hholds.space_row hnew
      omega
    · simp only [List.mem_append, List.mem_cons] at hr
      rcases hr with hr | rfl | hr
      · exact h.made r (List.mem_append_left _ hr)
      · exact hrow
      · exact h.made r (List.mem_append_right _ hr)

end

/-! ### Slotted pages -/

/-- The end of a cell, as `payload_get_len` measures it. -/
def cellEnd (page : Mem) (i : Nat) : Nat :=
  pageCell page i + payloadGetLen (pageFlags page) (pageGetPayload page i)

/-- Header, slots and cells of a page fit each other, for cells of these bytes. -/
structure Slotted (pageSize : Nat) (page : Mem) (inserted : List Bytes) : Prop where
  count : cellCount page = inserted.length
  free : freeSpace page + sizeofHeader + 2 * cellCount page = dataStart page
  space : pageGetSpace page = freeSpace page
  slots : sizeofHeader + 2 * cellCount page ≤ dataStart page
  length : ∀ i bs, inserted[i]? = some bs →
    payloadGetLen (pageFlags page) (pageGetPayload page i) = bs.length
  holds : ∀ i bs, inserted[i]? = some bs → (pageGetPayload page i).Holds 0 bs
  apart : ∀ i j, i < j → j < cellCount page →
    cellEnd page i ≤ pageCell page j ∨ cellEnd page j ≤ pageCell page i
  tiled : ∀ k, (dataStart page ≤ k ∧ k < pageSize) ↔
    ∃ i < cellCount page, pageCell page i ≤ k ∧ k < cellEnd page i

/-- What was inserted for a cell: the row of an insert, or a separator with the
key of one. -/
inductive InsertedBy (es : List TreeEvent) (page : Mem) : Bytes → Prop where
  | row {key value : Blob} (hmem : .insert key value ∈ es)
      (hleaf : pageIsLeaf (pageFlags page) = true) :
      InsertedBy es page (key.bytes ++ value.bytes)
  | separator {key value : Blob} (child : PageId) (hmem : .insert key value ∈ es)
      (hinner : pageIsInner (pageFlags page) = true) :
      InsertedBy es page (Mem.leList sizeofPageId child ++ key.bytes)

/-- Every page is slotted, with cells of what the run has inserted. -/
def AllSlotted (es : List TreeEvent) (s : Sys) : Prop :=
  ∀ id data, s.pageAt id = some data →
    ∃ inserted, Slotted s.tree.pageSize data inserted ∧ ∀ bs ∈ inserted, InsertedBy es data bs

/-- The rows of the inserts that have returned. -/
def rowsOf (es : List TreeEvent) (row : TreeRow) : Prop :=
  ∃ key value, .insert key value ∈ es ∧ row = ⟨key.bytes, value.bytes⟩

section

variable {type pageSize : Nat} {page : Mem} {node : TreeNode} {nodes : PageId → TreeNode}
  {es : List TreeEvent}
  {s t : Sys}

theorem PageHolds.slotted (h : PageHolds type pageSize page node)
    (hexact : freeSpace page = pageGetSpace page) :
    Slotted pageSize page (payloads node) := by
  obtain ⟨cells, hcells, hlayout, -⟩ := h.cells
  have hcount := hlayout.count
  have hspace := hlayout.space
  have hlen : (payloads node).length = cells.length := by rw [← hcells, List.length_map]
  have hlength (i : Nat) (hi : i < cells.length) :
      Wednesday.payloadGetLen (pageFlags page) (pageGetPayload page i) = cells[i].2.length := by
    rw [h.payloadGetLen (hlen ▸ hi), List.getElem_of_eq hcells.symm (hlen ▸ hi), List.getElem_map]
  have hend (i : Nat) (hi : i < cells.length) :
      pageCell page i = cells[i].1 ∧ cellEnd page i = cells[i].1 + cells[i].2.length := by
    refine ⟨hlayout.slot i hi, ?_⟩
    rw [cellEnd, hlayout.slot i hi, hlength i hi]
  refine ⟨hcount.trans hlen.symm, ?_, hexact.symm, ?_, fun i bs hbs => ?_, fun i bs hbs => ?_,
    fun i j hij hj => ?_, fun k => ⟨fun ⟨hle, hlt⟩ => ?_, ?_⟩⟩
  · omega
  · omega
  · obtain ⟨hi, rfl⟩ := List.getElem?_eq_some_iff.mp hbs
    exact h.payloadGetLen hi
  · obtain ⟨hi, rfl⟩ := List.getElem?_eq_some_iff.mp hbs
    exact h.payload hi
  · rw [hcount] at hj
    obtain ⟨hci, hei⟩ := hend i (by omega)
    obtain ⟨hcj, hej⟩ := hend j hj
    rw [hci, hei, hcj, hej]
    exact List.pairwise_iff_getElem.mp hlayout.packed.apart i j (by omega) hj hij
  · obtain ⟨c, hc, hk⟩ := hlayout.packed.covered hle hlt
    obtain ⟨i, hi, rfl⟩ := List.getElem_of_mem hc
    obtain ⟨hci, hei⟩ := hend i hi
    refine ⟨i, by omega, ?_⟩
    rwa [hci, hei]
  · rintro ⟨i, hi, hle, hlt⟩
    rw [hcount] at hi
    obtain ⟨hci, hei⟩ := hend i hi
    have hinside := hlayout.packed.inside _ (List.getElem_mem hi)
    omega

theorem Everywhere.slotted (h : Everywhere (Exact (rowsOf es)) nodes s)
    (hnodes : PagesHold type nodes s) :
    AllSlotted es s := by
  intro id data hdata
  have hholds := hnodes.node id data hdata
  have hexact := h id data hdata
  refine ⟨_, hholds.slotted hexact.space, fun bs hbs => ?_⟩
  have hmade := hexact.made
  have hflags := hholds.flags
  cases hnode : nodes id with
  | leaf rows right =>
      rw [hnode] at hbs hmade hflags
      obtain ⟨row, hrow, rfl⟩ := List.mem_map.mp hbs
      obtain ⟨key, value, hmem, rfl⟩ := hmade row hrow
      refine .row hmem ?_
      rw [hflags, pageIsLeaf_leaf hholds.isType]
  | inner seps right =>
      rw [hnode] at hbs hmade hflags
      obtain ⟨sep, hsep, rfl⟩ := List.mem_map.mp hbs
      obtain ⟨row, ⟨key, value, hmem, rfl⟩, hkey⟩ := hmade sep hsep
      rw [← hkey]
      refine .separator sep.child hmem ?_
      rw [hflags, pageIsInner_inner hholds.isType]

end

/-! ### Runs -/

/-- Throughout an insert the pages are slotted and none is compacted, and the cell
in whose place a separator is put stays where it is. -/
structure Undisturbed (es : List TreeEvent) (key value : Blob) (s : Sys) : Prop where
  visits : ∀ above page t, Visit key value s above page t → AllSlotted es t
  reaches : ∀ page t, Reaches key value s page t → AllSlotted es t
  uncompacted : Uncompacted key value s
  next : ∀ parent index page t page' ptr, Visit key value s (some (parent, index)) page t →
    needsSplit (t.page page) key value = true → index ≠ cellCount (t.page parent) →
    pageInsertPayload t.stack t.tree.pageSize (t.page parent) index
      ((t.splitKey page t.pager.nextPage).size + sizeofPageId) = .ok (page', ptr) →
      pageCell page' (index + 1) = pageCell (t.page parent) index ∧
        ∀ k, pageCell (t.page parent) index ≤ k → page' k = t.page parent k

section

variable {type : Nat} {nodes : PageId → TreeNode} {es : List TreeEvent}
  {s s₀ : Sys} {key value : Blob}

theorem Cutting.undisturbed (h : Cutting type CutsEvenly key value s) (hok : s.PagerOk)
    (hnodes : PagesHold type nodes s) (hexact : Everywhere (Exact (rowsOf es)) nodes s) :
    Undisturbed es key value s := by
  have hrule := pageRule_exact type (rowsOf es)
  have hwalk := hrule.walkRule hexact h.splits.divides
  have hspace := hrule.uncompacted hexact hok hnodes h.pages h.splits.divides
  refine ⟨fun above page t hvisit => ?_, fun page t hreach => ?_, hspace, ?_⟩
  · obtain ⟨nodes', ht, -, hP⟩ := hvisit.keeps hwalk hok hnodes h.pages
    exact hP.slotted ht
  · obtain ⟨nodes', ht, hP⟩ := hreach.keeps hwalk hok hnodes h.pages
    exact hP.slotted ht
  · intro parent index page t page' ptr hvisit hfull hindex hpayload
    obtain ⟨nodes', ht, ⟨pre, post, right, hbelow⟩, -⟩ := hvisit.keeps hwalk hok hnodes h.pages
    have hholds := ht.onPage (hvisit.standing hok).holding (by simp [Above.held] : parent ∈ _)
    obtain rfl := hbelow.index
    rw [hbelow.enters.node] at hholds
    obtain ⟨cells, cells', hpre, hpost, hlayout⟩ := hholds.cells_append
      (by rw [payloads, List.map_append] : payloads (.inner (pre ++ post) right) = _)
    have hlen : cells.length = pre.length := by simpa using congrArg List.length hpre
    have hcount := hlayout.count
    rw [List.length_append] at hcount
    have hfree := pageInsertPayload_ok hpayload
    have hroom := hspace.parent parent pre.length page t hvisit hfull hfree
    obtain ⟨data, hdata, hopened⟩ := pageInsertPayload_opened t.stack hlayout hfree hroom
    rw [hlen] at hdata hopened
    obtain ⟨rfl, -⟩ := Prod.mk.inj (Except.ok.inj (hdata.symm.trans hpayload))
    have hlt : pre.length < cellCount (t.page parent) := by omega
    refine ⟨hopened.slotAfter _ le_rfl hlt, fun k hk => hopened.body k ?_⟩
    -- the cell stands behind the slots, the new one included
    have hmem : (cells ++ cells').get ⟨pre.length, by rw [List.length_append]; omega⟩ ∈
        cells ++ cells' :=
      List.get_mem ..
    have hinside := hlayout.packed.inside _ hmem
    have hslot := hlayout.slot pre.length (by rw [List.length_append]; omega)
    have hstart := hlayout.space
    rw [List.length_append] at hstart
    simp only [List.get_eq_getElem] at hinside
    omega

/-- In every run whose splits are even, all pages are slotted, and every insert
whose splits are even finds and leaves them so. -/
theorem slots_stay_exact (hcreated : TreeCreated type s₀) (htype : IsTreeType type)
    (hsize : sizeofHeader ≤ s₀.tree.pageSize) (hrun : Run (CuttingStep type CutsEvenly) s₀ es s) :
    AllSlotted es s ∧ ∀ key value, Cutting type CutsEvenly key value s →
      Undisturbed es key value s := by
  have hempty : Everywhere (Exact (rowsOf es)) (fun _ => .leaf [] 0) s₀ := fun id data hdata =>
    ⟨hcreated.oneLeaf.space htype hsize hdata, fun row hrow => absurd hrow (List.not_mem_nil)⟩
  obtain ⟨hok, nodes, hnodes, hexact⟩ :=
    (pageRule_exact type (rowsOf es)).run hcreated htype hsize hempty
    (fun key value hmem => ⟨key, value, hmem, rfl⟩) hrun
  exact ⟨hexact.slotted hnodes, fun key value hcutting => hcutting.undisturbed hok hnodes hexact⟩

end

/-! ### Computed runs -/

/-- The kind of the page an insert splits at the root. -/
def checksCut (cut : Nat → Mem → Bool) (key value : Blob) (s : Sys) : Bool :=
  match (fixRoot s).value? with
  | none => false
  | some (page, t) => !needsSplit (t.page page) key value || cut t.tree.pageSize (t.page page)

/-- Insert rows one after the other, each checked with its split. -/
def insertCutting (cut : Nat → Mem → Bool) (fuel : Nat) (s : Sys) (rows : List (Blob × Blob)) :
    Option Sys :=
  insertWhere (fun key value s => checksLeaf key value s && checksCut cut key value s) fuel s rows

section

variable {type : Nat} {cut : Nat → Mem → Bool} {s t : Sys} {key value : Blob}

theorem cutting_of_checks (hkey : KeyEncoded type key.bytes)
    (hvalue : ValueEncoded type value.bytes)
    (hleaf : checksLeaf key value s = true) (hcut : checksCut cut key value s = true) :
    Cutting type (fun pageSize page => cut pageSize page = true) key value s := by
  obtain ⟨page, p, t, u, hcheck⟩ := leafChecked_of_checksLeaf hleaf
  refine ⟨hkey, hvalue, (hcheck.insertable hkey hvalue).pages, fun above q v hvisit hfull => ?_⟩
  obtain ⟨rfl, rfl, rfl⟩ := hcheck.visits hvisit
  have hfix := Outcome.value?_eq_some.mpr hcheck.fix
  rw [checksCut, hfix] at hcut
  simpa [hfull] using hcut

theorem run_of_insertCutting {fuel : Nat} {rows : List (Blob × Blob)}
    (henc : ∀ row ∈ rows, KeyEncoded type row.1.bytes ∧ ValueEncoded type row.2.bytes)
    (h : insertCutting cut fuel s rows = some t) :
    Run (CuttingStep type fun pageSize page => cut pageSize page = true) s
      (rows.map fun row => .insert row.1 row.2) t := by
  refine (run_of_insertWhere h).mono fun s e t ⟨⟨row, hrow, he, hcheck⟩, hstep⟩ =>
    ⟨fun k v hkv => ?_, hstep⟩
  subst he
  obtain ⟨hleaf, hcut⟩ := Bool.and_eq_true_iff.mp hcheck
  rcases hkv with hkv | hkv <;> cases hkv
  exact cutting_of_checks (henc row hrow).1 (henc row hrow).2 hleaf hcut

/-- A table with some rows, inserted with checked splits. -/
theorem exists_insertCutting (cut : Nat → Mem → Bool) (pageSize : Nat) (rows : List (Blob × Blob))
    (hopen : PagerOpened (freshSys pageSize 16)) (hsize : pageSize < 65536)
    (hrows : ∀ row ∈ rows, KeyEncoded PAGE_FLAG_TABLE row.1.bytes ∧
      ValueEncoded PAGE_FLAG_TABLE row.2.bytes)
    {p : Sys → Sys → Bool}
    (h : ((createdTree PAGE_FLAG_TABLE pageSize 16).any fun s₀ =>
      (insertCutting cut 1 s₀ rows).any fun s => p s₀ s) = true) :
    ∃ s₀ s, TreeCreated PAGE_FLAG_TABLE s₀ ∧
      Run (CuttingStep PAGE_FLAG_TABLE fun pageSize page => cut pageSize page = true) s₀
        (rows.map fun row => .insert row.1 row.2) s ∧ p s₀ s = true := by
  obtain ⟨s₀, hcreated, h⟩ := Option.any_eq_true _ _ |>.mp h
  obtain ⟨s, hrun, hp⟩ := Option.any_eq_true _ _ |>.mp h
  exact ⟨s₀, s, treeCreated_of_createdTree hopen hsize hcreated,
    run_of_insertCutting hrows hrun, hp⟩

end

/-- A leaf with a row of half a page and a small one is cut between them. -/
theorem slots_stay_exact_once : ∃ s : Sys, s.tree.root = 3 ∧
    AllSlotted ([sizedRow 1 18, sizedRow 2 0, sizedRow 3 8].map fun row =>
      .insert row.1 row.2) s := by
  obtain ⟨s₀, s, hcreated, hrun, hp⟩ := exists_insertCutting
    (fun pageSize page => decide (CutsEvenly pageSize page)) 40
    [sizedRow 1 18, sizedRow 2 0, sizedRow 3 8]
    ⟨40, 16, ⟨0, 1, 2⟩, freshSys 40 16, _, by decide, rfl⟩ (by decide)
    (by
      simp only [List.mem_cons, List.not_mem_nil, or_false, forall_eq_or_imp, forall_eq]
      exact ⟨sizedRow_encoded (by decide) (by decide), sizedRow_encoded (by decide) (by decide),
        sizedRow_encoded (by decide) (by decide)⟩)
    (p := fun s₀ s => decide (s₀.tree.pageSize = 40) && decide (s.tree.root = 3))
    (by decide +kernel)
  simp only [Bool.and_eq_true, decide_eq_true_eq] at hp hrun
  refine ⟨s, hp.2, (slots_stay_exact hcreated (Or.inl rfl) ?_ hrun).1⟩
  rw [hp.1]
  decide

/-- A leaf of two equal rows is cut into pages of which one has more free space
than there is. -/
theorem equal_halves_not_exact : ¬ ∀ (s₀ s : Sys)
    (es : List TreeEvent), TreeCreated PAGE_FLAG_TABLE s₀ →
    sizeofHeader ≤ s₀.tree.pageSize →
    Run (CuttingStep PAGE_FLAG_TABLE fun _ page => 2 ≤ cellCount page) s₀ es s →
    AllSlotted es s := by
  intro h
  obtain ⟨s₀, s, hcreated, hrun, hp⟩ := exists_insertCutting
    (fun _ page => decide (2 ≤ cellCount page)) 40 [sizedRow 1 8, sizedRow 2 8, sizedRow 3 8]
    ⟨40, 16, ⟨0, 1, 2⟩, freshSys 40 16, _, by decide, rfl⟩ (by decide)
    (by
      simp only [List.mem_cons, List.not_mem_nil, or_false, forall_eq_or_imp, forall_eq]
      exact ⟨sizedRow_encoded (by decide) (by decide), sizedRow_encoded (by decide) (by decide),
        sizedRow_encoded (by decide) (by decide)⟩)
    (p := fun s₀ s => decide (s₀.tree.pageSize = 40) &&
      (s.pageAt 1).any fun page => decide (pageGetSpace page ≠ freeSpace page)) (by decide +kernel)
  simp only [Bool.and_eq_true, decide_eq_true_eq] at hp hrun
  obtain ⟨hsize, hpage⟩ := hp
  obtain ⟨page, hat, hne⟩ := Option.any_eq_true _ _ |>.mp hpage
  obtain ⟨inserted, hslotted, -⟩ := h s₀ s _ hcreated (by
    rw [hsize]
    decide) hrun 1 page hat
  exact (decide_eq_true_eq.mp hne) hslotted.space

end Wednesday
