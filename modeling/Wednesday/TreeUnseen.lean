import Wednesday.TreeTable

/-!
Splits are not seen by lookups. A split and its separator change the pages of a
table, but neither its rows nor their order, so every lookup answers as before.
-/

namespace Wednesday

open Lib Prog Pager FenceTree

/-- The bytes of the cells of a page, in the order of its slots. -/
def pageCells (page : Mem) : List Bytes :=
  (List.range (cellCount page)).map fun i =>
    (pageGetPayload page i).read 0 (payloadGetLen (pageFlags page) (pageGetPayload page i))

/-- The split of a page an insert visits, with what `makeRoom` does around it. -/
def splitVisited (key : Blob) (page : PageRef) : Above → Call PageRef
  | none => splitRoot page key
  | some (parent, index) => deferred (pagerUnfix parent) (splitChild parent page index key)

/-- The page above the split one has room for the separator and its slot. -/
def SeparatorRoom (t : Sys) (page : PageRef) (above : Above) : Prop :=
  ∀ parent index, above = some (parent, index) →
    (t.splitKey page t.pager.nextPage).size + sizeofPageId + 2 ≤ pageGetSpace (t.page parent)

/-- Lookups answer the same before and after the split of a page, whose cells are
those of its halves. -/
structure Unseen (t : Sys) (page : PageRef) (u : Sys) : Prop where
  cells : ∃ left right, u.pageAt page.id = some left ∧ u.pageAt t.pager.nextPage = some right ∧
    pageCells left ++ pageCells right = pageCells (t.page page)
  answers : ∀ key, KeyEncoded PAGE_FLAG_TABLE key.bytes → ∃ answer, Answers t key answer ∧
    Answers u key answer

section

variable {type pageSize : Nat} {nodes nodes' : PageId → TreeNode} {F F' : Fences}
  {R : TreeRow → Prop}
  {s s₀ t u : Sys} {page p : PageRef} {above : Above} {key value : Blob}
    {data : Mem} {node : TreeNode}
  {es : List TreeEvent}

theorem PageHolds.pageCells (h : PageHolds type pageSize data node) :
    Wednesday.pageCells data = payloads node := by
  have hcount := h.count
  have hlen := length_payloads node
  refine List.ext_getElem ?_ fun i hi hi' => ?_
  · rw [Wednesday.pageCells, List.length_map, List.length_range, hcount, hlen]
  · simp only [Wednesday.pageCells, List.getElem_map, List.getElem_range]
    rw [h.payloadGetLen hi']
    exact Mem.holds_iff_read.mp (h.payload hi')

/-- The halves of a page have its cells. -/
theorem splitStore_cells (hholds : PageHolds type t.tree.pageSize (t.page page) node)
    (hid : t.pager.nextPage < 2 ^ 32) (next : Mem) :
    pageCells (splitLeft t.stack t.tree.pageSize (t.page page) t.pager.nextPage) ++
        pageCells (splitRight t.stack t.tree.pageSize (t.page page) next t.pager.nextPage) =
      pageCells (t.page page) := by
  have hright : PageHolds type t.tree.pageSize
      (splitRight t.stack t.tree.pageSize (t.page page) next t.pager.nextPage)
      (node.dropTo (cutAt node)) :=
    hholds.splitRight t.stack
  rw [(hholds.splitLeft t.stack hid).pageCells, hright.pageCells, hholds.pageCells, payloads_takeTo,
    payloads_dropTo, List.take_append_drop]

theorem splitVisited_root (hheld : Holding [page] t) (hnew : NewPage 2 t)
    (hsplit : splitVisited key page none t = .success p u) : RootSplit key t page p u :=
  (splitRoot_pages hheld hnew).success hsplit

theorem splitVisited_child {parent : PageRef} {index : Nat} (hheld : Holding [page, parent] t)
    (hnew : NewPage 1 t)
    (hsplit : splitVisited key page (some (parent, index)) t = .success p u) :
    ChildSplit key t parent page index p u := by
  have hwp : wp (splitVisited key page (some (parent, index))) (ChildSplit key t parent page index)
      (fun _ => True) (fun _ => True) t := by
    rw [splitVisited, wp_deferred]
    refine wp_mono (splitChild_pages hheld hnew) (fun q v hv => ?_) (fun _ _ => wp_true)
      fun _ _ => trivial
    exact wp_mono hv (fun _ _ hu => hu) (fun _ _ => trivial) fun _ _ => trivial
  exact hwp.success hsplit

theorem splitVisited_pagerOk (hok : t.PagerOk)
    (hsplit : splitVisited key page above t = .success p u) :
    u.PagerOk := by
  cases above with
  | none => exact (kept_pagerOk.splitRoot _ _).success hok hsplit
  | some above =>
      exact (Preserves.deferred (preserves_pagerUnfix _) (kept_pagerOk.splitChild _ _ _ _)).success
        hok hsplit

/-- Two search trees of the same rows with short ids answer the same. -/
theorem Fenced.same_answers (ht : Fenced idRank R nodes F t) (hu : Fenced idRank R nodes' F' u)
    (hshort : ∀ row, R row → keyId row.key < 2 ^ 31) (hokT : t.PagerOk) (hokU : u.PagerOk)
    (hnodes : PagesHold type nodes t) (hnodes' : PagesHold type nodes' u)
    (hkey : KeyEncoded type key.bytes) :
    ∃ answer, Answers t key answer ∧ Answers u key answer := by
  have hown : (varintGet key.data).1 = keyId key.bytes :=
    (hkey.varintGet_of_holds (Blob.holds_bytes key)).2
  by_cases hid : ShortId key.bytes
  · have hin := inOrder_of_short hkey hid hshort
    by_cases hrow : ∃ row, R row ∧ idRank row.key = idRank key.bytes
    · obtain ⟨row, hrow, hrank⟩ := hrow
      exact ⟨_, ht.answers_row hin hokT hnodes hrow hrank,
        hu.answers_row hin hokU hnodes' hrow hrank⟩
    · have hnone : ∀ row, R row → idCompare (keyId row.key) (varintGet key.data).1 ≠ 0 :=
        fun row hR heq => hrow ⟨row, hR, (hin.eq ⟨row, hR, rfl⟩).mp heq⟩
      exact ⟨none, ht.answers_none hokT hnodes hnone, hu.answers_none hokU hnodes' hnone⟩
  · have hnone : ∀ row, R row → idCompare (keyId row.key) (varintGet key.data).1 ≠ 0 := by
      intro row hR
      rw [hown]
      exact idCompare_ne_zero (shortId_of_lt (hshort row hR)).1 hid
    exact ⟨none, ht.answers_none hokT hnodes hnone, hu.answers_none hokU hnodes' hnone⟩

/-- The pages on the way of an insert with a new short id. -/
theorem ShortTree.visit (h : ShortTree type R s) (hallowed : Insertable type key value s)
    (hid : keyId key.bytes < 2 ^ 31) (hnew : ∀ row, R row → keyId row.key ≠ keyId key.bytes)
    (hvisit : Visit key value s above page t) :
    ∃ nodes F, PagesHold type nodes t ∧ Hangs nodes (varintGet key.data).1 page above ∧
      OnWay idRank R key.bytes F above page t nodes := by
  obtain ⟨nodes, F, hnodes, hfenced⟩ := h.fenced
  have hin := inOrder_of_short hallowed.keyEncoded (shortId_of_lt hid).1 h.short
  have hapart := hfenced.splitsApart hin
      (h.fresh hid hnew) h.ok hnodes hallowed.pages hallowed.space
  obtain ⟨nodes', ht, hhangs, F', hway⟩ :=
    hvisit.keeps (hapart.walkRule hin hallowed.space hfenced) h.ok hnodes hallowed.pages
  exact ⟨nodes', F', ht, hhangs, hway⟩

/-- The split of a page on the way of an insert keeps a search tree of the same rows. -/
theorem OnWay.split (hway : OnWay idRank R key.bytes F above page t nodes)
    (ht : PagesHold type nodes t)
    (hin : InOrder type ShortId idRank R key) (hheld : Holding (page :: above.held) t)
    (hhangs : Hangs nodes (varintGet key.data).1 page above) (hspare : t.Spare above.newPages)
    (hroom : SeparatorRoom t page above) (hsplit : splitVisited key page above t = .success p u) :
    (∃ nodes' F', PagesHold type nodes' u ∧ Fenced idRank R nodes' F' u) ∧
      ∃ left right, u.pageAt page.id = some left ∧ u.pageAt t.pager.nextPage = some right ∧
        pageCells left ++ pageCells right = pageCells (t.page page) := by
  have hmem : page ∈ page :: above.held := List.mem_cons_self ..
  have hholds := ht.onPage hheld hmem
  have hhere : t.pageAt page.id ≠ none := by simp [hheld.pageAt hmem]
  have hne : page.id ≠ t.pager.nextPage := (ht.fresh _ hhere).ne
  have hid : t.pager.nextPage < 2 ^ 32 := hspare.nextPage_lt
  have hhalves (next : Mem) : ∃ left right, t.splitStore page next page.id = some left ∧
      t.splitStore page next t.pager.nextPage = some right ∧
      pageCells left ++ pageCells right = pageCells (t.page page) := by
    refine ⟨_, _, ?_, ?_, splitStore_cells hholds hid next⟩
    · rw [Sys.splitStore, Function.update_of_ne hne, Function.update_self]
    · rw [Sys.splitStore, Function.update_self]
  cases above with
  | none =>
      have hroot := splitVisited_root hheld (ht.newPage hspare) hsplit
      refine ⟨⟨_, _, ht.rootSplit hheld hmem hspare hroot, hroot.fenced hway.fenced ht hheld
        (hway.root rfl)⟩, ?_⟩
      obtain ⟨next, new, hstore⟩ := hroot.store
      have hnePage : page.id ≠ t.pager.nextPage + 1 :=
        ((ht.fresh _ hhere).trans (Nat.lt_succ_self _)).ne
      have hneNext : t.pager.nextPage ≠ t.pager.nextPage + 1 := (Nat.lt_succ_self _).ne
      rw [hstore, Function.update_of_ne hnePage, Function.update_of_ne hneNext]
      exact hhalves next
  | some above =>
      obtain ⟨parent, index⟩ := above
      have hheld' : Holding [page, parent] t := hheld
      obtain ⟨pre, post, right, hbelow⟩ := hhangs
      obtain rfl := hbelow.index
      have hchild := splitVisited_child hheld' (ht.newPage hspare) hsplit
      obtain ⟨r, q, hparent, hpost, hold, hlevel, -⟩ :=
        hway.fenced.enters hin (hway.parent parent _ rfl) hbelow.enters
      rw [← hbelow.child] at hold
      refine ⟨⟨_, _, ht.childSplit hheld' hspare hbelow.enters.node hbelow.child hchild
        fun _ => hroom parent _ rfl, hchild.fenced hway.fenced ht hheld' hbelow.enters.node
          hbelow.child hparent
          hpost hold hlevel⟩, ?_⟩
      obtain ⟨next, data, -, hstore⟩ := hchild.store
      have hthere : t.pageAt parent.id ≠ none := by
        simp [hheld'.pageAt (by simp : parent ∈ [page, parent])]
      have hneParent : page.id ≠ parent.id := by
        have hnodup := hheld'.nodup
        simpa using hnodup
      have hneNext : t.pager.nextPage ≠ parent.id := (ht.fresh _ hthere).ne'
      rw [hstore, Function.update_of_ne hneParent, Function.update_of_ne hneNext]
      exact hhalves next

/-- In every table reached by allowed inserts of distinct ids, no split on the way
of the next one is seen by a lookup. -/
theorem split_unseen (hcreated : TreeCreated PAGE_FLAG_TABLE s₀)
    (hsize : sizeofHeader ≤ s₀.tree.pageSize)
    (hrun : Run (WholeStep PAGE_FLAG_TABLE) s₀ es s)
    (hids : DistinctIds (es ++ [.insert key value]))
    (hallowed : Insertable PAGE_FLAG_TABLE key value s) (hvisit : Visit key value s above page t)
    (hspare : t.Spare above.newPages) (hroom : SeparatorRoom t page above)
    (hsplit : splitVisited key page above t = .success p u) : Unseen t page u := by
  have happend : insertIds (es ++ [.insert key value]) = insertIds es ++ [keyId key.bytes] := by
    rw [insertIds, List.filterMap_append]
    rfl
  obtain ⟨hnodup, hlt⟩ := hids
  rw [happend] at hnodup hlt
  rw [List.nodup_append] at hnodup
  have htree := shortTree_of_run hcreated (Or.inl rfl) hsize
    ⟨hnodup.1, fun id hid => hlt id (List.mem_append_left _ hid)⟩ hrun
  have hid : keyId key.bytes < 2 ^ 31 := hlt _ (List.mem_append_right _ (List.mem_singleton_self _))
  have hnew : ∀ row, rowsOf es row → keyId row.key ≠ keyId key.bytes := by
    rintro row ⟨k, v, hmem, rfl⟩
    refine hnodup.2.2 _ ?_ _ (List.mem_singleton_self _)
    exact List.mem_filterMap.mpr ⟨_, hmem, rfl⟩
  obtain ⟨nodes, F, ht, hhangs, hway⟩ := htree.visit hallowed hid hnew hvisit
  have hheld := (hvisit.standing htree.ok).holding
  have hin := inOrder_of_short hallowed.keyEncoded (shortId_of_lt hid).1 htree.short
  obtain ⟨⟨nodes', F', hu, hfenced⟩, hcells⟩ := hway.split ht hin hheld hhangs hspare hroom hsplit
  refine ⟨hcells, fun k hk => ?_⟩
  exact hway.fenced.same_answers hfenced htree.short hheld.ok
    (splitVisited_pagerOk hheld.ok hsplit) ht hu hk

end

/-- The split of a root leaf of two rows. -/
theorem split_unseen_once : ∃ (t : Sys) (page : PageRef) (u : Sys), cellCount (t.page page) = 2 ∧
    u.tree.root ≠ t.tree.root ∧ Unseen t page u := by
  obtain ⟨s₀, s, page, t, hcreated, hrun, hvisit, hp⟩ :=
    exists_rowsVisited 40 [sizedRow 1 8, sizedRow 2 8] (sizedRow 3 8).1 (sizedRow 3 8).2
      ⟨40, 16, ⟨0, 1, 2⟩, freshSys 40 16, _, by decide, rfl⟩ (by decide)
      (by
        simp only [List.mem_cons, List.not_mem_nil, or_false, forall_eq_or_imp, forall_eq]
        exact ⟨sizedRow_encoded (by decide) (by decide), sizedRow_encoded (by decide) (by decide)⟩)
      (p := fun s₀ s page t => checksLeaf (sizedRow 3 8).1 (sizedRow 3 8).2 s &&
        decide (s₀.tree.pageSize = 40) && decide (cellCount (t.page page) = 2) &&
        decide (t.pager.pageCount + 2 < t.pager.size ∧ 2 + t.pager.nextPage < 2 ^ 32) &&
        (splitVisited (sizedRow 3 8).1 page none t).value?.any fun x =>
          decide (x.2.tree.root ≠ t.tree.root))
      (by decide +kernel)
  simp only [Bool.and_eq_true, decide_eq_true_eq] at hp
  obtain ⟨⟨⟨⟨hcheck, hsize⟩, hcount⟩, hspare⟩, hsplit⟩ := hp
  obtain ⟨⟨p, u⟩, hsome, hroot⟩ := Option.any_eq_true _ _ |>.mp hsplit
  have henc := sizedRow_encoded (by decide : 3 < 128) (by decide : 8 < 128)
  have hwhole := wholeRun_of_inserts hrun
  refine ⟨t, page, u, hcount, decide_eq_true_eq.mp hroot, ?_⟩
  refine split_unseen hcreated ?_ hwhole (by decide +kernel)
    (insertable_of_checksLeaf henc.1 henc.2 hcheck)
    hvisit ⟨hspare.1, hspare.2⟩ (fun _ _ habove => by cases habove)
      (Outcome.value?_eq_some.mp hsome)
  rw [hsize]
  decide

/-- A table with some rows, the visit of a child by the insert of the next, and its split. -/
def childSplit (pageSize directorySize : Nat) (rows : List (Blob × Blob)) (key value : Blob) :
    Option (Sys × Sys × PageRef × Nat × PageRef × Sys × PageRef × Sys) := do
  let s₀ ← createdTree PAGE_FLAG_TABLE pageSize directorySize
  let s ← insertRows 2 s₀ rows
  let (parent, index, page, t) ← childVisit key value s
  let (p, u) ← (splitVisited key page (some (parent, index)) t).value?
  some (s₀, s, parent, index, page, t, p, u)

theorem exists_childSplit (pageSize directorySize : Nat) (rows : List (Blob × Blob))
    (key value : Blob)
    (hopen : PagerOpened (freshSys pageSize directorySize)) (hsize : pageSize < 65536)
    {p : Sys → PageRef → PageRef → Sys → Sys → Bool}
    (h : (childSplit pageSize directorySize rows key value).any (fun x =>
      p x.1 x.2.2.1 x.2.2.2.2.1 x.2.2.2.2.2.1 x.2.2.2.2.2.2.2) = true) :
    ∃ s₀ s parent index page t q u, TreeCreated PAGE_FLAG_TABLE s₀ ∧
      Run TreeStep s₀ (rows.map fun row => .insert row.1 row.2) s ∧
      Visit key value s (some (parent, index)) page t ∧
      splitVisited key page (some (parent, index)) t = .success q u ∧
        p s₀ parent page t u = true := by
  obtain ⟨⟨s₀, s, parent, index, page, t, q, u⟩, hsome, hp⟩ := Option.any_eq_true _ _ |>.mp h
  simp only [childSplit, Option.bind_eq_bind, Option.bind_eq_some_iff, Prod.exists,
    Outcome.value?_eq_some, Option.some.injEq, Prod.mk.injEq] at hsome
  obtain ⟨s₀', hcreated, s', hrows, parent', index', page', t', hvisit, q', u', hsplit,
      rfl, rfl, rfl, rfl, rfl,
    rfl, rfl, rfl⟩ := hsome
  exact ⟨s₀', s', parent', index', page', t', q', u',
    treeCreated_of_createdTree hopen hsize hcreated, run_of_insertRows hrows,
      visit_of_childVisit hvisit, hsplit, hp⟩

/-- With five frames the split of a leaf takes the frame of another one. -/
theorem split_takes_leaf : ¬ ∀ (s₀ s : Sys) (es : List TreeEvent) (key value : Blob) (above : Above)
    (page : PageRef) (t : Sys) (p : PageRef) (u : Sys), TreeCreated PAGE_FLAG_TABLE s₀ →
    sizeofHeader ≤ s₀.tree.pageSize → Run TreeStep s₀ es s →
      DistinctIds (es ++ [.insert key value]) →
    (∀ k v, .insert k v ∈ es ++ [.insert key value] →
      KeyEncoded PAGE_FLAG_TABLE k.bytes ∧ ValueEncoded PAGE_FLAG_TABLE v.bytes) →
    Visit key value s above page t → 2 ≤ cellCount (t.page page) → SeparatorRoom t page above →
    splitVisited key page above t = .success p u → Unseen t page u := by
  intro h
  obtain ⟨s₀, s, parent, index, page, t, p, u, hcreated, hrun, hvisit, hsplit, hp⟩ :=
    exists_childSplit 40 8 [sizedRow 1 8, sizedRow 2 8, sizedRow 3 8, sizedRow 4 8, sizedRow 5 8]
      (sizedRow 6 8).1 (sizedRow 6 8).2
      ⟨40, 8, ⟨0, 1, 2⟩, freshSys 40 8, _, by decide, rfl⟩ (by decide)
      (p := fun s₀ parent page t u => decide (s₀.tree.pageSize = 40) &&
        decide (2 ≤ cellCount (t.page page)) &&
        decide ((t.splitKey page t.pager.nextPage).size + sizeofPageId + 2 ≤
          pageGetSpace (t.page parent)) &&
        decide (lookupValue 3 (sizedRow 1 8).1 t.idle = some (some (sizedRow 1 8).2.bytes)) &&
        decide (lookupValue 3 (sizedRow 1 8).1 u.idle = some none))
      (by decide +kernel)
  simp only [Bool.and_eq_true, decide_eq_true_eq] at hp
  obtain ⟨⟨⟨⟨hsize, htwo⟩, hroom⟩, hbefore⟩, hafter⟩ := hp
  have hunseen := h s₀ s _ _ _ _ page t p u hcreated (by
      rw [hsize]
      decide) hrun (by decide +kernel) (by
      intro k v hmem
      simp only [List.map_cons, List.map_nil, List.cons_append, List.nil_append,
        List.mem_cons, List.not_mem_nil, or_false, TreeEvent.insert.injEq] at hmem
      rcases hmem with ⟨rfl, rfl⟩ | ⟨rfl, rfl⟩ | ⟨rfl, rfl⟩ | ⟨rfl, rfl⟩ | ⟨rfl, rfl⟩ |
        ⟨rfl, rfl⟩ <;>
        exact sizedRow_encoded (by decide) (by decide)) hvisit htwo (fun parent' index' habove => by
      obtain ⟨rfl, rfl⟩ := Prod.mk.inj (Option.some.inj habove)
      exact hroom) hsplit
  obtain ⟨answer, ht, hu⟩ := hunseen.answers (sizedRow 1 8).1
      (sizedRow_encoded (by decide) (by decide : 8 < 128)).1
  have hsome := ht.2 3 _ hbefore
  have hnone := hu.2 3 _ hafter
  rw [← hnone] at hsome
  cases hsome

end Wednesday
