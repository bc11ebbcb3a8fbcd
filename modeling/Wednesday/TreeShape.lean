import Wednesday.Lib.FenceTreeShape
import Wednesday.TreeSplits
import Wednesday.TreeTable

/-!
The shape of a table as a reader of its pages sees it. After runs in which the
pager has pages for every split and no page is compacted, the pages below the root
are a search tree by the ids of their keys.
-/

namespace Wednesday

open Lib Prog Pager FenceTree

/-- The pages a lookup of the key comes to. -/
inductive Searched (s : Sys) (key : Blob) : PageId → Prop where
  | root : Searched s key s.tree.root
  | child {id : PageId} {data : Mem} (h : Searched s key id) (hpage : s.pageAt id = some data)
      (hinner : pageIsInner (pageFlags data) = true) :
      Searched s key (childAt data (pageFindPointer data key).2)

/-- The pages stand for nodes, and those below the root are a search tree. A lookup
comes to no page 0, and beyond the last cell of a page only if that is the last of
its level. -/
structure TableShape (nodes : PageId → TreeNode) (s : Sys) : Prop where
  pages : PagesHold PAGE_FLAG_TABLE nodes s
  there : ∀ d id, Under nodes s.tree.root s.tree.root d id → s.pageAt id ≠ none
  tree : SearchTree keyId 0 nodes s.tree.root
  searches : ∀ key id, Searched s key id → id ≠ 0 ∧ ∀ data, s.pageAt id = some data →
    pageIsInner (pageFlags data) = true → (pageFindPointer data key).2 = cellCount data →
    Spine nodes s.tree.root id

section

variable {type : Nat} {nodes : PageId → TreeNode} {R : TreeRow → Prop} {s s₀ : Sys}
  {key : Blob} {id : PageId}
  {es : List TreeEvent} {data : Mem}

/-- A search passes the separators that compare below its key. -/
theorem Searched.descent (hnodes : PagesHold type nodes s) (h : Searched s key id) :
    Descent nodes s.tree.root (fun k => idCompare (keyId k) (varintGet key.data).1 < 0) id := by
  induction h with
  | root => exact .root
  | child _ hpage hinner ih =>
      obtain ⟨pre, post, right, henters, -, hchild, -⟩ :=
        (hnodes.node _ _ hpage).inner_search hinner key
      rw [hchild]
      exact .child ih henters.node henters.below fun sep hsep => not_lt.mpr (henters.above sep hsep)

/-- Behind the last cell a search has passed every separator. -/
theorem PageHolds.passed_all {pageSize : Nat} {node : TreeNode}
    (h : PageHolds type pageSize data node)
    (hinner : pageIsInner (pageFlags data) = true)
    (hend : (pageFindPointer data key).2 = cellCount data) :
    ∃ seps right, node = .inner seps right ∧
      ∀ sep ∈ seps, idCompare (keyId sep.key) (varintGet key.data).1 < 0 := by
  obtain ⟨pre, post, right, henters, hindex, -, -⟩ := h.inner_search hinner key
  have hcount := h.count
  rw [henters.node, Node.keys, List.length_map, List.length_append] at hcount
  obtain rfl : post = [] := List.eq_nil_of_length_eq_zero (by omega)
  refine ⟨pre, right, ?_, henters.below⟩
  rw [henters.node, List.append_nil]

/-- A tree of rows with short ids has the shape of a table. -/
theorem ShortTree.shape (h : ShortTree PAGE_FLAG_TABLE R s) {keys : List Bytes}
    (hrows : ∀ row, R row → row.key ∈ keys) :
    ∃ nodes, TableShape nodes s := by
  obtain ⟨nodes, F, hnodes, hfenced⟩ := h.fenced
  have hrank {id : PageId} {p : Place Nat} (hid : F.place id = some p) : ∀ k ∈ (nodes id).keys,
      idRank k = keyId k := by
    intro k hk
    obtain ⟨row, hrow, rfl⟩ := hfenced.keys id p hid k hk
    exact (shortId_of_lt (h.short row hrow)).2
  have htree : Tree keyId 0 nodes F.place s.tree.root F.height :=
    hfenced.tree.congr_key fun _ _ hid => hrank hid
  have hstored : KeysStored nodes F.place := by
    intro id p hid k hk
    obtain ⟨row, hrow, rfl⟩ := hfenced.keys id p hid k hk
    exact ⟨row, (hfenced.rows row).mpr hrow, rfl⟩
  have hlisted : ∀ id p, F.place id = some p → ∀ k ∈ (nodes id).keys, keyId k ∈ keys.map keyId := by
    intro id p hid k hk
    obtain ⟨row, hrow, rfl⟩ := hfenced.keys id p hid k hk
    exact List.mem_map_of_mem (hrows row hrow)
  have hends := htree.finite_upperEnds hlisted
  refine ⟨nodes, hnodes, fun d id hunder => ?_, htree.searchTree hstored hends,
    fun key id hsearched => ?_⟩
  · obtain ⟨p, hp, -⟩ := htree.below_place htree.root hunder
    exact hfenced.there id p hp
  · -- The order of the ranks tells which keys a search passes.
    have hcongr (a b : Bytes) (heq : idRank a = idRank b) :
        idCompare (keyId a) (varintGet key.data).1 < 0 ↔
          idCompare (keyId b) (varintGet key.data).1 < 0 := by
      unfold idRank at heq
      rw [idCompare, idCompare, Int.bmod_def, Int.bmod_def]
      omega
    obtain ⟨p, hp, hstop⟩ := hfenced.tree.descent_place hcongr (hsearched.descent hnodes)
    refine ⟨htree.notNull id p hp, fun data hpage hinner hend => ?_⟩
    obtain ⟨seps, right, hnode, hpassed⟩ := (hnodes.node id data hpage).passed_all hinner hend
    exact hfenced.tree.spine_of_passed hcongr hp hstop hnode hpassed

/-- After every run of inserts with distinct ids below `2 ^ 31`, for whose splits the
pager has pages and none of which compacts a page, the table has its shape. -/
theorem table_shape (hcreated : TreeCreated PAGE_FLAG_TABLE s₀)
    (hsize : sizeofHeader ≤ s₀.tree.pageSize)
    (hids : DistinctIds es) (hrun : Run (WholeStep PAGE_FLAG_TABLE) s₀ es s) :
    ∃ nodes, TableShape nodes s := by
  have htree := shortTree_of_run hcreated (Or.inl rfl) hsize hids hrun
  have hrows : ∀ row, rowsOf es row → row.key ∈ insertKeys es := by
    rintro row ⟨key, value, hmem, rfl⟩
    exact List.mem_filterMap.mpr ⟨_, hmem, rfl⟩
  exact htree.shape hrows

end

/-- The third row splits the root leaf. -/
theorem table_shape_once : ∃ (s₀ s : Sys) (nodes : PageId → TreeNode), s.tree.root ≠ s₀.tree.root ∧
    TableShape nodes s := by
  obtain ⟨s₀, s, page, t, hcreated, hrun, hvisit, hp⟩ :=
    exists_rowsVisited 40 [sizedRow 1 8, sizedRow 2 8, sizedRow 3 8]
      (sizedRow 4 8).1 (sizedRow 4 8).2
      ⟨40, 16, ⟨0, 1, 2⟩, freshSys 40 16, _, by decide, rfl⟩ (by decide)
      (by
        simp only [List.mem_cons, List.not_mem_nil, or_false, forall_eq_or_imp, forall_eq]
        exact ⟨sizedRow_encoded (by decide) (by decide), sizedRow_encoded (by decide) (by decide),
          sizedRow_encoded (by decide) (by decide)⟩)
      (p := fun (s₀ s : Sys) _ _ => decide (s₀.tree.pageSize = 40) &&
        decide (s.tree.root ≠ s₀.tree.root))
      (by decide +kernel)
  simp only [Bool.and_eq_true, decide_eq_true_eq] at hp
  obtain ⟨hsize, hroot⟩ := hp
  have hheader : sizeofHeader ≤ s₀.tree.pageSize := by
    rw [hsize]
    decide
  obtain ⟨nodes, hshape⟩ := table_shape hcreated hheader (by decide +kernel)
      (wholeRun_of_inserts hrun)
  exact ⟨s₀, s, nodes, hroot, hshape⟩

/-- A table with some rows. -/
def filledTable (pageSize : Nat) (rows : List (Blob × Blob)) : Option (Sys × Sys) := do
  let s₀ ← createdTree PAGE_FLAG_TABLE pageSize 16
  let s ← insertRows 2 s₀ rows
  some (s₀, s)

theorem exists_filledTable (pageSize : Nat) (rows : List (Blob × Blob))
    (hopen : PagerOpened (freshSys pageSize 16)) (hsize : pageSize < 65536) {p : Sys → Sys → Bool}
    (h : (filledTable pageSize rows).any (fun x => p x.1 x.2) = true) :
    ∃ s₀ s, TreeCreated PAGE_FLAG_TABLE s₀ ∧
      Run TreeStep s₀ (rows.map fun row => .insert row.1 row.2) s ∧
      p s₀ s = true := by
  obtain ⟨⟨s₀, s⟩, hsome, hp⟩ := Option.any_eq_true _ _ |>.mp h
  simp only [filledTable, Option.bind_eq_bind, Option.bind_eq_some_iff, Option.some.injEq,
    Prod.mk.injEq] at hsome
  obtain ⟨_, hcreated, _, hrun, rfl, rfl⟩ := hsome
  exact ⟨_, _, treeCreated_of_createdTree hopen hsize hcreated, run_of_insertRows hrun, hp⟩

/-- The left half of a split says that it has more space than there is, and the row
that takes it is written over its header. -/
theorem half_page_overwritten : ¬ ∀ (s₀ s : Sys)
    (es : List TreeEvent), TreeCreated PAGE_FLAG_TABLE s₀ →
    sizeofHeader ≤ s₀.tree.pageSize → DistinctIds es → Run TreeStep s₀ es s →
    (∀ e ∈ es, ∃ key value, e = .insert key value ∧ KeyEncoded PAGE_FLAG_TABLE key.bytes ∧
      ValueEncoded PAGE_FLAG_TABLE value.bytes ∧ sizeofHeader + 2 + key.size +
        value.size ≤ s₀.tree.pageSize) →
    ∃ nodes, TableShape nodes s := by
  intro h
  let sizes := [(1, 30), (2, 30), (3, 1), (4, 1), (5, 9), (0, 34)]
  obtain ⟨s₀, s, hcreated, hrun, hp⟩ := exists_filledTable 100 (sizes.map fun x => sizedRow x.1 x.2)
    ⟨100, 16, ⟨0, 1, 2⟩, freshSys 100 16, _, by decide, rfl⟩ (by decide)
    (p := fun s₀ s => decide (s₀.tree.pageSize = 100) && (s.pageAt s₀.tree.root).any fun data =>
      pageFlags data == 257)
    (by decide +kernel)
  simp only [Bool.and_eq_true, decide_eq_true_eq] at hp
  obtain ⟨hsize, hflags⟩ := hp
  obtain ⟨data, hpage, hflags⟩ := Option.any_eq_true _ _ |>.mp hflags
  obtain ⟨nodes, hshape⟩ := h s₀ s _ hcreated (by rw [hsize]; decide) (by decide +kernel) hrun (by
    intro e he
    obtain ⟨row, hrow, rfl⟩ := List.mem_map.mp he
    obtain ⟨⟨id, n⟩, hx, rfl⟩ := List.mem_map.mp hrow
    have hsmall : ∀ x ∈ sizes, x.1 < 128 ∧ x.2 ≤ 34 := by decide
    obtain ⟨hid, hn⟩ := hsmall _ hx
    obtain ⟨hkey, hvalue⟩ := sizedRow_encoded hid (show n < 128 by omega)
    refine ⟨_, _, rfl, hkey, hvalue, ?_⟩
    have hlength : (sizedRow id n).2.size = n + 1 := by simp [sizedRow, Blob.ofBytes]
    have hone : (sizedRow id n).1.size = 1 := rfl
    rw [hsize, hlength, hone, sizeofHeader]
    omega)
  have hnode := (hshape.pages.node _ data hpage).flags
  rw [beq_iff_eq.mp hflags] at hnode
  cases hkind : nodes s₀.tree.root with
  | leaf rows right =>
      rw [hkind] at hnode
      exact absurd (show 257 = PAGE_FLAG_TABLE ||| PAGE_FLAG_LEAF from hnode) (by decide)
  | inner seps right =>
      rw [hkind] at hnode
      exact absurd (show 257 = PAGE_FLAG_TABLE from hnode) (by decide)

end Wednesday
