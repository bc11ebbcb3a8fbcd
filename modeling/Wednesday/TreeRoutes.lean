import Wednesday.TreeSplits

/-!
The way of an insert and the route of a lookup. An insert chooses between the
halves of a page by its own comparison with the key the page was split at, a
lookup by the separator with that key. Where the two comparisons agree the
insert ends at the leaf to which lookups go from then on.
-/

namespace Wednesday

open Lib Prog Pager FenceTree

/-- The pages a search for an id enters, as the nodes have it. -/
inductive SearchPath (nodes : PageId → TreeNode) (x : Nat) : PageId → PageId → Prop where
  | refl (a : PageId) : SearchPath nodes x a a
  | snoc {a b : PageId} {pre post : List TreeSep} {right : PageId} (hpath : SearchPath nodes x a b)
      (henters : Enters (nodes b) x pre post right) : SearchPath nodes x a (childOf post right)

section

variable {type x : Nat} {nodes nodes' : PageId → TreeNode} {node : TreeNode} {s s₀ t u w : Sys}
  {page p parent : PageRef} {key value : Blob} {above : Above} {pre post pre' post' : List TreeSep}
  {right right' a b n leaf : PageId}

/-! ### Searches in a node -/

theorem append_cut_unique {α : Type} {P : α → Prop} {as bs as' bs' : List α}
    (heq : as ++ bs = as' ++ bs')
    (has : ∀ a ∈ as, P a) (hbs : ∀ b ∈ bs.head?, ¬ P b) (has' : ∀ a ∈ as', P a)
    (hbs' : ∀ b ∈ bs'.head?, ¬ P b) : as = as' ∧ bs = bs' := by
  induction as generalizing as' with
  | nil =>
      cases as' with
      | nil => exact ⟨rfl, heq⟩
      | cons a as' =>
          have hhead : a ∈ bs.head? := by
            rw [List.nil_append] at heq
            simp [heq]
          exact absurd (has' a (List.mem_cons_self ..)) (hbs a hhead)
  | cons a as ih =>
      cases as' with
      | nil =>
          have hhead : a ∈ bs'.head? := by
            rw [List.nil_append] at heq
            simp [← heq]
          exact absurd (has a (List.mem_cons_self ..)) (hbs' a hhead)
      | cons a' as' =>
          obtain ⟨rfl, htail⟩ := List.cons.inj heq
          obtain ⟨rfl, rfl⟩ := ih htail (fun b hb => has b (List.mem_cons_of_mem _ hb))
            fun b hb => has' b (List.mem_cons_of_mem _ hb)
          exact ⟨rfl, rfl⟩

theorem Enters.unique (h : Enters node x pre post right) (h' : Enters node x pre' post' right') :
    pre = pre' ∧ post = post' ∧ right = right' := by
  have hnode := h.node.symm.trans h'.node
  rw [Node.inner.injEq] at hnode
  have hnot {post : List TreeSep} (hpost : ∀ sep ∈ post.head?, 0 ≤ idCompare (keyId sep.key) x) :
      ∀ sep ∈ post.head?, ¬ idCompare (keyId sep.key) x < 0 :=
        fun sep hsep => not_lt.mpr (hpost sep hsep)
  have hcut := append_cut_unique hnode.1 h.below (hnot h.above) h'.below (hnot h'.above)
  exact ⟨hcut.1, hcut.2, hnode.2⟩

/-- Behind a new separator a search goes to the left of it exactly if it does
not compare below the id. -/
theorem Enters.insertSep (h : Enters node x pre post right) (s : Bytes) (n : PageId) :
    ∃ pre' post' right', Enters (insertSep pre post right s n) x pre' post' right' ∧
      childOf post' right' = if 0 ≤ idCompare (keyId s) x then childOf post right else n := by
  have hpre (c : PageId) (hs : ¬ 0 ≤ idCompare (keyId s) x) : ∀ sep ∈ pre ++ [⟨c, s⟩],
      idCompare (keyId sep.key) x < 0 := by
    intro sep hsep
    rcases List.mem_append.mp hsep with hsep | hsep
    · exact h.below sep hsep
    · rw [List.mem_singleton.mp hsep]
      exact not_le.mp hs
  split <;> rename_i hs
  · cases post with
    | nil => exact ⟨pre, [⟨right, s⟩], n, ⟨rfl, h.below, by simpa using hs⟩, rfl⟩
    | cons k post =>
        exact ⟨pre, ⟨k.child, s⟩ :: ⟨n, k.key⟩ :: post, right,
          ⟨rfl, h.below, by simpa using hs⟩, rfl⟩
  · cases post with
    | nil =>
        refine ⟨pre ++ [⟨right, s⟩], [], n, ⟨?_, hpre right hs, by simp⟩, rfl⟩
        rw [List.append_nil]
        rfl
    | cons k post =>
        refine ⟨pre ++ [⟨k.child, s⟩], ⟨n, k.key⟩ :: post, right, ⟨?_, hpre k.child hs, ?_⟩, rfl⟩
        · rw [List.append_assoc]
          rfl
        · simpa using h.above k (by simp)

/-! ### Paths -/

theorem SearchPath.there (h : SearchPath nodes x a b) (hnodes : PagesHold type nodes t)
    (ha : t.pageAt a ≠ none) :
    t.pageAt b ≠ none := by
  induction h with
  | refl => exact ha
  | snoc _ henters ih => exact hnodes.links _ ih _ (henters.node ▸ childOf_mem_links)

/-- A path stays one if only pages change that do not lie before its end. -/
theorem SearchPath.congr {rank : PageId → ℚ} (h : SearchPath nodes x a b)
    (hnodes : PagesHold type nodes t)
    (ha : t.pageAt a ≠ none)
    (hrank : ∀ id, t.pageAt id ≠ none → ∀ c ∈ (nodes id).links, rank id < rank c)
    (hsame : ∀ id, t.pageAt id ≠ none → rank id < rank b → nodes' id = nodes id) :
    SearchPath nodes' x a b := by
  induction h with
  | refl => exact .refl a
  | @snoc b pre post right hpath henters ih =>
      have hb := hpath.there hnodes ha
      have hlt : rank b < rank (childOf post right) :=
        hrank b hb _ (henters.node ▸ childOf_mem_links)
      have henters' : Enters (nodes' b) x pre post right := by rwa [hsame b hb hlt]
      exact .snoc (ih fun id hid hlow => hsame id hid (hlow.trans hlt)) henters'

theorem SearchPath.trans_route (h : SearchPath nodes (varintGet key.data).1 a b)
    (hnodes : PagesHold type nodes t)
    (ha : t.pageAt a ≠ none) (hroute : Route t key b leaf) : Route t key a leaf := by
  induction h with
  | refl => exact hroute
  | @snoc b pre post right hpath henters ih =>
      refine ih ?_
      obtain ⟨data, hdata⟩ := Option.ne_none_iff_exists'.mp (hpath.there hnodes ha)
      have hholds := hnodes.node b data hdata
      have hinner : pageIsInner (pageFlags data) = true := by
        rw [hholds.flags, henters.node]
        exact pageIsInner_inner hholds.isType _ _
      obtain ⟨pre', post', right', henters', -, hchild, -⟩ := hholds.inner_search hinner key
      obtain ⟨-, rfl, rfl⟩ := henters.unique henters'
      exact .inner hdata hinner (hchild ▸ hroute)

/-! ### The insert -/

/-- Where the insert splits a page, its key compares below the last cell of the
lower half exactly if that cell does not compare below the key. -/
def SidesAgree (key value : Blob) (s : Sys) : Prop :=
  ∀ above page t, Visit key value s above page t → needsSplit (t.page page) key value = true →
    (idCompare (varintGet key.data).1 (cellId (t.page page) (cellCount (t.page page) / 2 - 1)) < 0 ↔
      0 ≤ idCompare (cellId (t.page page) (cellCount (t.page page) / 2 - 1)) (varintGet key.data).1)

/-- The last cell of the lower half has the key the page is cut at. -/
theorem PageHolds.cellId_cut {pageSize : Nat} {data : Mem} (h : PageHolds type pageSize data node)
    (hcut : cellCount data / 2 ≠ 0) : Wednesday.cellId data (cellCount data / 2 - 1) =
    keyId (cutKey node) := by
  have hcount := h.count
  have hlt : cutAt node - 1 < node.keys.length := by
    rw [hcount] at hcut
    unfold cutAt
    omega
  rw [cutKey_eq hlt, ← h.cellId hlt, hcount]
  rfl

/-- The half a search enters behind the separator is the one the insert goes on with. -/
theorem chosenHalf_eq (h : PageHolds type t.tree.pageSize (t.page page) (nodes page.id))
    (hcut : cellCount (t.page page) / 2 ≠ 0) (hid : t.pager.nextPage < 2 ^ 32)
    (hagree : idCompare (varintGet key.data).1
        (cellId (t.page page) (cellCount (t.page page) / 2 - 1)) < 0 ↔
      0 ≤ idCompare (cellId (t.page page) (cellCount (t.page page) / 2 - 1))
        (varintGet key.data).1) :
    chosenHalf key (t.splitKey page t.pager.nextPage) page.id t.pager.nextPage =
      if 0 ≤ idCompare (keyId (cutKey (nodes page.id))) (varintGet key.data).1 then page.id
      else t.pager.nextPage := by
  have hcut' : cutAt (nodes page.id) ≠ 0 := by
    rwa [cutAt, ← h.count]
  unfold chosenHalf
  rw [Sys.splitKey, h.keyCompare_splitKey t.stack hcut' hid, ← h.cellId_cut hcut]
  simp only [hagree]

/-- The insert stands on the path its key has in the tree as it is. -/
theorem walkRule_path (hspace : Uncompacted key value s) (hagree : SidesAgree key value s) :
    WalkRule type key value s nodes
    (fun above page t nodes => SearchPath nodes (varintGet key.data).1 t.tree.root page.id ∧
      ∀ parent index, above = some (parent, index) →
        SearchPath nodes (varintGet key.data).1 t.tree.root parent.id)
    (fun p u nodes => SearchPath nodes (varintGet key.data).1 u.tree.root p.id) := by
  refine ⟨fun page t hid hsame => ?_, ?_, ?_,
    fun parent index page t _ hvisit _ _ _ => hspace.parent parent index page t hvisit⟩
  · rw [hsame.tree, hid]
    exact ⟨.refl _, fun _ _ habove => by cases habove⟩
  · intro above page t p u nodes nodes' hvisit hstand ht hspare hhangs hI hgrows hu
    have hholds := ht.onPage hstand.holding (List.mem_cons_self ..)
    cases hgrows with
    | stay _ _ htree _ =>
        rw [htree]
        exact hI.1
    | root hfull hsplit =>
        have hhalf := chosenHalf_eq hholds hsplit.divided (hspare hfull).nextPage_lt
          (hagree _ _ _ hvisit hfull)
        have hroot : rootNodes nodes page.id t.pager.nextPage u.tree.root =
            .inner [⟨page.id, cutKey (nodes page.id)⟩] t.pager.nextPage := by
          rw [hsplit.root, rootNodes, Function.update_self]
        rw [hsplit.half, hhalf]
        split <;> rename_i hs
        · have henters : Enters (rootNodes nodes page.id t.pager.nextPage u.tree.root)
              (varintGet key.data).1 [] [⟨page.id, cutKey (nodes page.id)⟩] t.pager.nextPage :=
            ⟨hroot, by simp, by simpa using hs⟩
          exact .snoc (.refl _) henters
        · have henters : Enters (rootNodes nodes page.id t.pager.nextPage u.tree.root)
              (varintGet key.data).1 [⟨page.id, cutKey (nodes page.id)⟩] [] t.pager.nextPage :=
            ⟨hroot, by simpa using hs, by simp⟩
          exact .snoc (.refl _) henters
    | @child parent page p index pre post right u hfull hbelow hsplit =>
        have hhalf := chosenHalf_eq hholds hsplit.divided (hspare hfull).nextPage_lt
          (hagree _ _ _ hvisit hfull)
        obtain ⟨rank, hrank⟩ := ht.acyclic
        have hheld : Holding [page, parent] t := hstand.holding
        have hparent : t.pageAt parent.id ≠ none := by
          simp [hheld.pageAt (by simp : parent ∈ [page, parent])]
        have hlt : rank parent.id < rank page.id := by
          refine hrank _ hparent _ ?_
          rw [hbelow.enters.node, hbelow.child]
          exact childOf_mem_links
        have hpath : SearchPath (childNodes nodes page.id t.pager.nextPage parent.id pre post right)
            (varintGet key.data).1 t.tree.root parent.id := by
          refine (hI.2 parent index rfl).congr ht ht.root hrank fun id hid hlow => ?_
          have hne : id ≠ parent.id := by
            rintro rfl
            exact lt_irrefl _ hlow
          have hne' : id ≠ page.id := by
            rintro rfl
            exact lt_asymm hlow hlt
          rw [childNodes, Function.update_of_ne hne, splitNodes, Function.update_of_ne
            (ht.fresh id hid).ne, Function.update_of_ne hne']
        obtain ⟨pre', post', right', henters, hchild⟩ :=
          hbelow.enters.insertSep (cutKey (nodes page.id)) t.pager.nextPage
        have henters' : Enters (childNodes nodes page.id t.pager.nextPage parent.id pre
            post right parent.id)
            (varintGet key.data).1 pre' post' right' := by
          rwa [childNodes, Function.update_self]
        rw [← hbelow.child] at hchild
        rw [hsplit.root, hsplit.half, hhalf, ← hchild]
        exact .snoc hpath henters'
  · intro page t child index u nodes hsettled ht hJ hhangs hsame
    obtain ⟨pre, post, right, hbelow⟩ := hhangs
    rw [hsame.tree, hbelow.child]
    refine ⟨.snoc hJ hbelow.enters, fun parent index' habove => ?_⟩
    obtain ⟨rfl, rfl⟩ := Prod.mk.inj (Option.some.inj habove)
    exact hJ

/-- A search from the root ends at a leaf with a path to it. -/
theorem SearchPath.route (h : SearchPath nodes (varintGet key.data).1 t.tree.root leaf)
    (hnodes : PagesHold type nodes t)
    {data : Mem} (hdata : t.pageAt leaf = some data) (hleaf : pageIsLeaf (pageFlags data) = true) :
    Route t key t.tree.root leaf :=
  h.trans_route hnodes hnodes.root (.leaf hdata hleaf)

theorem Reaches.route (hok : s.PagerOk) (h : PagesHold type nodes s)
    (hallowed : Insertable type key value s)
    (hagree : SidesAgree key value s) (hreach : Reaches key value s page t)
    (hleaf : pageIsLeaf (pageFlags (t.page page)) = true) :
    Route t key t.tree.root page.id ∧ ∀ u, PlacesRow key value page t u →
      Route u key u.tree.root page.id := by
  have hmem := List.mem_singleton_self page
  have hheld := (hreach.settled hok).holding
  obtain ⟨nodes', ht, hpath⟩ :=
    hreach.keeps (walkRule_path hallowed.space hagree) hok h hallowed.pages
  refine ⟨hpath.route ht (hheld.pageAt hmem) hleaf, fun u hplace => ?_⟩
  obtain ⟨rows, rows', right, hplaced⟩ := hplace.placed ht hheld hleaf hallowed.keyEncoded
    hallowed.valueEncoded (hallowed.space.leaf page t hreach hleaf)
  have hu := hplaced.pagesHold ht hheld
  obtain ⟨data, hdata, -, rfl⟩ := hplaced.written
  obtain ⟨rank, hrank⟩ := ht.acyclic
  -- the row changes the last page of the path only
  have hpath' : SearchPath (Function.update nodes' page.id
      (.leaf (rows ++ ⟨key.bytes, value.bytes⟩ :: rows') right)) _ _ _ :=
    hpath.congr ht ht.root hrank fun id _ hlow => Function.update_of_ne (by
      rintro rfl
      exact lt_irrefl _ hlow) _ _
  have hat : ((t.written page data).unfixed page).pageAt page.id = some data := by
    rw [pageAt_unfixed, hheld.pageAt_written hmem, Function.update_self]
  refine SearchPath.route (t := (t.written page data).unfixed page) hpath' hu hat ?_
  rw [hdata.flags]
  exact pageIsLeaf_leaf hdata.isType _ _

/-- The leaf at which the insert checks for the key is the one where lookups of the
key end in the tree as the insert leaves it. -/
structure SameLeaf (key value : Blob) (s : Sys) : Prop where
  checks : ∀ page t, Reaches key value s page t → pageIsLeaf (pageFlags (t.page page)) = true →
    Route t key t.tree.root page.id
  places : ∀ fuel w, btreeInsert fuel key value s = .success () w → ∃ page t u,
    Reaches key value s page t ∧ pageIsLeaf (pageFlags (t.page page)) = true ∧
      PlacesRow key value page t u ∧ Route w key w.tree.root page.id ∧
      ∀ n q, LookupEnds n key w q → q.id = page.id

/-- In every run whose inserts are allowed, the next insert and the lookups after it
go to the same leaf if the two comparisons agree wherever the insert splits a page. -/
theorem insert_and_lookup_agree {es : List TreeEvent} (hcreated : TreeCreated type s₀)
    (htype : IsTreeType type) (hsize : sizeofHeader ≤ s₀.tree.pageSize)
    (hrun : Run (AllowedStep type) s₀ es s) (hallowed : Insertable type key value s)
    (hagree : SidesAgree key value s) : SameLeaf key value s := by
  obtain ⟨hok, nodes, hnodes⟩ := allowedRun_pagesHold hcreated htype hsize hrun
  refine ⟨fun page t hreach hleaf => (hreach.route hok hnodes hallowed hagree hleaf).1,
    fun fuel w hinsert => ?_⟩
  obtain ⟨leaf, t, u, root, hreach, hleaf, hplace, hexit⟩ := btreeInsert_reaches hinsert
  have hsame := deferGuard_same hexit
  have hroute : Route w key w.tree.root leaf.id := by
    rw [hsame.tree]
    exact ((hreach.route hok hnodes hallowed hagree hleaf).2 u hplace).congr hsame.pageAt.symm
  refine ⟨leaf, t, u, hreach, hleaf, hplace, hroute, fun n q hends => ?_⟩
  obtain ⟨nodes', hw⟩ := hnodes.insert hok hallowed.pages hallowed.space hallowed.keyEncoded
    hallowed.valueEncoded hinsert
  have hwok : w.PagerOk := (kept_pagerOk.btreeInsert _ _ _).success hok hinsert
  exact (hends.route hwok hw).functional hroute

/-- The leaf a search comes to within so many pages. -/
def routeFrom (s : Sys) (key : Blob) : Nat → PageId → Option PageId
  | 0, _ => none
  | n + 1, id =>
      match s.pageAt id with
      | none => none
      | some data =>
          if pageIsLeaf (pageFlags data) then some id
          else routeFrom s key n (childAt data (pageFindPointer data key).2)

theorem route_of_routeFrom {n : Nat} (h : routeFrom s key n a = some leaf) :
    Route s key a leaf := by
  induction n generalizing a with
  | zero => cases h
  | succ n ih =>
      rw [routeFrom] at h
      cases hpage : s.pageAt a with
      | none => simp [hpage] at h
      | some data =>
          simp only [hpage] at h
          split at h <;> rename_i hleaf
          · obtain rfl := Option.some.inj h
            exact .leaf hpage hleaf
          · refine .inner hpage ?_ (ih h)
            rwa [pageIsInner_eq, Bool.not_eq_true', ← Bool.not_eq_true]

end

theorem insert_and_lookup_agree_once : ∃ s page t,
    Visit (sizedRow 3 8).1 (sizedRow 3 8).2 s none page t ∧
      needsSplit (t.page page) (sizedRow 3 8).1 (sizedRow 3 8).2 = true ∧
      SameLeaf (sizedRow 3 8).1 (sizedRow 3 8).2 s := by
  obtain ⟨s₀, s, page, t, hcreated, hrun, hvisit, hp⟩ :=
    exists_rowsVisited 40 [sizedRow 1 8, sizedRow 2 8] (sizedRow 3 8).1 (sizedRow 3 8).2
      ⟨40, 16, ⟨0, 1, 2⟩, freshSys 40 16, _, by decide, rfl⟩ (by decide)
      (by
        simp only [List.mem_cons, List.not_mem_nil, or_false, forall_eq_or_imp, forall_eq]
        exact ⟨sizedRow_encoded (by decide) (by decide), sizedRow_encoded (by decide) (by decide)⟩)
      (p := fun s₀ s page t => checksLeaf (sizedRow 3 8).1 (sizedRow 3 8).2 s &&
        needsSplit (t.page page) (sizedRow 3 8).1 (sizedRow 3 8).2 &&
        decide (s₀.tree.pageSize = 40) &&
        decide (cellId (t.page page) (cellCount (t.page page) / 2 - 1) = 1) &&
        decide ((varintGet (sizedRow 3 8).1.data).1 = 3))
      (by decide +kernel)
  simp only [Bool.and_eq_true, decide_eq_true_eq] at hp
  obtain ⟨⟨⟨⟨hcheck, hfull⟩, hsize⟩, hcell⟩, hkey⟩ := hp
  have henc := sizedRow_encoded (by decide : 3 < 128) (by decide : 8 < 128)
  obtain ⟨q, p, v, u, hchecked⟩ := leafChecked_of_checksLeaf hcheck
  refine ⟨s, page, t, hvisit, hfull, insert_and_lookup_agree hcreated (Or.inl rfl) ?_ hrun
    (hchecked.insertable henc.1 henc.2) fun above r x hvisit' _ => ?_⟩
  · rw [hsize]
    decide
  · obtain ⟨-, rfl, rfl⟩ := hchecked.visits hvisit
    obtain ⟨-, rfl, rfl⟩ := hchecked.visits hvisit'
    rw [hcell, hkey]
    decide

/-- The insert of the key a leaf is split at goes to the upper half, and the lookup
to the lower one. -/
theorem tie_splits_routes : ¬ ∀ (s₀ s : Sys) (es : List TreeEvent) (key value : Blob),
    TreeCreated PAGE_FLAG_TABLE s₀ → Run TreeStep s₀ es s →
    (∀ row row', .insert row row' ∈ es → keyId row.bytes < 2 ^ 31) → keyId key.bytes < 2 ^ 31 →
    KeyEncoded PAGE_FLAG_TABLE key.bytes → ValueEncoded PAGE_FLAG_TABLE value.bytes →
    SameLeaf key value s := by
  intro h
  obtain ⟨s₀, s, page, t, hcreated, hrun, hvisit, hp⟩ :=
    exists_rowsVisited 40 [sizedRow 1 8, sizedRow 2 8] (sizedRow 1 8).1 (sizedRow 1 8).2
      ⟨40, 16, ⟨0, 1, 2⟩, freshSys 40 16, _, by decide, rfl⟩ (by decide)
      (by
        simp only [List.mem_cons, List.not_mem_nil, or_false, forall_eq_or_imp, forall_eq]
        exact ⟨sizedRow_encoded (by decide) (by decide), sizedRow_encoded (by decide) (by decide)⟩)
      (p := fun _ _ page t =>
        ((makeRoom (sizedRow 1 8).1 (sizedRow 1 8).2 page none t).value?).any
        fun (x : PageRef × Sys) =>
          pageIsLeaf (pageFlags (x.2.page x.1)) && decide (x.1.id = 2) &&
          decide (routeFrom x.2 (sizedRow 1 8).1 2 x.2.tree.root = some 1))
      (by decide +kernel)
  obtain ⟨⟨q, u⟩, hroom, hq⟩ := Option.any_eq_true _ _ |>.mp hp
  simp only [Bool.and_eq_true, decide_eq_true_eq] at hq
  obtain ⟨⟨hleaf, hid⟩, hroute⟩ := hq
  have henc := sizedRow_encoded (by decide : 1 < 128) (by decide : 8 < 128)
  have hsame := h s₀ s _ (sizedRow 1 8).1 (sizedRow 1 8).2 hcreated
    (hrun.mono fun _ _ _ hstep => hstep.2) (fun row row' hrow => ?_) (by decide) henc.1 henc.2
  · have hchecks := hsame.checks q u ⟨none, page, t, hvisit, Outcome.value?_eq_some.mp hroom⟩ hleaf
    have hids := hchecks.functional (route_of_routeFrom hroute)
    rw [hid] at hids
    exact absurd hids (by decide)
  · simp only [List.map_cons, List.map_nil, List.mem_cons, List.not_mem_nil, or_false,
      TreeEvent.insert.injEq] at hrow
    rcases hrow with ⟨rfl, -⟩ | ⟨rfl, -⟩ <;> decide

end Wednesday
