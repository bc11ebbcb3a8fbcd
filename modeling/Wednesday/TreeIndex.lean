import Mathlib.Algebra.Group.Action.Defs
import Wednesday.TreeLatches
import Wednesday.TreeRows

/-!
Index trees, from UUIDs to page ids. All their cells have one size, so that
`page_compact` leaves less free space than there is and no page is compacted
again. Of a UUID `key_compare` sees the varint its first bytes are read as, so the
keys are kept as long as these order them.
-/

namespace Wednesday

open Lib Prog Pager FenceTree

/-- Between the keys of the list `key_compare` is a strict order and never 0. -/
def TellsApart (keys : List Bytes) : Prop :=
  OrdersList (fun a b => idCompare (keyId a) (keyId b) < 0) keys

instance (keys : List Bytes) : Decidable (TellsApart keys) :=
  inferInstanceAs (Decidable (OrdersList _ _))

/-- A row of an index whose splits the pager has pages for. -/
structure IndexRow (key value : Blob) (s : Sys) : Prop where
  uuid : key.size = sizeofUuid
  pageId : value.size = sizeofPageId
  pages : HasPages key value s

/-- A call on an index. No root is left cut in two. -/
def IndexStep (s : Sys) (e : TreeEvent) (t : Sys) : Prop :=
  (∀ key value, e = .insert key value ∨ e = .insertFails key value → IndexRow key value s) ∧
    (∀ key value, e = .insertFails key value → ¬ HalvesRoot key value s) ∧ TreeStep s e t

/-- The pager refuses the insert a page. -/
inductive InsertRefused (key value : Blob) (s : Sys) : Prop where
  | root {t : Sys} (hfix : fixRoot s = .failure t)
  | half {root : PageRef} {t u : Sys} (hfix : fixRoot s = .success root t)
      (hfull : needsSplit (t.page root) key value = true) (hrefuse : treeNext t = .failure u)
  | newRoot (hhalves : HalvesRoot key value s)
  | below (hrefused : RefusedBelow key value s)

/-- The insert does not come to its key, and fails only if the pager refuses it a page. -/
structure TakesKey (key value : Blob) (s : Sys) : Prop where
  new : ¬ MeetsKey key value s
  fails : ∀ fuel t, btreeInsert fuel key value s = .failure t → InsertRefused key value s

section

variable {type fuel pageSize : Nat} {K : Bytes → Prop} {rank : Bytes → Nat} {R : TreeRow → Prop}
  {nodes : PageId → TreeNode} {s s₀ t : Sys} {key value : Blob} {es : List TreeEvent}
    {e : TreeEvent}
  {node : TreeNode} {data : Mem}

/-! ### New keys -/

/-- An insert that fails has come to its key or was refused a page. -/
theorem btreeInsert_fails_refused (hkey : ¬ MeetsKey key value s)
    (hfail : btreeInsert fuel key value s = .failure t) : InsertRefused key value s := by
  rcases btreeInsert_failure_cases hfail with hfix |
    ⟨root, u, v, hfix, hfull, hsplit, -⟩ | ⟨_, u, hbelow, -⟩
  · exact .root hfix
  · rcases splitRoot_failure hsplit with hrefuse | ⟨split, w, x, hnext, hrefuse⟩
    · obtain ⟨w, e, hrefuse, -⟩ := tryCall_eq_failure hrefuse
      exact .half hfix hfull hrefuse
    · exact .newRoot ⟨root, u, split, w, x, hfix, hfull, hnext, hrefuse⟩
  · exact .below (hbelow.cause.resolve_left hkey)

/-- An insert of a new key comes to no page with its key. -/
theorem OrderedTree.takesKey (h : OrderedTree type K rank R s) (ho : Orders K rank)
    (hallowed : Insertable type key value s) (hown : K key.bytes)
    (hnew : ∀ row, R row → rank row.key ≠ rank key.bytes) : TakesKey key value s := by
  have hkey : ¬ MeetsKey key value s := by
    rintro ⟨page, t, hreach, hfound⟩
    obtain ⟨nodes, F, hnodes, hfenced⟩ := h.fenced
    have hin := h.inOrder ho hallowed.keyEncoded hown
    obtain ⟨nodes', F', ht, hfenced', hcovers⟩ :=
      hreach.fenced hin (h.splitsApart ho hallowed hown hnew) h.ok
      hnodes hallowed.pages hallowed.space hfenced
    have hheld := (hreach.settled h.ok).holding
    obtain ⟨row, hrow, hrank⟩ := hfenced'.row_of_found hin hcovers
      (ht.onPage hheld (List.mem_singleton_self page)) hfound
    exact hnew row hrow hrank
  exact ⟨hkey, fun _ _ hfail => btreeInsert_fails_refused hkey hfail⟩

/-! ### Cells of one size -/

/-- The page has at least the space that its header says is free. -/
def Modest (data : Mem) (_ : TreeNode) : Prop := freeSpace data ≤ pageGetSpace data

theorem payloadBytes_index (h : Encoded PAGE_FLAG_INDEX_UUID node) :
    payloadBytes node = (sizeofUuid + sizeofPageId) * node.keys.length := by
  have hlen : ∀ bs ∈ payloads node, bs.length = sizeofUuid + sizeofPageId := by
    cases node with
    | leaf rows right =>
        intro bs hbs
        obtain ⟨row, hrow, rfl⟩ := List.mem_map.mp hbs
        obtain ⟨hkey, hvalue⟩ := h row hrow
        rw [KeyEncoded, if_pos rfl] at hkey
        rw [ValueEncoded, if_pos rfl] at hvalue
        rw [List.length_append, hkey, hvalue]
    | inner seps right =>
        intro bs hbs
        obtain ⟨sep, hsep, rfl⟩ := List.mem_map.mp hbs
        have hkey := (h sep hsep).1
        rw [KeyEncoded, if_pos rfl] at hkey
        rw [List.length_append, Mem.length_leList, hkey]
        rfl
  have hmap : ∀ n ∈ (payloads node).map List.length, n = sizeofUuid + sizeofPageId := by
    intro n hn
    obtain ⟨bs, hbs, rfl⟩ := List.mem_map.mp hn
    exact hlen bs hbs
  rw [payloadBytes, List.sum_eq_card_nsmul _ _ hmap, List.length_map,
    PageHolds.length_payloads, smul_eq_mul, Nat.mul_comm]

/-- On such pages `page_compact` finds no less free than it says: the lower half of
the cells does not take more than half of a page. -/
theorem pageRule_modest :
    PageRule PAGE_FLAG_INDEX_UUID (fun _ page => cellCount page / 2 ≠ 0)
      (fun _ => True) Modest := by
  constructor
  · intro data node size h hsize
    exact hsize.trans h
  · intro pageSize data node stack next hholds h hcuts hid
    have hleft := hholds.splitLeft stack hid
    have hbytes := payloadBytes_index hholds.encoded
    have hbytes' := payloadBytes_index hleft.encoded
    have hspace := hholds.space
    have hspace' := hleft.space
    have hsmall := hholds.small
    have hle : cutAt node ≤ node.keys.length := Nat.div_le_self _ _
    have hcut : cutAt node ≠ 0 := by
      rwa [cutAt, ← hholds.count]
    rw [Node.keys_takeTo, List.length_take, Nat.min_eq_left hle] at hbytes' hspace'
    show freeSpace (splitLeft stack pageSize data next) ≤ _
    have hhalf : 2 * cutAt node ≤ node.keys.length := Nat.mul_div_le _ _
    simp only [sizeofUuid, sizeofPageId, sizeofHeader] at *
    rw [hholds.freeSpace_splitLeft stack hid, u16_of_bounds] <;> simp only [sizeofHeader] <;> omega
  · intro pageSize data node stack page next hholds _
    exact (hholds.freeSpace_splitRight stack).le
  · intro pageSize data node new c n _ _ _ hnew hfree
    exact (hfree.trans hnew.space_root.symm).le
  · intro pageSize data node parent pre post right new n _ _ hholds h hnew hfree
    have hspace : freeSpace parent ≤ pageGetSpace parent := h
    have htaken := hholds.space_insertSep hnew
    show freeSpace new ≤ pageGetSpace new
    omega
  · intro pageSize data rows rows' right row new hholds h _ hnew hfree
    have hspace : freeSpace data ≤ pageGetSpace data := h
    have htaken := hholds.space_row hnew
    show freeSpace new ≤ pageGetSpace new
    omega

/-! ### Runs on an index -/

/-- What stays true of the pages of an index. -/
def ModestPages (s : Sys) : Prop :=
  s.PagerOk ∧ ∃ nodes, PagesHold PAGE_FLAG_INDEX_UUID nodes s ∧ Everywhere Modest nodes s

theorem divides_modest (key value : Blob) (s : Sys) :
    DividesOnly (fun _ page => cellCount page / 2 ≠ 0) key value s :=
  fun _ _ _ _ _ hdivided => hdivided

theorem IndexRow.insertable (h : IndexRow key value s) (hpages : ModestPages s) :
    Insertable PAGE_FLAG_INDEX_UUID key value s := by
  obtain ⟨hok, nodes, hnodes, hmodest⟩ := hpages
  refine ⟨?_, ?_, h.pages, pageRule_modest.uncompacted hmodest hok hnodes h.pages
    (divides_modest key value s)⟩
  · rw [KeyEncoded, if_pos rfl, Blob.length_bytes, h.uuid]
  · rw [ValueEncoded, if_pos rfl, Blob.length_bytes, h.pageId]

theorem ModestPages.step (h : ModestPages s) (hstep : IndexStep s e t) : ModestPages t := by
  obtain ⟨hrows, hwhole, hstep⟩ := hstep
  have hinsertable {key value : Blob} (he : e = .insert key value ∨ e = .insertFails key value) :=
    (hrows key value he).insertable h
  refine ⟨hstep.pagerOk h.1, ?_⟩
  obtain ⟨hok, nodes, hnodes, hmodest⟩ := h
  have hstay (hsame : SamePages s t) :
      ∃ nodes', PagesHold PAGE_FLAG_INDEX_UUID nodes' t ∧ Everywhere Modest nodes' t :=
    ⟨nodes, hnodes.same hsame, hmodest.same hsame⟩
  cases hstep with
  | @insert _ fuel key value hrun =>
      have hallowed := hinsertable (Or.inl rfl)
      exact pageRule_modest.insert hmodest hok hnodes hallowed.pages (divides_modest key value s)
        hallowed.keyEncoded hallowed.valueEncoded trivial hrun
  | @insertFails _ fuel key value hrun =>
      have hallowed := hinsertable (Or.inr rfl)
      rcases btreeInsert_failure hrun with hfix | ⟨root, u, hfails, hexit⟩
      · exact hstay (fixRoot_fails hok hnodes hfix)
      · obtain ⟨v, nodes', hv, hfail, hway⟩ := hfails.keeps
          (pageRule_modest.walkRule hmodest (divides_modest key value s)) hnodes hok hallowed.pages
          (hwhole key value rfl)
        have hsame := hfail.trans (deferGuard_same hexit)
        rcases hway with ⟨_, _, hmodest'⟩ | ⟨_, hmodest'⟩
        · exact ⟨nodes', hv.same hsame, hmodest'.same hsame⟩
        · exact ⟨nodes', hv.same hsame, hmodest'.same hsame⟩
  | lookup hrun => exact hstay ((btreeLookup_route hok hnodes).success hrun).1.same
  | lookupFails hrun => exact hstay ((btreeLookup_route hok hnodes).failure hrun).1.same
  | errorClear => exact hstay ((SamePages.refl s).err _)
  | scratch stack => exact hstay ⟨rfl, rfl, le_rfl⟩

theorem TreeCreated.modestPages (h : TreeCreated PAGE_FLAG_INDEX_UUID s₀)
    (hsize : sizeofHeader ≤ s₀.tree.pageSize) : ModestPages s₀ := by
  refine ⟨h.pagerOk, _, h.oneLeaf.pagesHold (Or.inr rfl) hsize, fun id data hdata => ?_⟩
  exact (h.oneLeaf.space (Or.inr rfl) hsize hdata).le

/-- No call of a run on an index compacts a page. -/
theorem indexRun_whole (hcreated : TreeCreated PAGE_FLAG_INDEX_UUID s₀)
    (hsize : sizeofHeader ≤ s₀.tree.pageSize) (hrun : Run IndexStep s₀ es s) :
    ModestPages s ∧ Run (WholeStep PAGE_FLAG_INDEX_UUID) s₀ es s := by
  have hstart := hcreated.modestPages hsize
  refine ⟨hrun.invariant (fun _ _ _ hs hstep => hs.step hstep) hstart, ?_⟩
  refine (hrun.strengthen (fun _ _ _ hs hstep => hs.step hstep) hstart).mono ?_
  rintro s e t ⟨hs, hrows, hwhole, hstep⟩
  refine ⟨⟨?_, hstep⟩, hwhole⟩
  cases hstep with
  | insert hrun => exact (hrows _ _ (Or.inl rfl)).insertable hs
  | insertFails hrun => exact (hrows _ _ (Or.inr rfl)).insertable hs
  | lookup _ => trivial
  | lookupFails _ => trivial
  | errorClear => trivial
  | scratch _ => trivial

/-! ### What an index keeps -/

/-- By their ranks the keys are in the order of `key_compare`. -/
def uuidRank (keys : List Bytes) : Bytes → Nat :=
  listRank (fun a b => idCompare (keyId a) (keyId b) < 0) keys

theorem TellsApart.orders {keys : List Bytes} (h : TellsApart keys) :
    Orders (· ∈ keys) (uuidRank keys) :=
  orders_listRank (fun _ => rfl) h

theorem TellsApart.apart {keys : List Bytes} (h : TellsApart keys) :
    keys.Pairwise fun a b => uuidRank keys a ≠ uuidRank keys b :=
  h.nodup.imp_of_mem fun ha hb hne heq => hne (h.rank_injective ha hb heq)

/-- After a run on an index whose keys `key_compare` tells apart, every UUID inserted
is found with its page id, and an insert of one that it tells apart from them does not
come to its key. -/
theorem uuids_kept (hcreated : TreeCreated PAGE_FLAG_INDEX_UUID s₀)
    (hsize : sizeofHeader ≤ s₀.tree.pageSize)
    (hrun : Run IndexStep s₀ es s) (hapart : TellsApart (insertKeys es)) :
    (∀ key value, .insert key value ∈ es → Answers s key (some value.bytes)) ∧
      ∀ key value, IndexRow key value s → TellsApart (insertKeys es ++ [key.bytes]) →
        TakesKey key value s := by
  obtain ⟨hmodest, hwhole⟩ := indexRun_whole hcreated hsize hrun
  constructor
  · intro key value hmem
    have hkey : key.bytes ∈ insertKeys es := List.mem_filterMap.mpr ⟨_, hmem, rfl⟩
    have htree := orderedTree_of_run hapart.orders hcreated (Or.inr rfl) hsize
        (fun _ hk => hk) hapart.apart hwhole
    obtain ⟨nodes, F, hnodes, hfenced⟩ := htree.fenced
    obtain ⟨u, v, hallowed, -⟩ := (hwhole.mono fun _ _ _ hstep => hstep.1).exists_step hmem
    have hin := htree.inOrder hapart.orders (Insertable.keyEncoded hallowed) hkey
    exact hfenced.answers_row hin htree.ok hnodes ⟨key, value, hmem, rfl⟩ rfl
  · intro key value hrow hnext
    have hpairs := hnext.apart
    obtain ⟨hold, -, hnew⟩ := List.pairwise_append.mp hpairs
    have htree := orderedTree_of_run hnext.orders hcreated (Or.inr rfl) hsize
      (fun _ hk => List.mem_append_left _ hk) hold hwhole
    refine htree.takesKey hnext.orders (hrow.insertable hmodest) (by simp) ?_
    rintro row ⟨k, v, hmem, rfl⟩
    exact hnew _ (List.mem_filterMap.mpr ⟨_, hmem, rfl⟩) _ (List.mem_singleton_self _)

end

/-! ### Computed runs -/

/-- A UUID with the two given bytes first, and a page id. -/
def uuidRow (first second id : Nat) : Blob × Blob :=
  (Blob.ofBytes (UInt8.ofNat first :: UInt8.ofNat second :: List.replicate 14 0),
    Blob.ofBytes [UInt8.ofNat id, 0, 0, 0])

theorem uuidRow_encoded (first second id : Nat) :
    KeyEncoded PAGE_FLAG_INDEX_UUID (uuidRow first second id).1.bytes ∧
      ValueEncoded PAGE_FLAG_INDEX_UUID (uuidRow first second id).2.bytes := by
  rw [KeyEncoded, ValueEncoded, if_pos rfl, if_pos rfl, uuidRow,
    Blob.bytes_ofBytes, Blob.bytes_ofBytes]
  exact ⟨rfl, rfl⟩

theorem indexRow_of_checksLeaf {first second id : Nat} {s : Sys}
    (h : checksLeaf (uuidRow first second id).1 (uuidRow first second id).2 s = true) :
    IndexRow (uuidRow first second id).1 (uuidRow first second id).2 s := by
  obtain ⟨hkey, hvalue⟩ := uuidRow_encoded first second id
  exact ⟨rfl, rfl, (insertable_of_checksLeaf hkey hvalue h).pages⟩

/-- An index with some rows. -/
def filledIndex (pageSize : Nat) (rows : List (Nat × Nat × Nat)) : Option (Sys × Sys) := do
  let s₀ ← createdTree PAGE_FLAG_INDEX_UUID pageSize 16
  let s ← insertChecked 1 s₀ (rows.map fun row => uuidRow row.1 row.2.1 row.2.2)
  some (s₀, s)

theorem exists_filledIndex (pageSize : Nat) (rows : List (Nat × Nat × Nat))
    (hopen : PagerOpened (freshSys pageSize 16)) (hsize : pageSize < 65536) {p : Sys → Sys → Bool}
    (h : (filledIndex pageSize rows).any (fun x => p x.1 x.2) = true) :
    ∃ s₀ s, TreeCreated PAGE_FLAG_INDEX_UUID s₀ ∧
      Run IndexStep s₀ ((rows.map fun row => uuidRow row.1 row.2.1 row.2.2).map fun row =>
        .insert row.1 row.2) s ∧
      p s₀ s = true := by
  obtain ⟨⟨s₀, s⟩, hsome, hp⟩ := Option.any_eq_true _ _ |>.mp h
  simp only [filledIndex, Option.bind_eq_bind, Option.bind_eq_some_iff, Option.some.injEq,
    Prod.mk.injEq] at hsome
  obtain ⟨_, hcreated, _, hrun, rfl, rfl⟩ := hsome
  refine ⟨_, _, treeCreated_of_createdTree hopen hsize hcreated, ?_, hp⟩
  have hrows : ∀ row ∈ rows.map fun row => uuidRow row.1 row.2.1 row.2.2,
      KeyEncoded PAGE_FLAG_INDEX_UUID row.1.bytes ∧
        ValueEncoded PAGE_FLAG_INDEX_UUID row.2.bytes := by
    intro row hrow
    obtain ⟨x, -, rfl⟩ := List.mem_map.mp hrow
    exact uuidRow_encoded x.1 x.2.1 x.2.2
  refine (run_of_insertChecked hrows hrun).events.mono ?_
  rintro u e v ⟨hmem, hallowed, hstep⟩
  obtain ⟨row, hrow, rfl⟩ := List.mem_map.mp hmem
  obtain ⟨x, -, rfl⟩ := List.mem_map.mp hrow
  refine ⟨?_, fun _ _ he => (by cases he), hstep⟩
  rintro key value (he | he)
  · cases he
    exact ⟨rfl, rfl, hallowed.pages⟩
  · cases he

theorem uuids_kept_once : ∃ s, Answers s (uuidRow 1 0 7).1 (some (uuidRow 1 0 7).2.bytes) ∧
    TakesKey (uuidRow 3 0 9).1 (uuidRow 3 0 9).2 s := by
  obtain ⟨s₀, s, hcreated, hrun, hp⟩ := exists_filledIndex 112 [(2, 0, 8), (1, 0, 7)]
    ⟨112, 16, ⟨0, 1, 2⟩, freshSys 112 16, _, by decide, rfl⟩ (by decide)
    (p := fun s₀ s => decide (s₀.tree.pageSize = 112) &&
      checksLeaf (uuidRow 3 0 9).1 (uuidRow 3 0 9).2 s)
    (by decide +kernel)
  simp only [Bool.and_eq_true, decide_eq_true_eq] at hp
  obtain ⟨hsize, hcheck⟩ := hp
  have hheader : sizeofHeader ≤ s₀.tree.pageSize := by
    rw [hsize]
    decide
  obtain ⟨hfound, hnew⟩ := uuids_kept hcreated hheader hrun (by decide +kernel)
  refine ⟨s, hfound _ _ (by simp), hnew _ _ (indexRow_of_checksLeaf hcheck) ?_⟩
  decide +kernel

/-- Two UUIDs whose first byte is the same varint are one key. -/
theorem uuids_confused : ¬ ∀ (s₀ s : Sys)
    (es : List TreeEvent), TreeCreated PAGE_FLAG_INDEX_UUID s₀ →
    sizeofHeader + 4 * (sizeofUuid + sizeofPageId + 2) ≤ s₀.tree.pageSize → Run IndexStep s₀ es s →
    (insertKeys es).Nodup →
    (∀ key value, .insert key value ∈ es → Answers s key (some value.bytes)) ∧
      ∀ key value, IndexRow key value s → key.bytes ∉ insertKeys es → TakesKey key value s := by
  intro h
  obtain ⟨s₀, s, hcreated, hrun, hp⟩ := exists_filledIndex 112 [(1, 0, 7)]
    ⟨112, 16, ⟨0, 1, 2⟩, freshSys 112 16, _, by decide, rfl⟩ (by decide)
    (p := fun s₀ s => decide (s₀.tree.pageSize = 112) &&
      checksLeaf (uuidRow 1 1 8).1 (uuidRow 1 1 8).2 s &&
      (rootVisit s).any fun (x : PageRef × Sys) =>
        (makeRoom (uuidRow 1 1 8).1 (uuidRow 1 1 8).2 x.1 none x.2).value?.any
        fun (y : PageRef × Sys) =>
          (pageFindPointer (y.2.page y.1) (uuidRow 1 1 8).1).1)
    (by decide +kernel)
  simp only [Bool.and_eq_true, decide_eq_true_eq] at hp
  obtain ⟨⟨hsize, hcheck⟩, hroot⟩ := hp
  obtain ⟨⟨root, t⟩, hfix, hroot⟩ := Option.any_eq_true _ _ |>.mp hroot
  obtain ⟨⟨page, u⟩, hroom, hfound⟩ := Option.any_eq_true _ _ |>.mp hroot
  have hnew := (h s₀ s _ hcreated (by rw [hsize]; decide) hrun (by decide +kernel)).2 _ _
    (indexRow_of_checksLeaf hcheck) (by decide +kernel)
  exact hnew.new ⟨page, u, ⟨none, root, t, visit_of_rootVisit hfix,
    Outcome.value?_eq_some.mp hroom⟩, hfound⟩

end Wednesday
