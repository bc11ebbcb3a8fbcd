import Wednesday.BtreeRuns
import Wednesday.VarintRoundTrip
import Wednesday.PageHeader

/-!
Room on the pages of an insert. The space checks of `btree.c` compare
`free_space` with the bytes of a payload in 16 bits and leave out its slot; the
assertion of `page_insert_payload` asks for payload and slot. Every visit of
every run is covered, whatever the pages hold.
-/

namespace Wednesday

open Lib Prog Pager

section

variable {key value : Blob} {page parent : PageRef} {index : Nat} {s t u : Sys} {above : Above}

/-- The pages above a fixed page that are still held. -/
def Above.held : Above → List PageRef
  | none => []
  | some (parent, _) => [parent]

/-- What a visited parent has been checked for. -/
structure Checked (key value : Blob) (t : Sys) (parent : PageRef) (index : Nat) : Prop where
  inner : pageIsInner (pageFlags (t.page parent)) = true
  space : payloadPutLen (pageFlags (t.page parent)) key value ≤ freeSpace (t.page parent)
  search : pageFindPointer (t.page parent) key = (false, index)

/-- Where a visit stands: the fixed page and the one above it are held, and the
call has changed neither the error state nor what it does not own. -/
structure Standing (key value : Blob) (s : Sys) (above : Above) (page : PageRef) (t : Sys) :
    Prop where
  holding : Holding (page :: above.held) t
  err : t.err = s.err
  stack : t.stack = s.stack
  pageSize : t.tree.pageSize = s.tree.pageSize
  checked : ∀ parent index, above = some (parent, index) → Checked key value t parent index

/-- The insert holds one page. -/
structure Settled (s : Sys) (page : PageRef) (t : Sys) : Prop where
  holding : Holding [page] t
  err : t.err = s.err
  stack : t.stack = s.stack
  pageSize : t.tree.pageSize = s.tree.pageSize

theorem fixRoot_standing (hok : s.PagerOk) (h : fixRoot s = .success page t) :
    Standing key value s none page t := by
  have hwp : wp fixRoot (Standing key value s none) (fun _ => True) (fun _ => True) s :=
    wp_fixRoot hok (fun _ _ _ _ _ _ => trivial) (fun _ _ _ => trivial) fun root t _ hfix =>
      ⟨hfix.holding, hfix.err, hfix.stack, congrArg BTree.pageSize hfix.tree, by simp⟩
  exact hwp.success h

theorem Holding.single {held : List PageRef} (h : Holding held t) (hp : page ∈ held) :
    Holding [page] t := by
  refine ⟨h.ok, by simp, fun q hq => ?_, fun q hq => ?_⟩
  · rw [List.mem_singleton.mp hq]
    exact h.there page hp
  · rw [List.mem_singleton.mp hq]
    exact h.latch page hp

/-- Once the other half is unfixed, the one the insert goes on with is held still. -/
theorem Holding.half {held : List PageRef} {split : PageRef} (h : Holding held t)
    (key splitKey : Blob)
    (hp : page ∈ held) (hs : split ∈ held) (hne : page ≠ split) :
    (halves key splitKey page split).1 ∈
        held.filter (· ≠ (halves key splitKey page split).2) ∧
      Holding (held.filter (· ≠ (halves key splitKey page split).2))
        (t.unfixed (halves key splitKey page split).2) := by
  rcases halves_mem key splitKey page split with ⟨heq, -⟩ | ⟨heq, -⟩
  · rw [heq]
    exact ⟨List.mem_filter.mpr ⟨hp, by simpa using hne⟩, h.unfixed hs⟩
  · rw [heq]
    exact ⟨List.mem_filter.mpr ⟨hs, by simpa using hne.symm⟩, h.unfixed hp⟩

theorem splitRoot_settled (h : Standing key value s none page t) :
    wp (splitRoot page key) (Settled s) (fun _ => True) (fun _ => True) t := by
  refine wp_splitRoot h.holding (fun _ => trivial) (fun _ _ _ _ _ => trivial)
    (fun _ _ _ => trivial) (fun _ _ _ _ _ _ _ _ _ => trivial)
    (fun _ _ _ _ _ _ _ => trivial) fun split v hid hfix hne new w _ hfix' => ?_
  generalize t.splitKey page split.id = splitKey
  have hheld : Holding [new, split, page] (w.crowned page new splitKey split.id) :=
    (hfix'.holding.written _).rooted _
  have hnd := hheld.nodup
  simp only [List.map_cons, List.map_nil, List.nodup_cons, List.mem_cons,
    List.not_mem_nil, or_false, not_or] at hnd
  have hsp : page ≠ split := fun heq => hnd.2.1 (by rw [heq])
  have hnp : new ≠ page := fun heq => hnd.1.2 (by rw [heq])
  have hns : new ≠ split := fun heq => hnd.1.1 (by rw [heq])
  obtain ⟨hmem, hhalf⟩ := hheld.half key splitKey (by simp : page ∈ _) (by simp) hsp
  have hnew : new ≠ (halves key splitKey page split).1 ∧
      new ≠ (halves key splitKey page split).2 := by
    rcases halves_mem key splitKey page split with ⟨heq, -⟩ | ⟨heq, -⟩ <;> simp [heq, hnp, hns]
  have hin : new ∈ [new, split, page].filter (· ≠ (halves key splitKey page split).2) :=
    List.mem_filter.mpr ⟨by simp, by simpa using hnew.2⟩
  refine ⟨(hhalf.unfixed hin).single ?_, ?_, ?_, ?_⟩
  · exact List.mem_filter.mpr ⟨hmem, by simpa using hnew.1.symm⟩
  · simp [hfix'.err, hfix.err, h.err]
  · simp [hfix'.stack, hfix.stack, h.stack]
  · simp [hfix'.tree, hfix.tree, h.pageSize]

theorem splitChild_settled (h : Standing key value s (some (parent, index)) page t) :
    wp (splitChild parent page index key)
      (fun p u => wp (pagerUnfix parent) (fun _ => Settled s p) (fun _ => False) (fun _ => False) u)
      (fun _ => True) (fun _ => True) t := by
  have hheld : Holding [page, parent] t := h.holding
  refine wp_splitChild hheld (fun _ => trivial) (fun _ _ => trivial)
    (fun _ _ _ _ _ => trivial) (fun _ _ _ => trivial) fun split v hid hfix _ data _ => ?_
  generalize t.splitKey page split.id = splitKey
  have hgrafted : Holding [split, page, parent] (v.grafted parent page split data) :=
    hfix.holding.halved.written _
  have hnd := hgrafted.nodup
  simp only [List.map_cons, List.map_nil, List.nodup_cons, List.mem_cons,
    List.not_mem_nil, or_false, not_or] at hnd
  have hps : page ≠ split := fun heq => hnd.1.1 (by rw [heq])
  have hpr : parent ≠ split := fun heq => hnd.1.2 (by rw [heq])
  have hpp : parent ≠ page := fun heq => hnd.2.1 (by rw [heq])
  obtain ⟨hmem, hhalf⟩ := hgrafted.half key splitKey (by simp : page ∈ _) (by simp) hps
  have hparent : parent ≠ (halves key splitKey page split).1 ∧
      parent ≠ (halves key splitKey page split).2 := by
    rcases halves_mem key splitKey page split with ⟨heq, -⟩ | ⟨heq, -⟩ <;> simp [heq, hpp, hpr]
  have hin : parent ∈ [split, page, parent].filter (· ≠ (halves key splitKey page split).2) :=
    List.mem_filter.mpr ⟨by simp, by simpa using hparent.2⟩
  refine hhalf.wp_pagerUnfix hin ⟨(hhalf.unfixed hin).single ?_, ?_, ?_, ?_⟩
  · exact List.mem_filter.mpr ⟨hmem, by simpa using hparent.1.symm⟩
  · simp [hfix.err, h.err]
  · simp [hfix.stack, h.stack]
  · simp [hfix.tree, h.pageSize]

theorem makeRoom_settled (h : Standing key value s above page t)
    (hroom : makeRoom key value page above t = .success parent u) : Settled s parent u := by
  have hwp : wp (makeRoom key value page above) (Settled s) (fun _ => True) (fun _ => True) t := by
    cases above with
    | none =>
        simp only [makeRoom, wp_bind, wp_readPage, wp_ite]
        split
        · exact splitRoot_settled h
        · exact ⟨h.holding, h.err, h.stack, h.pageSize⟩
    | some above =>
        obtain ⟨parent, index⟩ := above
        have hheld : Holding [page, parent] t := h.holding
        have hne : page ≠ parent := fun heq => by simpa [heq] using hheld.nodup
        simp only [makeRoom, wp_deferred, wp_bind, wp_readPage, wp_ite]
        split
        · refine wp_mono (splitChild_settled h) (fun _ _ hu => ?_) (fun _ _ => wp_true)
            fun _ hr => hr
          exact wp_mono hu (fun _ _ hv => hv) (fun _ hfalse => hfalse.elim)
            fun _ hfalse => hfalse.elim
        · have hin : parent ∈ [page, parent] := by simp
          refine hheld.wp_pagerUnfix hin ⟨(hheld.unfixed hin).single ?_, h.err, h.stack, h.pageSize⟩
          exact List.mem_filter.mpr ⟨by simp, by simpa using hne⟩
  exact hwp.success hroom

theorem stepDown_standing (h : Settled s parent t)
    (hinner : pageIsInner (pageFlags (t.page parent)) = true)
    (hspace : payloadPutLen (pageFlags (t.page parent)) key value ≤ freeSpace (t.page parent))
    (hstep : stepDown parent key t = .success (page, index) u) :
    Standing key value s (some (parent, index)) page u := by
  have hwp : wp (stepDown parent key)
      (fun r v => Standing key value s (some (parent, r.2)) r.1 v) (fun _ => True)
      (fun _ => True) t := by
    refine wp_stepDown h.holding (fun _ _ _ => trivial) (fun _ => trivial)
      (fun _ _ _ _ _ _ => trivial)
      (fun _ _ _ => trivial) fun hfound child v hid hfix => ?_
    have hpage := hfix.page parent (by simp)
    refine ⟨hfix.holding, hfix.err.trans h.err, hfix.stack.trans h.stack,
      (congrArg BTree.pageSize hfix.tree).trans h.pageSize, fun p i hpi => ?_⟩
    obtain ⟨rfl, rfl⟩ := Prod.mk.inj (Option.some.inj hpi)
    refine ⟨by rwa [hpage], by rwa [hpage], ?_⟩
    rw [hpage, ← hfound]
  exact hwp.success hstep

/-- Every visit of an insert holds the page and the checked parent above it. -/
theorem Visit.standing (hok : s.PagerOk) (h : Visit key value s above page t) :
    Standing key value s above page t := by
  induction h with
  | root hfix => exact fixRoot_standing hok hfix
  | child hvisit hroom hinner hspace hstep ih =>
      exact stepDown_standing (makeRoom_settled ih hroom) hinner hspace hstep

theorem Reaches.settled (hok : s.PagerOk) (h : Reaches key value s page t) : Settled s page t := by
  obtain ⟨above, p, u, hvisit, hroom⟩ := h
  exact makeRoom_settled (hvisit.standing hok) hroom

theorem pageInsertPayload_fits (stack : Mem) (pageSize index : Nat) {data : Mem} {size : Nat}
    (h : size + 2 ≤ freeSpace data) : ∃ r,
    pageInsertPayload stack pageSize data index size = .ok r := by
  rw [pageInsertPayload, if_neg (by omega)]
  exact ⟨_, rfl⟩

theorem payloadPutLen_leaf {flags : Nat} (h : pageIsLeaf flags = true) :
    payloadPutLen flags key value = (key.size + value.size) % 65536 := by
  have hinner : ¬ pageIsInner flags = true := fun hinner => by
    simp only [pageIsInner, pageIsLeaf, bne_iff_ne, ne_eq, beq_iff_eq] at hinner h
    exact h hinner
  simp only [payloadPutLen, if_neg hinner, u16]
  omega

theorem payloadPutLen_inner {flags : Nat} (h : pageIsInner flags = true) (hkey : key.size ≤ 9) :
    payloadPutLen flags key value = key.size + 4 := by
  simp only [payloadPutLen, if_pos h, u16, sizeofPageId]
  omega

/-- A leaf with room for the row takes it, unless the key is there. -/
theorem placesRow_of_room (value : Blob) (h : Holding [page] t)
    (hnew : (pageFindPointer (t.page page) key).1 = false)
    (hroom : key.size + value.size + 2 ≤ freeSpace (t.page page)) :
    ∃ u, PlacesRow key value page t u ∧ u.err = t.err := by
  rcases hsearch : pageFindPointer (t.page page) key with ⟨found, index⟩
  rw [hsearch] at hnew
  obtain rfl : found = false := hnew
  obtain ⟨⟨data, ptr⟩, hpayload⟩ := pageInsertPayload_fits t.stack t.tree.pageSize
    index hroom
  obtain ⟨data', hdata⟩ : ∃ data', pageInsertLeaf t.stack t.tree.pageSize (t.page page) key value =
      .ok (some data') := by
    simp only [pageInsertLeaf, hsearch, hpayload]
    exact ⟨_, rfl⟩
  have hinsert : insertLeaf page key value t = .success () (t.written page data') := by
    simp only [insertLeaf, bind_apply, get_apply, Outcome.bind_success, readPage_apply, hdata,
      ofExcept_ok]
    rfl
  have hwritten : Holding [page] (t.written page data') := h.written _
  have hunfix : wp (pagerUnfix page) (fun _ u => u = (t.written page data').unfixed page)
      (fun _ => False) (fun _ => False) (t.written page data') :=
    hwritten.wp_pagerUnfix (by simp) rfl
  unfold wp at hunfix
  cases hrun : pagerUnfix page (t.written page data') with
  | success _ u =>
      simp only [hrun] at hunfix
      exact ⟨u, ⟨_, hinsert, hrun⟩, by rw [hunfix]; rfl⟩
  | failure u => simp [hrun] at hunfix
  | fault r => simp [hrun] at hunfix

/-- An insert that reaches a leaf with room, without the key, succeeds. -/
theorem Reaches.completes (hok : s.PagerOk) (h : Reaches key value s page t)
    (hleaf : pageIsLeaf (pageFlags (t.page page)) = true) (hcode : errorGetCode s.err = 0)
    (hnew : (pageFindPointer (t.page page) key).1 = false)
    (hroom : key.size + value.size + 2 ≤ freeSpace (t.page page)) :
    ∃ n u, ∀ fuel, n ≤ fuel → btreeInsert fuel key value s = .success () u := by
  have hsettled := h.settled hok
  obtain ⟨u, hplaces, herr⟩ := placesRow_of_room value hsettled.holding hnew hroom
  obtain ⟨above, p, v, hvisit, hmake⟩ := h
  obtain ⟨root, x, top, y, n, hfix, htop, hrest⟩ := hvisit.from_root (w := u) hmake
  refine ⟨n, u, fun fuel hfuel => ?_⟩
  have hfin := hrest (fuel - n) (by rw [Finishes, if_pos hleaf]; exact hplaces)
  rw [Nat.add_sub_cancel' hfuel] at hfin
  refine btreeInsert_eq_success.mpr ⟨root, x, top, y, u, hfix, htop, hfin, ?_⟩
  have hclear : errorGetCode u.err = 0 := by rw [herr, hsettled.err, hcode]
  simp [deferGuard, hclear]

/-! ### The decision at a leaf -/

/-- The decision not to split the leaf is right: it has room for the cell and its
slot, the assertion of `page_insert_payload` holds, and the insert of a new key
completes. -/
structure DecisionHolds (key value : Blob) (s : Sys) (page : PageRef) (t : Sys) : Prop where
  room : key.size + value.size + 2 ≤ freeSpace (t.page page)
  asserted : ∀ index, ∃ r, pageInsertPayload t.stack t.tree.pageSize (t.page page) index
    (key.size + value.size) = .ok r
  completes : errorGetCode s.err = 0 → (pageFindPointer (t.page page) key).1 = false →
    ∃ n u, ∀ fuel, n ≤ fuel → btreeInsert fuel key value s = .success () u

/-- A leaf that is not split is reached as it was visited. -/
theorem Visit.reaches_of_stay (hok : s.PagerOk) (h : Visit key value s above page t)
    (hstay : needsSplit (t.page page) key value = false) :
    ∃ u, Reaches key value s page u ∧ u.page page = t.page page := by
  have hstanding := h.standing hok
  have hwp : wp (makeRoom key value page above) (fun p u => p = page ∧ u.page page = t.page page)
      (fun _ => False) (fun _ => False) t := by
    cases above with
    | none =>
        simp only [makeRoom, wp_bind, wp_readPage, wp_ite, hstay]
        exact ⟨rfl, rfl⟩
    | some above =>
        obtain ⟨parent, index⟩ := above
        have hheld : Holding [page, parent] t := hstanding.holding
        simp only [makeRoom, wp_deferred, wp_bind, wp_readPage, wp_ite, hstay]
        exact hheld.wp_pagerUnfix (by simp) ⟨rfl, by simp⟩
  unfold wp at hwp
  cases hrun : makeRoom key value page above t with
  | success p u =>
      simp only [hrun] at hwp
      obtain ⟨rfl, hpage⟩ := hwp
      exact ⟨u, ⟨above, p, t, h, hrun⟩, hpage⟩
  | failure u => simp [hrun] at hwp
  | fault r => simp [hrun] at hwp

end

/-- The rows with the ids `1, ..., n` and empty values. -/
def smallRows (n : Nat) : List (Blob × Blob) :=
  (List.range n).map fun i => (Blob.ofBytes [UInt8.ofNat (i + 1)], Blob.ofBytes [0])

/-- A tree with `n` small rows, and the visit of a child by the insert of the next. -/
def childVisited (pageSize n : Nat) : Option (Sys × Sys × PageRef × Nat × PageRef × Sys) := do
  let s₀ ← createdTree PAGE_FLAG_TABLE pageSize 16
  let s ← insertRows 3 s₀ (smallRows n)
  let (parent, index, page, t) ←
    childVisit (tableKey s.stack (n + 1)) (tableValue s.stack ⟨0, s.stack⟩) s
  some (s₀, s, parent, index, page, t)

theorem exists_childVisited (pageSize n : Nat) (hopen : PagerOpened (freshSys pageSize 16))
    (hsize : pageSize < 65536) {p : Sys → PageRef → Nat → PageRef → Sys → Bool}
    (h : (childVisited pageSize n).any
      (fun x => p x.2.1 x.2.2.1 x.2.2.2.1 x.2.2.2.2.1 x.2.2.2.2.2) = true) :
    ∃ s₀ s es parent index page t, TreeCreated PAGE_FLAG_TABLE s₀ ∧ Run TreeStep s₀ es s ∧
      Visit (tableKey s.stack (n + 1)) (tableValue s.stack ⟨0, s.stack⟩) s (some (parent, index))
        page t ∧ p s parent index page t = true := by
  obtain ⟨⟨s₀, s, parent, index, page, t⟩, hsome, hp⟩ := Option.any_eq_true _ _ |>.mp h
  simp only [childVisited, Option.bind_eq_bind, Option.bind_eq_some_iff, Prod.exists,
    Option.some.injEq, Prod.mk.injEq] at hsome
  obtain ⟨s₀', hcreated, s', hrows, p', i', c', t', hvisit, rfl, rfl, rfl, rfl, rfl, rfl⟩ := hsome
  exact ⟨s₀', s', _, p', i', c', t', treeCreated_of_createdTree hopen hsize hcreated,
    run_of_insertRows hrows, visit_of_childVisit hvisit, hp⟩

/-- The first row of a table: the id 5 with the blob of `n` bytes. -/
def firstRow (n : Nat) : Blob × Blob :=
  (Blob.ofBytes [5], Blob.ofBytes (UInt8.ofNat n :: List.replicate n 1))

/-- A tree and the visit of its root. -/
def rootVisited (pageSize : Nat) : Option (Sys × PageRef × Sys) := do
  let s ← createdTree PAGE_FLAG_TABLE pageSize 8
  let (page, t) ← rootVisit s
  some (s, page, t)

theorem exists_rootVisited (pageSize n : Nat) (hopen : PagerOpened (freshSys pageSize 8))
    (hsize : pageSize < 65536) {p : Mem → Bool}
    (h : (rootVisited pageSize).any (fun x => p (x.2.2.page x.2.1)) = true) :
    ∃ s page t, TreeCreated PAGE_FLAG_TABLE s ∧
      Visit (firstRow n).1 (firstRow n).2 s none page t ∧ p (t.page page) = true := by
  obtain ⟨⟨s, page, t⟩, hsome, hp⟩ := Option.any_eq_true _ _ |>.mp h
  simp only [rootVisited, Option.bind_eq_bind, Option.bind_eq_some_iff, Prod.exists,
    Option.some.injEq, Prod.mk.injEq] at hsome
  obtain ⟨s', hcreated, page', t', hvisit, rfl, rfl, rfl⟩ := hsome
  exact ⟨s', page', t', treeCreated_of_createdTree hopen hsize hcreated,
    visit_of_rootVisit hvisit, hp⟩

section

variable {key : Blob} {index : Nat}

/-- The keys `varint_put` makes have at most nine bytes. -/
theorem tableKey_size_le (stack : Mem) {id : Nat} (hid : id < 2 ^ 64) :
    (tableKey stack id).size ≤ 9 := by
  rcases Nat.lt_or_ge id (2 ^ 56) with hlt | hge
  · obtain ⟨d, k, hput, -, hk, -⟩ := varintPut_spec stack hlt
    simp only [tableKey, hput]
    omega
  · simp only [tableKey, varintPut_top stack hge hid, le_refl]

theorem btreeTableInsert_apply (fuel id : Nat) (value : Blob) (s : Sys) :
    btreeTableInsert fuel id value s =
      btreeInsert fuel (tableKey s.stack id) (tableValue s.stack value) s := rfl

theorem pageInsertInner_fits {stack data : Mem} {pageSize : Nat} {pageId : PageId}
    (h : key.size + sizeofPageId + 2 ≤ freeSpace data) :
    ∃ data', pageInsertInner stack pageSize data index key pageId = .ok data' := by
  obtain ⟨⟨d, ptr⟩, hpayload⟩ := pageInsertPayload_fits stack pageSize index h
  unfold pageInsertInner
  split <;> simp only [hpayload] <;> exact ⟨_, rfl⟩

end

end Wednesday
