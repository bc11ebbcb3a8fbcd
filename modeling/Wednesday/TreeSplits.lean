import Wednesday.TreeRuns

/-!
What a split makes of a page. `page_split` cuts at half the number of cells,
whatever their sizes, and `page_compact` leaves the bytes in use as the free
space of the lower half.
-/

namespace Wednesday

open Lib Prog Pager FenceTree

section

variable {type pageSize : Nat} {page : Mem} {node : TreeNode}

/-- The bytes of the cells `lo, ..., lo + n - 1`, as `payload_get_len` measures them. -/
def cellBytes (page : Mem) (lo n : Nat) : Nat :=
  ((List.range' lo n).map fun i => payloadGetLen (pageFlags page) (pageGetPayload page i)).sum

theorem PageHolds.payloadGetLen (h : PageHolds type pageSize page node) {i : Nat}
    (hi : i < (payloads node).length) :
    Wednesday.payloadGetLen (pageFlags page) (pageGetPayload page i) =
      ((payloads node)[i]).length := by
  obtain ⟨cells, hcells, -, hc⟩ := h.cells
  have hall : ∀ bs ∈ payloads node, bs ∈ cells.map Prod.snd := by simp [hcells]
  obtain ⟨c, hmemc, heq⟩ := List.mem_map.mp (hall _ (List.getElem_mem hi))
  have hmeasured := hc.measured c hmemc
  rw [heq] at hmeasured
  exact hmeasured _ (h.payload hi)

theorem PageHolds.cellBytes (h : PageHolds type pageSize page node) {lo n : Nat}
    (hle : lo + n ≤ node.keys.length) :
    Wednesday.cellBytes page lo n = ((((payloads node).drop lo).take n).map List.length).sum := by
  have hlen := length_payloads node
  refine congrArg List.sum (List.ext_getElem ?_ fun i hi hi' => ?_)
  · simp only [List.length_map, List.length_range', List.length_take, List.length_drop]
    omega
  · simp only [List.length_map, List.length_range'] at hi
    simp only [List.getElem_map, List.getElem_range', List.getElem_take,
      List.getElem_drop, Nat.one_mul]
    exact h.payloadGetLen (by omega)

end

section

variable {type : Nat} {nodes : PageId → TreeNode} {s s₀ t u : Sys} {page p : PageRef}
  {key value : Blob} {above : Above}

/-- What stands on the half of a split page the insert goes on with. -/
def chosenData (key : Blob) (t : Sys) (page : PageRef) (next : Mem) : Mem :=
  if keyCompare key.data (t.splitKey page t.pager.nextPage).data < 0 then
    splitLeft t.stack t.tree.pageSize (t.page page) t.pager.nextPage
  else splitRight t.stack t.tree.pageSize (t.page page) next t.pager.nextPage

/-- Both halves have cells, the insert goes on with one of them, and that one has
free space for the new cell and its slot, whatever stood on the new page. -/
structure SplitSuffices (key value : Blob) (above : Above) (t : Sys) (page : PageRef) : Prop where
  left : cellCount (splitLeft t.stack t.tree.pageSize (t.page page) t.pager.nextPage) ≠ 0
  right : ∀ next, cellCount (splitRight t.stack t.tree.pageSize
    (t.page page) next t.pager.nextPage) ≠ 0
  goesOn : ∀ p u, makeRoom key value page above t = .success p u →
    ∃ next, u.page p = chosenData key t page next
  room : ∀ next, payloadPutLen (pageFlags (t.page page)) key value + 2 ≤
    freeSpace (chosenData key t page next)

/-- A page with two cells or more that has, before the split, enough bytes in the
lower half of its cells for a key below the last of them, and few enough in the
upper half for any other key. -/
def Divides (key value : Blob) (pageSize : Nat) (page : Mem) : Prop :=
  2 ≤ cellCount page ∧
    if idCompare (varintGet key.data).1 (cellId page (cellCount page / 2 - 1)) < 0 then
      payloadPutLen (pageFlags page) key value + 2 ≤
        u16 (cellBytes page 0 (cellCount page / 2) - sizeofHeader - 2 * (cellCount page / 2 : Nat))
    else
      payloadPutLen (pageFlags page) key value + 2 + sizeofHeader +
          2 * (cellCount page - cellCount page / 2) +
          cellBytes page (cellCount page / 2) (cellCount page - cellCount page / 2) ≤ pageSize

instance (key value : Blob) (pageSize : Nat) (page : Mem) :
    Decidable (Divides key value pageSize page) := by
  unfold Divides
  infer_instance

/-- The half of the page that covers the key has so many bytes free after a split. -/
def HalfTakes (key : Blob) (need pageSize : Nat) (page : Mem) : Prop :=
  if idCompare (varintGet key.data).1 (cellId page (cellCount page / 2 - 1)) < 0 then
    need ≤ u16 (cellBytes page 0 (cellCount page / 2) - sizeofHeader - 2 *
      (cellCount page / 2 : Nat))
  else
    need + sizeofHeader + 2 * (cellCount page - cellCount page / 2) +
        cellBytes page (cellCount page / 2) (cellCount page - cellCount page / 2) ≤ pageSize

instance (key : Blob) (need pageSize : Nat) (page : Mem) :
    Decidable (HalfTakes key need pageSize page) := by
  unfold HalfTakes
  infer_instance

/-- Whoever makes room by a split goes on with the chosen half. -/
theorem MakesRoom.page_chosen (hmakes : MakesRoom key value t above page p u)
    (h : PagesHold type nodes t) (hstand : Standing key value s above page t)
    (hfull : needsSplit (t.page page) key value = true) (hu : Holding [p] u) :
    ∃ next, u.page p = chosenData key t page next := by
  have hheld := hstand.holding
  have hhere : t.pageAt page.id ≠ none := by simp [hheld.pageAt (List.mem_cons_self ..)]
  have hne : page.id ≠ t.pager.nextPage := (h.fresh _ hhere).ne
  have hat := hu.pageAt (List.mem_singleton_self p)
  have hhalf (next : Mem) (hp : p.id = chosenHalf key (t.splitKey page t.pager.nextPage) page.id
      t.pager.nextPage) : t.splitStore page next p.id = some (chosenData key t page next) := by
    rw [hp]
    unfold chosenHalf chosenData Sys.splitStore
    split
    · rw [Function.update_of_ne hne, Function.update_self]
    · rw [Function.update_self]
  have hids : p.id = chosenHalf key (t.splitKey page t.pager.nextPage) page.id t.pager.nextPage →
      p.id = page.id ∨ p.id = t.pager.nextPage := by
    intro hp
    rw [hp]
    unfold chosenHalf
    split
    · exact Or.inl rfl
    · exact Or.inr rfl
  cases hmakes with
  | stayRoot hstay => simp [hstay] at hfull
  | stayChild hstay => simp [hstay] at hfull
  | splitRoot _ hsplit =>
      obtain ⟨next, new, hstore⟩ := hsplit.store
      have hpn : p.id ≠ t.pager.nextPage + 1 := by
        rcases hids hsplit.half with hid | hid
        · rw [hid]
          exact ((h.fresh _ hhere).trans (Nat.lt_succ_self _)).ne
        · rw [hid]
          exact (Nat.lt_succ_self _).ne
      rw [hstore, Function.update_of_ne hpn, hhalf next hsplit.half] at hat
      exact ⟨next, (Option.some.inj hat).symm⟩
  | @splitChild page parent p index u _ hsplit =>
      obtain ⟨next, data, -, hstore⟩ := hsplit.store
      have hparent : parent ∈ page :: Above.held (some (parent, index)) := by simp [Above.held]
      have hthere : t.pageAt parent.id ≠ none := by simp [hheld.pageAt hparent]
      have hpp : p.id ≠ parent.id := by
        rcases hids hsplit.half with hid | hid
        · rw [hid]
          intro heq
          have hnd := hheld.nodup
          simp [Above.held, heq] at hnd
        · rw [hid]
          exact (h.fresh _ hthere).ne'
      rw [hstore, Function.update_of_ne hpp, hhalf next hsplit.half] at hat
      exact ⟨next, (Option.some.inj hat).symm⟩

/-- The free space of the halves of a page. -/
theorem PageHolds.freeSpace_halves {pageSize : Nat} {data : Mem} {node : TreeNode} {nextId : PageId}
    (h : PageHolds type pageSize data node) (next stack : Mem) (hid : nextId < 2 ^ 32) :
    freeSpace (Wednesday.splitLeft stack pageSize data nextId) =
        u16 (Wednesday.cellBytes data 0 (cellCount data / 2) - sizeofHeader -
          2 * (cellCount data / 2 : Nat)) ∧
      freeSpace (Wednesday.splitRight stack pageSize data next nextId) + sizeofHeader +
          2 * (cellCount data - cellCount data / 2) +
          Wednesday.cellBytes data (cellCount data / 2) (cellCount data - cellCount data / 2) =
            pageSize := by
  have hcount := h.count
  have hlen := length_payloads node
  have hcut : cellCount data / 2 = cutAt node := by
    rw [hcount, cutAt]
  have hle : cutAt node ≤ node.keys.length := Nat.div_le_self _ _
  constructor
  · rw [h.freeSpace_splitLeft stack hid, hcut, h.cellBytes (by omega), List.drop_zero, payloadBytes,
      payloads_takeTo]
  · have hright : PageHolds type pageSize (Wednesday.splitRight stack pageSize data next nextId)
        (node.dropTo (cutAt node)) := h.splitRight stack
    have hspace := hright.space
    rw [h.freeSpace_splitRight stack, hcut, h.cellBytes (by omega), hcount]
    rw [payloadBytes, payloads_dropTo, Node.keys_dropTo, List.length_drop] at hspace
    rw [List.take_of_length_le (by rw [List.length_drop]; omega)]
    exact hspace

theorem PageHolds.halfTakes_iff {node : TreeNode}
    (h : PageHolds type t.tree.pageSize (t.page page) node)
    (key : Blob) (hcut : cutAt node ≠ 0) (hid : t.pager.nextPage < 2 ^ 32)
    (need : Nat) (next : Mem) :
    need ≤ freeSpace (chosenData key t page next) ↔
      HalfTakes key need t.tree.pageSize (t.page page) := by
  obtain ⟨hlower, hupper⟩ := h.freeSpace_halves next t.stack hid
  rw [chosenData, Sys.splitKey, h.keyCompare_splitKey t.stack hcut hid, HalfTakes]
  split
  · rw [hlower]
  · omega

/-- In every run whose inserts are allowed, a split leaves two halves with cells
and room for the new cell and its slot exactly if the page divides. -/
theorem split_suffices {es : List TreeEvent} (hcreated : TreeCreated type s₀)
    (htype : IsTreeType type)
    (hrun : Run (AllowedStep type) s₀ es s) (hallowed : Insertable type key value s)
    (hfits : key.size + value.size + 2 + sizeofHeader ≤ s₀.tree.pageSize)
    (hvisit : Visit key value s above page t) (hfull : needsSplit (t.page page) key value = true) :
    SplitSuffices key value above t page ↔ Divides key value t.tree.pageSize (t.page page) := by
  obtain ⟨hok, nodes, hnodes⟩ := allowedRun_pagesHold hcreated htype (by omega) hrun
  obtain ⟨nodes', ht⟩ := hvisit.pagesHold hok hnodes hallowed.pages hallowed.space
  have hstand := hvisit.standing hok
  have hspare := hallowed.pages _ _ _ hvisit
  have hholds := ht.onPage hstand.holding (List.mem_cons_self ..)
  have hid : t.pager.nextPage < 2 ^ 32 := (hspare hfull).nextPage_lt
  have hcount := hholds.count
  have hleft := (hholds.splitLeft t.stack hid).count
  rw [Node.keys_takeTo, List.length_take, cutAt] at hleft
  have hright (next : Mem) : cellCount
      (splitRight t.stack t.tree.pageSize (t.page page) next t.pager.nextPage) =
      ((nodes' page.id).dropTo (cutAt (nodes' page.id))).keys.length :=
        (hholds.splitRight t.stack).count
  simp only [Node.keys_dropTo, List.length_drop, cutAt] at hright
  have hgoesOn : ∀ p u, makeRoom key value page above t = .success p u →
      ∃ next, u.page p = chosenData key t page next := by
    intro p u hroom
    have hmakes := makeRoom_makes hstand.holding (fun hfull => ht.newPage (hspare hfull)) hroom
    exact hmakes.page_chosen ht hstand hfull (makeRoom_settled hstand hroom).holding
  have hroom (hcut : cutAt (nodes' page.id) ≠ 0) (next : Mem) :=
    hholds.halfTakes_iff key hcut hid (payloadPutLen (pageFlags (t.page page)) key value + 2) next
  constructor
  · intro h
    have hcut : cutAt (nodes' page.id) ≠ 0 := by
      have hne := h.left
      rw [hleft] at hne
      unfold cutAt
      omega
    refine ⟨?_, (hroom hcut (t.page page)).mp (h.room _)⟩
    unfold cutAt at hcut
    omega
  · rintro ⟨htwo, hdivides⟩
    have hcut : cutAt (nodes' page.id) ≠ 0 := by
      unfold cutAt
      omega
    refine ⟨?_, fun next => ?_, hgoesOn, fun next => (hroom hcut next).mpr hdivides⟩
    · omega
    · rw [hright]
      omega

end

/-- The row with the id `id` and a blob of `n` bytes. -/
def sizedRow (id n : Nat) : Blob × Blob :=
  (Blob.ofBytes [UInt8.ofNat id], Blob.ofBytes (UInt8.ofNat n :: List.replicate n 1))

theorem varintGet_one {src : Mem} (h : (src 0).toNat < 128) :
    varintGet src = ((src 0).toNat, 1) := by
  have hlen : varintGetLen src = 1 :=
    varintGetLen_eq le_rfl (by decide) (fun j hj => absurd hj (by omega)) fun _ => h
  rw [varintGet_eq, hlen, varintValue, if_pos (by decide)]
  simp only [varintGroups, Nat.mod_eq_of_lt h]
  simp

theorem sizedRow_encoded {id n : Nat} (hid : id < 128) (hn : n < 128) :
    KeyEncoded PAGE_FLAG_TABLE (sizedRow id n).1.bytes ∧
      ValueEncoded PAGE_FLAG_TABLE (sizedRow id n).2.bytes := by
  have hbyte {k : Nat} (hk : k < 128) (rest : Bytes) :
      (Mem.ofBytes (UInt8.ofNat k :: rest) 0).toNat = k := by
    change (UInt8.ofNat k).toNat = k
    rw [UInt8.toNat_ofNat']
    omega
  have hone {k : Nat} (hk : k < 128) (rest : Bytes) :
      varintGet (Mem.ofBytes (UInt8.ofNat k :: rest)) = (k, 1) := by
    rw [varintGet_one (by rwa [hbyte hk]), hbyte hk]
  simp only [sizedRow, Blob.bytes_ofBytes, KeyEncoded, ValueEncoded, PAGE_FLAG_TABLE,
    PAGE_FLAG_INDEX_UUID, Nat.reduceEqDiff, if_false]
  refine ⟨?_, [UInt8.ofNat n], List.replicate n 1, rfl, ?_⟩
  · rw [← varintGet_snd, hone hid]
    rfl
  · rw [hone hn, List.length_replicate]
    rfl

/-- A table with some rows, and the visit of its root. -/
def rowsVisited (pageSize : Nat) (rows : List (Blob × Blob)) :
    Option (Sys × Sys × PageRef × Sys) := do
  let s₀ ← createdTree PAGE_FLAG_TABLE pageSize 16
  let s ← insertChecked 1 s₀ rows
  let (page, t) ← rootVisit s
  some (s₀, s, page, t)

theorem exists_rowsVisited (pageSize : Nat) (rows : List (Blob × Blob)) (key value : Blob)
    (hopen : PagerOpened (freshSys pageSize 16)) (hsize : pageSize < 65536)
    (hrows : ∀ row ∈ rows, KeyEncoded PAGE_FLAG_TABLE row.1.bytes ∧
      ValueEncoded PAGE_FLAG_TABLE row.2.bytes)
    {p : Sys → Sys → PageRef → Sys → Bool}
    (h : (rowsVisited pageSize rows).any (fun x => p x.1 x.2.1 x.2.2.1 x.2.2.2) = true) :
    ∃ s₀ s page t, TreeCreated PAGE_FLAG_TABLE s₀ ∧
      Run (AllowedStep PAGE_FLAG_TABLE) s₀ (rows.map fun row => .insert row.1 row.2) s ∧
      Visit key value s none page t ∧ p s₀ s page t = true := by
  obtain ⟨⟨s₀, s, page, t⟩, hsome, hp⟩ := Option.any_eq_true _ _ |>.mp h
  simp only [rowsVisited, Option.bind_eq_bind, Option.bind_eq_some_iff, Prod.exists,
    Option.some.injEq, Prod.mk.injEq] at hsome
  obtain ⟨s₀', hcreated, s', hrun, page', t', hvisit, rfl, rfl, rfl, rfl⟩ := hsome
  exact ⟨s₀', s', page', t', treeCreated_of_createdTree hopen hsize hcreated,
    run_of_insertChecked hrows hrun, visit_of_rootVisit hvisit, hp⟩

theorem split_suffices_once : ∃ s page t,
    needsSplit (Sys.page t page) (sizedRow 3 8).1 (sizedRow 3 8).2 = true ∧
      Visit (sizedRow 3 8).1 (sizedRow 3 8).2 s none page t ∧
      SplitSuffices (sizedRow 3 8).1 (sizedRow 3 8).2 none t page := by
  obtain ⟨s₀, s, page, t, hcreated, hrun, hvisit, hp⟩ :=
    exists_rowsVisited 40 [sizedRow 1 8, sizedRow 2 8] (sizedRow 3 8).1 (sizedRow 3 8).2
      ⟨40, 16, ⟨0, 1, 2⟩, freshSys 40 16, _, by decide, rfl⟩ (by decide)
      (by
        simp only [List.mem_cons, List.not_mem_nil, or_false, forall_eq_or_imp, forall_eq]
        exact ⟨sizedRow_encoded (by decide) (by decide), sizedRow_encoded (by decide) (by decide)⟩)
      (p := fun s₀ s page t => checksLeaf (sizedRow 3 8).1 (sizedRow 3 8).2 s &&
        needsSplit (t.page page) (sizedRow 3 8).1 (sizedRow 3 8).2 &&
        decide (s₀.tree.pageSize = 40) &&
        decide (Divides (sizedRow 3 8).1 (sizedRow 3 8).2 t.tree.pageSize (t.page page)))
      (by decide +kernel)
  simp only [Bool.and_eq_true, decide_eq_true_eq] at hp
  obtain ⟨⟨⟨hcheck, hfull⟩, hsize⟩, hdivides⟩ := hp
  have henc := sizedRow_encoded (by decide : 3 < 128) (by decide : 8 < 128)
  refine ⟨s, page, t, hfull, hvisit, ?_⟩
  refine (split_suffices hcreated (Or.inl rfl) hrun
    (insertable_of_checksLeaf henc.1 henc.2 hcheck) ?_ hvisit hfull).mpr hdivides
  rw [hsize]
  decide

/-- A leaf with one row that leaves no room for another is cut into nothing and the row. -/
theorem single_row_not_split : ¬ ∀ (s₀ s : Sys) (es : List TreeEvent)
    (key value : Blob) (above : Above)
    (page : PageRef) (t : Sys), TreeCreated PAGE_FLAG_TABLE s₀ → Run TreeStep s₀ es s →
    KeyEncoded PAGE_FLAG_TABLE key.bytes → ValueEncoded PAGE_FLAG_TABLE value.bytes →
    key.size + value.size + 2 + sizeofHeader ≤ s₀.tree.pageSize → Visit key value s above page t →
    needsSplit (t.page page) key value = true → SplitSuffices key value above t page := by
  intro h
  obtain ⟨s₀, s, page, t, hcreated, hrun, hvisit, hp⟩ :=
    exists_rowsVisited 28 [sizedRow 1 8] (sizedRow 2 8).1 (sizedRow 2 8).2
      ⟨28, 16, ⟨0, 1, 2⟩, freshSys 28 16, _, by decide, rfl⟩ (by decide)
      (by
        simp only [List.mem_singleton, forall_eq]
        exact sizedRow_encoded (by decide) (by decide))
      (p := fun s₀ _ page t => needsSplit (t.page page) (sizedRow 2 8).1 (sizedRow 2 8).2 &&
        decide (s₀.tree.pageSize = 28) &&
        decide (cellCount (splitLeft t.stack t.tree.pageSize (t.page page) t.pager.nextPage) = 0))
      (by decide +kernel)
  simp only [Bool.and_eq_true, decide_eq_true_eq] at hp
  obtain ⟨⟨hfull, hsize⟩, hnone⟩ := hp
  have henc := sizedRow_encoded (by decide : 2 < 128) (by decide : 8 < 128)
  have hsplit := h s₀ s _ _ _ none page t hcreated
      (hrun.mono fun _ _ _ hstep => hstep.2) henc.1 henc.2
    (by
      rw [hsize]
      decide) hvisit hfull
  exact hsplit.left hnone

end Wednesday
