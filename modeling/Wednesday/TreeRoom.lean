import Wednesday.TreeSplits

/-!
Room for a separator. An insert that splits a child has checked the page above it
when it came there, for another key and without a slot. Whether the separator fits
is decided by the two pages as they stand before the insert.
-/

namespace Wednesday

open Lib Prog Pager FenceTree

section

variable {type index : Nat} {nodes : PageId → TreeNode} {s s₀ t u v : Sys}
  {page parent child p : PageRef} {key value : Blob} {above : Above}

/-! ### Pages an insert has not come to -/

/-- Up to this rank the insert may have written pages; the others stand as before it. -/
def WrittenTo (nodes : PageId → TreeNode) (s : Sys) (rank : PageId → ℚ) (r : ℚ) (t : Sys)
    (nodes' : PageId → TreeNode) : Prop :=
  s.pager.nextPage ≤ t.pager.nextPage ∧
    ∀ id, s.pageAt id ≠ none → r < rank id → t.pageAt id = s.pageAt id ∧ nodes' id = nodes id

/-- The page was in the tree before the insert and comes after the written ones. -/
def Later (s : Sys) (rank : PageId → ℚ) (r : ℚ) (id : PageId) : Prop :=
  s.pageAt id ≠ none ∧ r < rank id

/-- What the insert has written when it visits a page. -/
def FoundAsBefore (nodes : PageId → TreeNode) (s : Sys) (rank : PageId → ℚ) (above : Above)
    (page : PageRef) (t : Sys) (nodes' : PageId → TreeNode) : Prop :=
  ∃ r, WrittenTo nodes s rank r t nodes' ∧
    (∀ parent index, above = some (parent, index) → s.pageAt parent.id ≠ none →
      rank parent.id ≤ r) ∧
    (s.pageAt page.id ≠ none → r < rank page.id) ∧
    ∀ c ∈ (nodes' page.id).links, Later s rank r c

/-- What it has written when there is room on the page. A link of the page that is
new leads to its other half. -/
def LeftAsBefore (nodes : PageId → TreeNode) (s : Sys) (rank : PageId → ℚ)
    (page : PageRef) (t : Sys)
    (nodes' : PageId → TreeNode) : Prop :=
  ∃ r, WrittenTo nodes s rank r t nodes' ∧ (s.pageAt page.id ≠ none → rank page.id ≤ r) ∧
    ∀ c ∈ (nodes' page.id).links, Later s rank r c ∨
      s.pageAt c = none ∧ ∀ d ∈ (nodes' c).links, Later s rank r d

theorem WrittenTo.mono {rank : PageId → ℚ} {r r' : ℚ} {nodes' : PageId → TreeNode}
    (h : WrittenTo nodes s rank r t nodes') (hle : r ≤ r') : WrittenTo nodes s rank r' t nodes' :=
  ⟨h.1, fun id hid hlt => h.2 id hid (hle.trans_lt hlt)⟩

/-- A page that is visited is written next, with all before it. -/
theorem FoundAsBefore.raise {rank : PageId → ℚ} {nodes' : PageId → TreeNode}
    (hrank : ∀ id, s.pageAt id ≠ none → ∀ c ∈ (nodes id).links, rank id < rank c)
    (h : FoundAsBefore nodes s rank above page t nodes') :
    ∃ r, WrittenTo nodes s rank r t nodes' ∧
      (∀ parent index, above = some (parent, index) → s.pageAt parent.id ≠ none →
        rank parent.id ≤ r) ∧
      (s.pageAt page.id ≠ none → rank page.id ≤ r) ∧
      ∀ c ∈ (nodes' page.id).links, Later s rank r c := by
  obtain ⟨r, hwritten, habove, hpage, hlinks⟩ := h
  by_cases hold : s.pageAt page.id = none
  · exact ⟨r, hwritten, habove, fun h => absurd hold h, hlinks⟩
  · have hlt := hpage hold
    refine ⟨rank page.id, hwritten.mono hlt.le, fun p i h hp => (habove p i h hp).trans hlt.le,
      fun _ => le_rfl, fun c hc => ⟨(hlinks c hc).1, ?_⟩⟩
    rw [(hwritten.2 _ hold hlt).2] at hc
    exact hrank _ hold c hc

/-- Writing a page that is split, its new half and the page above leaves the later ones. -/
theorem WrittenTo.split {rank : PageId → ℚ} {r : ℚ} {nodes' nodes'' : PageId → TreeNode}
    (h : WrittenTo nodes s rank r t nodes') (hnext : t.pager.nextPage ≤ u.pager.nextPage)
    (hsame : ∀ id, s.pageAt id ≠ none → r < rank id →
      u.pageAt id = t.pageAt id ∧ nodes'' id = nodes' id) : WrittenTo nodes s rank r u nodes'' :=
  ⟨h.1.trans hnext, fun id hid hlt =>
    ⟨(hsame id hid hlt).1.trans (h.2 id hid hlt).1, (hsame id hid hlt).2.trans (h.2 id hid hlt).2⟩⟩

/-- The links of a half of a split page. -/
theorem later_halves {rank : PageId → ℚ} {r : ℚ} {nodes' nodes'' : PageId → TreeNode} {c n : PageId}
    (hne : c ≠ n) (hlinks : ∀ x ∈ (nodes' c).links, Later s rank r x) (hnew : s.pageAt n = none)
    (hsplit : ∀ id, id = c ∨ id = n → nodes'' id = splitNodes nodes' c n id)
    (hp : p.id = c ∨ p.id = n) :
    ∀ x ∈ (nodes'' p.id).links, Later s rank r x ∨
      s.pageAt x = none ∧ ∀ d ∈ (nodes'' x).links, Later s rank r d := by
  have hupper : ∀ d ∈ (nodes'' n).links, Later s rank r d := by
    intro d hd
    rw [hsplit n (Or.inr rfl), splitNodes, Function.update_self] at hd
    exact hlinks d (links_dropTo hd)
  intro x hx
  rcases hp with hp | hp
  · rw [hp, hsplit c (Or.inl rfl), splitNodes, Function.update_of_ne hne,
      Function.update_self] at hx
    rcases links_takeTo hx with rfl | hx
    · exact Or.inr ⟨hnew, hupper⟩
    · exact Or.inl (hlinks x hx)
  · rw [hp] at hx
    exact Or.inl (hupper x hx)

/-- An insert goes from pages it may have written to pages it has not come to. -/
theorem walkRule_asBefore (hnodes : PagesHold type nodes s) (hspace : Uncompacted key value s)
    {rank : PageId → ℚ} (hrank : ∀ id, s.pageAt id ≠ none →
      ∀ c ∈ (nodes id).links, rank id < rank c) :
    WalkRule type key value s nodes (FoundAsBefore nodes s rank) (LeftAsBefore nodes s rank) := by
  refine ⟨fun page t hid hsame => ?_, ?_, ?_,
    fun parent index page t _ hvisit _ _ _ => hspace.parent parent index page t hvisit⟩
  · have hroot : s.pageAt page.id ≠ none := hid ▸ hnodes.root
    have hlt : rank page.id - 1 < rank page.id := sub_one_lt _
    refine ⟨rank page.id - 1, ⟨hsame.nextPage, fun id _ _ => ⟨congrFun hsame.pageAt id, rfl⟩⟩,
      by simp, fun _ => hlt, fun c hc => ⟨hnodes.links _ hroot c hc, ?_⟩⟩
    exact hlt.trans (hrank _ hroot c hc)
  · intro above page t p u nodes' nodes'' hvisit hstand ht hspare hhangs hI hgrows hu
    obtain ⟨r, hwritten, habove, hpage, hlinks⟩ := hI.raise hrank
    have hhere : t.pageAt page.id ≠ none := by simp [hstand.holding.pageAt (List.mem_cons_self ..)]
    have hne : page.id ≠ t.pager.nextPage := (ht.fresh _ hhere).ne
    have hold : ∀ id, s.pageAt id ≠ none → id < t.pager.nextPage := fun id hid =>
      (hnodes.fresh id hid).trans_le hwritten.1
    have hnew : s.pageAt t.pager.nextPage = none := by
      by_contra h
      exact lt_irrefl _ (hold _ h)
    have hapart : ∀ id, s.pageAt id ≠ none → r < rank id → id ≠ page.id := by
      rintro id hid hlt rfl
      exact absurd hlt (not_lt.mpr (hpage hid))
    cases hgrows with
    | stay _ hpages _ hnext =>
        exact ⟨r, hwritten.split hnext.ge fun id _ _ => ⟨congrFun hpages id, rfl⟩, hpage,
          fun c hc => Or.inl (hlinks c hc)⟩
    | root hfull hsplit =>
        obtain ⟨next, new, hstore⟩ := hsplit.store
        have hhalf : p.id = page.id ∨ p.id = t.pager.nextPage := by
          rw [hsplit.half, chosenHalf]
          split <;> simp
        have hnodes'' : ∀ id, id ≠ t.pager.nextPage + 1 →
            rootNodes nodes' page.id t.pager.nextPage id =
            splitNodes nodes' page.id t.pager.nextPage id :=
              fun id hid => Function.update_of_ne hid _ _
        have hbefore := ht.fresh _ hhere
        have hnext : t.pager.nextPage ≤ u.pager.nextPage :=
          (Nat.le_add_right _ 2).trans_eq hsplit.nextPage.symm
        refine ⟨r, hwritten.split hnext fun id hid hlt => ?_, ?_, ?_⟩
        · have hpast := hold id hid
          have htop : id ≠ t.pager.nextPage + 1 := (hpast.trans (Nat.lt_succ_self _)).ne
          rw [hstore, hnodes'' id htop, Function.update_of_ne htop, Sys.splitStore,
            Function.update_of_ne hpast.ne, Function.update_of_ne (hapart id hid hlt), splitNodes,
            Function.update_of_ne hpast.ne, Function.update_of_ne (hapart id hid hlt)]
          exact ⟨rfl, rfl⟩
        · rcases hhalf with h | h
          · rwa [h]
          · exact fun hid => absurd (h ▸ hnew) hid
        · refine later_halves hne hlinks hnew (fun id hid => hnodes'' id ?_) hhalf
          rcases hid with rfl | rfl
          · exact (hbefore.trans (Nat.lt_succ_self _)).ne
          · exact (Nat.lt_succ_self _).ne
    | @child parent page p index pre post right u hfull hbelow hsplit =>
        obtain ⟨next, data, -, hstore⟩ := hsplit.store
        have hhalf : p.id = page.id ∨ p.id = t.pager.nextPage := by
          rw [hsplit.half, chosenHalf]
          split <;> simp
        have hheld : Holding [page, parent] t := hstand.holding
        have hparent : t.pageAt parent.id ≠ none := by
          simp [hheld.pageAt (by simp : parent ∈ [page, parent])]
        have hpp : page.id ≠ parent.id := by
          have hnd := hheld.nodup
          simpa using hnd
        have hnodes'' : ∀ id, id ≠ parent.id →
            childNodes nodes' page.id t.pager.nextPage parent.id pre
            post right id = splitNodes nodes' page.id t.pager.nextPage id := fun id hid =>
          Function.update_of_ne hid _ _
        have hnext : t.pager.nextPage ≤ u.pager.nextPage :=
          (Nat.le_succ _).trans_eq hsplit.nextPage.symm
        refine ⟨r, hwritten.split hnext fun id hid hlt => ?_, ?_, ?_⟩
        · have hpast := hold id hid
          have hne' : id ≠ parent.id := by
            rintro rfl
            exact absurd hlt (not_lt.mpr (habove parent _ rfl hid))
          rw [hstore, hnodes'' id hne', Function.update_of_ne hne', Sys.splitStore,
            Function.update_of_ne hpast.ne, Function.update_of_ne (hapart id hid hlt), splitNodes,
            Function.update_of_ne hpast.ne, Function.update_of_ne (hapart id hid hlt)]
          exact ⟨rfl, rfl⟩
        · rcases hhalf with h | h
          · rwa [h]
          · exact fun hid => absurd (h ▸ hnew) hid
        · refine later_halves hne hlinks hnew (fun id hid => hnodes'' id ?_) hhalf
          rcases hid with rfl | rfl
          · exact hpp
          · exact (ht.fresh _ hparent).ne'
  · intro page t child index u nodes' hsettled ht hJ hhangs hsame
    obtain ⟨r, hwritten, hpage, hlinks⟩ := hJ
    obtain ⟨pre, post, right, hbelow⟩ := hhangs
    have hlink : child.id ∈ (nodes' page.id).links := by
      rw [hbelow.enters.node, hbelow.child]
      exact childOf_mem_links
    refine ⟨r, hwritten.split hsame.nextPage fun id _ _ => ⟨congrFun hsame.pageAt id, rfl⟩,
      fun p i hpi => ?_, fun hold => ?_, fun c hc => ?_⟩
    · obtain ⟨rfl, rfl⟩ := Prod.mk.inj (Option.some.inj hpi)
      exact hpage
    · rcases hlinks _ hlink with hlater | ⟨hnone, -⟩
      · exact hlater.2
      · exact absurd hnone hold
    · rcases hlinks _ hlink with ⟨hold, hlt⟩ | ⟨-, hupper⟩
      · rw [(hwritten.2 _ hold hlt).2] at hc
        exact ⟨hnodes.links _ hold c hc, hlt.trans (hrank _ hold c hc)⟩
      · exact hupper c hc

/-- A page an insert visits stands as it stood before the insert. -/
theorem Visit.asBefore (hok : s.PagerOk) (hnodes : PagesHold type nodes s)
    (hpages : HasPages key value s)
    (hspace : Uncompacted key value s) (hvisit : Visit key value s above page t)
    (hold : s.pageAt page.id ≠ none) : s.pageAt page.id = some (t.page page) := by
  obtain ⟨rank, hrank⟩ := hnodes.acyclic
  obtain ⟨_, -, -, r, hwritten, -, hlater, -⟩ :=
    hvisit.keeps (walkRule_asBefore hnodes hspace hrank) hok hnodes hpages
  rw [← (hwritten.2 _ hold (hlater hold)).1]
  exact (hvisit.standing hok).holding.pageAt (List.mem_cons_self ..)

/-! ### The page above a split -/

/-- The parent has room for the separator, and `page_insert_inner` passes the
assertion. -/
structure SeparatorFits (t : Sys) (parent : PageRef) (index : Nat) (splitKey : Blob) : Prop where
  room : sizeofPageId + splitKey.size + 2 ≤ freeSpace (t.page parent)
  asserted : ∀ pageId, ∃ data, pageInsertInner t.stack t.tree.pageSize (t.page parent) index
    splitKey pageId = .ok data

/-- The key of the last cell in the lower half of a page. -/
def middleKey (page : Mem) : Blob :=
  payloadGetKey (pageFlags page) (pageGetPayload page (cellCount page / 2 - 1))

/-- The page above has room for the separator of a child: it is to be split itself,
and the half for the key takes a page id, the separator and a slot; or its free
space, which covers a page id and the key, is none of the values up to what the
separator needs. -/
def LeavesRoom (key value : Blob) (pageSize : Nat) (page child : Mem) : Prop :=
  if needsSplit page key value then
    HalfTakes key ((middleKey child).size + sizeofPageId + 2) pageSize page
  else freeSpace page ∉
    Set.Ico (key.size + sizeofPageId) ((middleKey child).size + sizeofPageId + 2)

instance (key value : Blob) (pageSize : Nat) (page child : Mem) :
    Decidable (LeavesRoom key value pageSize page child) := by
  unfold LeavesRoom
  infer_instance

/-- The separator has the size of the key in the last cell of the lower half. -/
theorem PageHolds.size_splitKey {pageSize : Nat} {data : Mem} {node : TreeNode} {nextId : PageId}
    (h : PageHolds type pageSize data node) (stack : Mem) (hcut : cellCount data / 2 ≠ 0)
    (hid : nextId < 2 ^ 32) :
    (Wednesday.splitKey stack pageSize data nextId).size = (middleKey data).size := by
  have hlt : cellCount data / 2 - 1 < node.keys.length := by
    rw [h.count] at hcut ⊢
    omega
  have hkey : (middleKey data).bytes = node.keys[cellCount data / 2 - 1] := h.payloadGetKey hlt
  have hsplit := (h.splitKey_bytes stack hcut hid).1
  have hsame : cutKey node = node.keys[cellCount data / 2 - 1] := by
    simp only [h.count] at hlt ⊢
    exact cutKey_eq hlt
  rw [← Blob.length_bytes, ← Blob.length_bytes, hsplit, hkey, hsame]

theorem MakesRoom.divided (h : MakesRoom key value t above page p u)
    (hfull : needsSplit (t.page page) key value = true) : cellCount (t.page page) / 2 ≠ 0 := by
  cases h with
  | stayRoot hstay => simp [hstay] at hfull
  | splitRoot _ hsplit => exact hsplit.divided
  | stayChild hstay => simp [hstay] at hfull
  | splitChild _ hsplit => exact hsplit.divided

/-- Below a page that was not split stands the page itself, and below one that was
split the half for the key. -/
theorem Visit.parent_page (hok : s.PagerOk) (hnodes : PagesHold type nodes s)
    (hpages : HasPages key value s)
    (hspace : Uncompacted key value s) (hvisit : Visit key value s above page t)
    (hmade : makeRoom key value page above t = .success parent u) :
    if needsSplit (t.page page) key value then
      ∃ next, u.page parent = chosenData key t page next
    else u.page parent = t.page page := by
  obtain ⟨nodes', ht⟩ := hvisit.pagesHold hok hnodes hpages hspace
  have hstand := hvisit.standing hok
  have hspare := hpages _ _ _ hvisit
  have hmakes := makeRoom_makes hstand.holding (fun hfull => ht.newPage (hspare hfull)) hmade
  split
  · rename_i hfull
    exact hmakes.page_chosen ht hstand hfull (makeRoom_settled hstand hmade).holding
  · rename_i hstay
    cases hmakes with
    | stayRoot => rfl
    | splitRoot hfull => exact absurd hfull hstay
    | stayChild => simp
    | splitChild hfull => exact absurd hfull hstay

end

section

variable {s s₀ t u v : Sys} {page parent child : PageRef} {above : Above}
  {id index : Nat} {row : Blob}

end

/-! ### An insert below the root -/

/-- The pages of an insert that ends at a child of the root, and the states in which
it comes to them. -/
structure ChildWay where
  page : PageRef
  parent : PageRef
  child : PageRef
  half : PageRef
  index : Nat
  atPage : Sys
  atParent : Sys
  atChild : Sys
  atHalf : Sys

/-- The insert takes this way. -/
structure ChildWay.Leads (key value : Blob) (s : Sys) (w : ChildWay) : Prop where
  root : fixRoot s = .success w.page w.atPage
  room : makeRoom key value w.page none w.atPage = .success w.parent w.atParent
  inner : pageIsInner (pageFlags (w.atParent.page w.parent)) = true
  space : payloadPutLen (pageFlags (w.atParent.page w.parent)) key value ≤
    freeSpace (w.atParent.page w.parent)
  down : stepDown w.parent key w.atParent = .success (w.child, w.index) w.atChild
  made : makeRoom key value w.child (some (w.parent, w.index)) w.atChild = .success w.half w.atHalf
  leaf : pageIsLeaf (pageFlags (w.atHalf.page w.half)) = true

def childWay (key value : Blob) (s : Sys) : Option ChildWay := do
  let (page, t) ← (fixRoot s).value?
  let (parent, u) ← (makeRoom key value page none t).value?
  let ((child, index), v) ← (stepDown parent key u).value?
  let (half, w) ← (makeRoom key value child (some (parent, index)) v).value?
  some ⟨page, parent, child, half, index, t, u, v, w⟩

/-- The decisions on the way. -/
def ChildWay.checks (key value : Blob) (w : ChildWay) : Bool :=
  pageIsInner (pageFlags (w.atParent.page w.parent)) &&
  decide (payloadPutLen (pageFlags (w.atParent.page w.parent)) key value ≤
    freeSpace (w.atParent.page w.parent)) &&
  pageIsLeaf (pageFlags (w.atHalf.page w.half)) &&
  decide (w.atPage.pager.pageCount + 2 < w.atPage.pager.size ∧
    2 + w.atPage.pager.nextPage < 2 ^ 32) &&
  decide (w.atChild.pager.pageCount + 1 < w.atChild.pager.size ∧
    1 + w.atChild.pager.nextPage < 2 ^ 32) &&
  decide ((w.atChild.splitKey w.child w.atChild.pager.nextPage).size + sizeofPageId + 2 ≤
    pageGetSpace (w.atChild.page w.parent)) &&
  decide (key.size + value.size + 2 ≤ pageGetSpace (w.atHalf.page w.half))

section

variable {key value : Blob} {s t : Sys} {w : ChildWay} {above : Above} {page : PageRef} {type : Nat}

theorem leads_of_childWay (h : childWay key value s = some w)
    (hchecks : w.checks key value = true) :
    w.Leads key value s := by
  simp only [childWay, Option.bind_eq_bind, Option.bind_eq_some_iff, Prod.exists,
    Outcome.value?_eq_some, Option.some.injEq] at h
  obtain ⟨page, t, hroot, parent, u, hroom, child, index, v, hdown, half, x, hmade, rfl⟩ := h
  simp only [ChildWay.checks, Bool.and_eq_true, decide_eq_true_eq] at hchecks
  exact ⟨hroot, hroom, hchecks.1.1.1.1.1.1, hchecks.1.1.1.1.1.2, hdown, hmade, hchecks.1.1.1.1.2⟩

/-- Such an insert visits the root and the child. -/
theorem ChildWay.Leads.visits (h : w.Leads key value s) (hvisit : Visit key value s above page t) :
    (above = none ∧ page = w.page ∧ t = w.atPage) ∨
      (above = some (w.parent, w.index) ∧ page = w.child ∧ t = w.atChild) := by
  induction hvisit with
  | root hfix =>
      obtain ⟨rfl, rfl⟩ := Outcome.success.inj (h.root.symm.trans hfix)
      exact Or.inl ⟨rfl, rfl, rfl⟩
  | child _ hroom hinner _ hstep ih =>
      rcases ih with ⟨rfl, rfl, rfl⟩ | ⟨rfl, rfl, rfl⟩
      · obtain ⟨rfl, rfl⟩ := Outcome.success.inj (h.room.symm.trans hroom)
        obtain ⟨hchild, rfl⟩ := Outcome.success.inj (h.down.symm.trans hstep)
        obtain ⟨rfl, rfl⟩ := Prod.mk.inj hchild
        exact Or.inr ⟨rfl, rfl, rfl⟩
      · obtain ⟨rfl, rfl⟩ := Outcome.success.inj (h.made.symm.trans hroom)
        rw [pageIsInner_eq, h.leaf] at hinner
        cases hinner

theorem ChildWay.Leads.insertable (h : w.Leads key value s) (hchecks : w.checks key value = true)
    (hkey : KeyEncoded type key.bytes) (hvalue : ValueEncoded type value.bytes) :
    Insertable type key value s := by
  simp only [ChildWay.checks, Bool.and_eq_true, decide_eq_true_eq] at hchecks
  obtain ⟨⟨⟨⟨-, hpage⟩, hchild⟩, hparent⟩, hleaf⟩ := hchecks
  refine ⟨hkey, hvalue, fun above page t hvisit _ => ?_, fun parent index page t hvisit _ _ => ?_,
    fun page t hreach hpageLeaf _ => ?_⟩
  · rcases h.visits hvisit with ⟨rfl, rfl, rfl⟩ | ⟨rfl, rfl, rfl⟩
    · exact ⟨hpage.1, hpage.2⟩
    · exact ⟨hchild.1, hchild.2⟩
  · rcases h.visits hvisit with ⟨habove, -, -⟩ | ⟨habove, rfl, rfl⟩
    · cases habove
    · obtain ⟨rfl, rfl⟩ := Prod.mk.inj (Option.some.inj habove)
      exact hparent
  · obtain ⟨above, q, x, hvisit, hroom⟩ := hreach
    rcases h.visits hvisit with ⟨rfl, rfl, rfl⟩ | ⟨rfl, rfl, rfl⟩
    · obtain ⟨rfl, rfl⟩ := Outcome.success.inj (h.room.symm.trans hroom)
      have hinner := h.inner
      rw [pageIsInner_eq, hpageLeaf] at hinner
      cases hinner
    · obtain ⟨rfl, rfl⟩ := Outcome.success.inj (h.made.symm.trans hroom)
      exact hleaf

end

/-- A table with some rows, and the way of the insert of another one. -/
def rowsWay (pageSize : Nat) (rows : List (Blob × Blob)) (id : Nat) (row : Blob) :
    Option (Sys × Sys × ChildWay) := do
  let s₀ ← createdTree PAGE_FLAG_TABLE pageSize 16
  let s ← insertChecked 1 s₀ rows
  let w ← childWay (tableKey s.stack id) (tableValue s.stack row) s
  some (s₀, s, w)

theorem exists_rowsWay (pageSize : Nat) (rows : List (Blob × Blob)) (id : Nat) (row : Blob)
    (hopen : PagerOpened (freshSys pageSize 16)) (hsize : pageSize < 65536)
    (hrows : ∀ row ∈ rows, KeyEncoded PAGE_FLAG_TABLE row.1.bytes ∧
      ValueEncoded PAGE_FLAG_TABLE row.2.bytes)
    {p : Sys → Sys → ChildWay → Bool}
    (h : (rowsWay pageSize rows id row).any (fun x => p x.1 x.2.1 x.2.2) = true) :
    ∃ s₀ s w, TreeCreated PAGE_FLAG_TABLE s₀ ∧
      Run (AllowedStep PAGE_FLAG_TABLE) s₀ (rows.map fun row => .insert row.1 row.2) s ∧
      childWay (tableKey s.stack id) (tableValue s.stack row) s = some w ∧ p s₀ s w = true := by
  obtain ⟨⟨s₀, s, w⟩, hsome, hp⟩ := Option.any_eq_true _ _ |>.mp h
  simp only [rowsWay, Option.bind_eq_bind, Option.bind_eq_some_iff, Option.some.injEq,
    Prod.mk.injEq] at hsome
  obtain ⟨s₀', hcreated, s', hrun, w', hway, rfl, rfl, rfl⟩ := hsome
  exact ⟨s₀', s', w', treeCreated_of_createdTree hopen hsize hcreated,
    run_of_insertChecked hrows hrun, hway, hp⟩

end Wednesday
