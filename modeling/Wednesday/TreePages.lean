import Wednesday.BtreeRoom

/-!
The pages of a tree by their ids. As long as the pager has frames to spare it
evicts nothing, and an insert writes exactly the pages it splits and the leaf
of its row.
-/

namespace Wednesday

open Lib Prog Pager

/-- What stands under a page id; there is no page 0. -/
def Sys.pageAt (s : Sys) (id : PageId) : Option Mem :=
  if id = 0 then none else (s.pager.locate id).map fun f => (s.pager.header f).data

/-- What stands under a page id, less the pages in `X`: those of nobody, or of
somebody else. -/
def Sys.ownAt (s : Sys) (X : PageId → Bool) (id : PageId) : Option Mem :=
  if X id then none else s.pageAt id

/-- No page is latched but those held. -/
def Quiet (held : List PageRef) (s : Sys) : Prop :=
  ∀ id f, id ≠ 0 → s.pager.locate id = some f → (∀ page ∈ held, page.id ≠ id) →
    (s.pager.header f).latch = 0

/-- The pager has `n` more frames and `n` more page ids. -/
structure Sys.Spare (n : Nat) (s : Sys) : Prop where
  frames : s.pager.pageCount + n < s.pager.size
  ids : n + s.pager.nextPage < 2 ^ 32

theorem Sys.Spare.nextPage_lt {n : Nat} {s : Sys} (h : s.Spare n) : s.pager.nextPage < 2 ^ 32 :=
  lt_of_le_of_lt (Nat.le_add_left _ n) h.ids

section

variable {s t u : Sys} {page parent root : PageRef} {held : List PageRef} {p : Pager} {id : PageId}
  {data : Mem} {X : PageId → Bool}

theorem pageAt_eq_some (hid : id ≠ 0) {f : Nat} (hf : s.pager.locate id = some f) :
    s.pageAt id = some (s.pager.header f).data := by
  simp [Sys.pageAt, hid, hf]

theorem pageAt_eq_none_iff (hid : id ≠ 0) : s.pageAt id = none ↔ s.pager.locate id = none := by
  simp [Sys.pageAt, hid]

theorem Sys.pageAt_zero (s : Sys) : s.pageAt 0 = none := rfl

theorem ne_zero_of_there (hthere : s.pageAt id ≠ none) : id ≠ 0 := by
  rintro rfl
  exact hthere (Sys.pageAt_zero s)

theorem pageAt_congr (hlocate : ∀ id, id ≠ 0 → t.pager.locate id = s.pager.locate id)
    (hdata : ∀ id f, id ≠ 0 → s.pager.locate id = some f →
      (t.pager.header f).data = (s.pager.header f).data) : t.pageAt = s.pageAt := by
  funext id
  by_cases hid : id = 0
  · rw [hid, Sys.pageAt_zero, Sys.pageAt_zero]
  · rw [Sys.pageAt, Sys.pageAt, if_neg hid, if_neg hid, hlocate id hid]
    cases hf : s.pager.locate id with
    | none => rfl
    | some f => rw [Option.map_some, Option.map_some, hdata id f hid hf]

theorem Holding.pageAt (h : Holding held s) (hpage : page ∈ held) :
    s.pageAt page.id = some (s.page page) := by
  obtain ⟨hid, hloc⟩ := h.there page hpage
  exact pageAt_eq_some hid hloc

theorem Holding.pageAt_written (h : Holding held s) (hpage : page ∈ held) (data : Mem) :
    (s.written page data).pageAt = Function.update s.pageAt page.id (some data) := by
  obtain ⟨hpid, hploc⟩ := h.there page hpage
  funext id
  by_cases hid : id = page.id
  · subst hid
    rw [Function.update_self, pageAt_eq_some (s := s.written page data) hpid hploc]
    exact congrArg some (Sys.page_written_self s page data)
  · rw [Function.update_of_ne hid]
    by_cases hzero : id = 0
    · rw [hzero, Sys.pageAt_zero, Sys.pageAt_zero]
    rw [Sys.pageAt, Sys.pageAt, if_neg hzero, if_neg hzero]
    cases hf : s.pager.locate id with
    | none => simp [Sys.written, writeData, hf]
    | some f =>
        have hne : f ≠ page.frame := fun heq => hid (h.ok.locate_inj hzero hpid (heq ▸ hf) hploc)
        simp only [Sys.written, writeData, locate_setHeader, hf, Option.map_some,
          header_setHeader_ne _ _ _ _ hne]

theorem ownAt_eq (hown : X id = false) : s.ownAt X id = s.pageAt id := by
  simp [Sys.ownAt, hown]

theorem ownAt_ne_none (h : s.ownAt X id ≠ none) : X id = false ∧ s.pageAt id ≠ none := by
  cases hown : X id with
  | true => simp [Sys.ownAt, hown] at h
  | false => exact ⟨rfl, ownAt_eq hown ▸ h⟩

theorem ownAt_congr (h : t.pageAt = s.pageAt) : t.ownAt X = s.ownAt X := by
  funext id
  rw [Sys.ownAt, Sys.ownAt, h]

theorem Holding.ownAt (h : Holding held s) (hpage : page ∈ held) (hown : X page.id = false) :
    s.ownAt X page.id = some (s.page page) :=
  (ownAt_eq hown).trans (h.pageAt hpage)

theorem Holding.ownAt_written (h : Holding held s) (hpage : page ∈ held) (hown : X page.id = false)
    (data : Mem) :
    (s.written page data).ownAt X = Function.update (s.ownAt X) page.id (some data) := by
  funext id
  by_cases hid : id = page.id
  · rw [hid, Function.update_self, ownAt_eq hown, h.pageAt_written hpage, Function.update_self]
  · rw [Function.update_of_ne hid, Sys.ownAt, Sys.ownAt, h.pageAt_written hpage,
      Function.update_of_ne hid]

@[simp] theorem pageAt_unfixed : (s.unfixed page).pageAt = s.pageAt :=
  pageAt_congr (fun _ _ => rfl) fun _ f _ _ => (Sys.page_unfixed s page ⟨0, f⟩)

@[simp] theorem pageAt_rooted (id : PageId) : (s.rooted id).pageAt = s.pageAt := rfl

section

variable (s : Sys) (page parent split new : PageRef) (data : Mem) (splitKey : Blob) (id : PageId)

@[simp] theorem nextPage_written : (s.written page data).pager.nextPage = s.pager.nextPage := rfl
@[simp] theorem pageCount_written : (s.written page data).pager.pageCount = s.pager.pageCount := rfl
@[simp] theorem size_written : (s.written page data).pager.size = s.pager.size := rfl
@[simp] theorem nextPage_unfixed : (s.unfixed page).pager.nextPage = s.pager.nextPage := rfl
@[simp] theorem pageCount_unfixed : (s.unfixed page).pager.pageCount = s.pager.pageCount := rfl
@[simp] theorem size_unfixed : (s.unfixed page).pager.size = s.pager.size := rfl
@[simp] theorem nextPage_halved : (s.halved page split).pager.nextPage = s.pager.nextPage := rfl
@[simp] theorem pageCount_halved : (s.halved page split).pager.pageCount = s.pager.pageCount := rfl
@[simp] theorem size_halved : (s.halved page split).pager.size = s.pager.size := rfl
@[simp] theorem nextPage_grafted :
    (s.grafted parent page split data).pager.nextPage = s.pager.nextPage := rfl
@[simp] theorem pageCount_grafted :
    (s.grafted parent page split data).pager.pageCount = s.pager.pageCount := rfl
@[simp] theorem size_grafted : (s.grafted parent page split data).pager.size = s.pager.size := rfl
@[simp] theorem nextPage_crowned :
    (s.crowned page new splitKey id).pager.nextPage = s.pager.nextPage := rfl
@[simp] theorem pageCount_crowned :
    (s.crowned page new splitKey id).pager.pageCount = s.pager.pageCount := rfl
@[simp] theorem size_crowned : (s.crowned page new splitKey id).pager.size = s.pager.size := rfl

end

/-! ### Latches -/

theorem Quiet.written (h : Quiet held s) (page : PageRef) (data : Mem) :
    Quiet held (s.written page data) := by
  intro id f hid hf hne
  have hlatch := h id f hid hf hne
  by_cases heq : f = page.frame
  · simpa [Sys.written, writeData, heq] using hlatch
  · rwa [Sys.written, writeData, header_setHeader_ne _ _ _ _ heq]

theorem Quiet.mono {held' : List PageRef} (h : Quiet held s) (hsub : ∀ q ∈ held, q ∈ held') :
    Quiet held' s :=
  fun id f hid hf hne => h id f hid hf fun q hq => hne q (hsub q hq)

theorem Quiet.rooted (h : Quiet held s) (id : PageId) : Quiet held (s.rooted id) := h

theorem Quiet.unfixed (h : Quiet held s) (hheld : Holding held s) (hpage : page ∈ held) :
    Quiet (held.filter (· ≠ page)) (s.unfixed page) := by
  intro id f hid hf hne
  obtain ⟨hpid, hploc⟩ := hheld.there page hpage
  by_cases heq : f = page.frame
  · rw [heq, Sys.unfixed, header_setHeader_self, released, if_pos (hheld.latch page hpage)]
  · rw [Sys.unfixed, header_setHeader_ne _ _ _ _ heq]
    refine h id f hid hf fun q hq hqid => ?_
    by_cases hqp : q = page
    · rw [hqp] at hqid
      have hf' : s.pager.locate page.id = some f := hqid ▸ hf
      exact heq (Option.some.inj (hploc.symm.trans hf')).symm
    · exact hne q (List.mem_filter.mpr ⟨hq, by simpa using hqp⟩) hqid

/-! ### Fixing without eviction -/

/-- The pager a fix is asked of has the pages and frames of the state. -/
theorem asked_eq (hp : p = s.pager ∨ p = s.pager.takeId) :
    (∀ id, p.locate id = s.pager.locate id) ∧ (∀ f, p.header f = s.pager.header f) ∧
      p.pageCount = s.pager.pageCount ∧ p.size = s.pager.size := by
  rcases hp with rfl | rfl <;> exact ⟨fun _ => rfl, fun _ => rfl, rfl, rfl⟩

theorem evictsFor_eq_none (h : s.pageAt id ≠ none ∨ s.pager.pageCount + 1 < s.pager.size)
    (hp : p = s.pager ∨ p = s.pager.takeId) : p.evictsFor id = none := by
  obtain ⟨hlocate, -, hcount, hsize⟩ := asked_eq hp
  rw [evictsFor, hlocate, hcount, hsize]
  split
  · rfl
  · rename_i hnew
    rw [not_or, not_not] at hnew
    rcases h with h | h
    · exact absurd ((pageAt_eq_none_iff hnew.1).mpr hnew.2) h
    · rw [if_neg (by omega)]

/-- The other pages stay as they are, but one that is evicted. -/
theorem Fixes.same (h : Fixes held p s page t) (hp : p = s.pager ∨ p = s.pager.takeId) {j : PageId}
    (hkeep : p.evictsFor page.id ≠ some j) (hj : j ≠ 0) (hne : j ≠ page.id) :
    Same s.pager t.pager j := by
  obtain ⟨hlocate, hheader, -, -⟩ := asked_eq hp
  rcases h.fixed.others j hj hne with hsame | ⟨hev, -⟩
  · refine ⟨hsame.1.trans (hlocate j), fun f hf => ?_⟩
    rw [← hheader]
    exact hsame.2 f ((hlocate j).trans hf)
  · exact absurd hev hkeep

/-- A page that is there is fixed where it is. -/
theorem Fixes.pageAt_of_there (h : Fixes held p s page t) (hp : p = s.pager ∨ p = s.pager.takeId)
    (hthere : s.pageAt page.id ≠ none) : t.pageAt = s.pageAt := by
  obtain ⟨hlocate, hheader, -, -⟩ := asked_eq hp
  have hpid := h.fixed.ne_zero
  have hkeep (j : PageId) : p.evictsFor page.id ≠ some j := by
    rw [evictsFor_eq_none (Or.inl hthere) hp]
    exact Option.some_ne_none j ∘ Eq.symm
  have hsome : s.pager.locate page.id = some page.frame ∧
      t.pager.header page.frame = latched true (s.pager.header page.frame) := by
    rcases h.fixed.page with ⟨hloc, -, hlatched⟩ | ⟨hnone, -⟩
    · rw [hlocate] at hloc
      rw [hheader] at hlatched
      exact ⟨hloc, hlatched⟩
    · rw [hlocate] at hnone
      exact absurd ((pageAt_eq_none_iff hpid).mpr hnone) hthere
  refine pageAt_congr (fun id hid => ?_) fun id f hid hf => ?_
  · by_cases heq : id = page.id
    · rw [heq, h.fixed.located, hsome.1]
    · exact (h.same hp (hkeep id) hid heq).1
  · by_cases heq : id = page.id
    · obtain rfl := Option.some.inj (hsome.1.symm.trans (heq ▸ hf))
      rw [hsome.2, data_latched]
    · exact ((h.same hp (hkeep id) hid heq).2 f hf).1

/-- A page that was not there appears, and only pages in `X` go. -/
theorem Fixes.ownAt_of_new (h : Fixes held p s page t) (hp : p = s.pager ∨ p = s.pager.takeId)
    (hkeep : ∀ v, p.evictsFor page.id = some v → X v = true) (hown : X page.id = false) :
    t.ownAt X = Function.update (s.ownAt X) page.id (some (t.page page)) := by
  funext id
  by_cases heq : id = page.id
  · rw [heq, Function.update_self, ownAt_eq hown]
    exact pageAt_eq_some h.fixed.ne_zero h.fixed.located
  rw [Function.update_of_ne heq]
  cases hid : X id with
  | true => rw [Sys.ownAt, Sys.ownAt, hid, if_pos rfl, if_pos rfl]
  | false =>
      rw [ownAt_eq hid, ownAt_eq hid]
      by_cases hzero : id = 0
      · rw [hzero, Sys.pageAt_zero, Sys.pageAt_zero]
      have hsame :=
        h.same hp (j := id) (fun hev => by rw [hkeep id hev] at hid; cases hid) hzero heq
      rw [Sys.pageAt, Sys.pageAt, if_neg hzero, if_neg hzero, hsame.1]
      cases hf : s.pager.locate id with
      | none => rfl
      | some f => rw [Option.map_some, Option.map_some, (hsame.2 f hf).1]

theorem Fixes.pageAt_of_new (h : Fixes held p s page t) (hp : p = s.pager ∨ p = s.pager.takeId)
    (hkeep : p.evictsFor page.id = none) :
    t.pageAt = Function.update s.pageAt page.id (some (t.page page)) := by
  have hown : t.ownAt (fun _ => false) = Function.update (s.ownAt fun _ => false) page.id
      (some (t.page page)) :=
    h.ownAt_of_new hp (fun j hev => by
      rw [hkeep] at hev
      cases hev) rfl
  exact hown

theorem Fixes.quiet (h : Fixes held p s page t) (hp : p = s.pager ∨ p = s.pager.takeId)
    (hkeep : p.evictsFor page.id = none) (hquiet : Quiet held s) : Quiet (page :: held) t := by
  intro id f hid hf hne
  have hsame := h.same hp (j := id) (by rw [hkeep]; exact Option.some_ne_none id ∘ Eq.symm) hid
    (hne page (by simp)).symm
  rw [hsame.1] at hf
  rw [(hsame.2 f hf).2]
  exact hquiet id f hid hf fun q hq => hne q (List.mem_cons_of_mem _ hq)

end

/-! ### What a split does to the pages -/

section

variable {key value splitKey : Blob} {s t u v w : Sys} {page parent p : PageRef} {index : Nat}

/-- The half of a split page that covers the key. -/
def chosenHalf (key splitKey : Blob) (id splitId : PageId) : PageId :=
  if keyCompare key.data splitKey.data < 0 then id else splitId

theorem halves_fst_id (key splitKey : Blob) (page split : PageRef) :
    (halves key splitKey page split).1.id = chosenHalf key splitKey page.id split.id := by
  unfold halves chosenHalf
  split <;> rfl

/-- The pages a split of `page` writes: its own and a new one. -/
def Sys.splitStore (t : Sys) (page : PageRef) (next : Mem) : PageId → Option Mem :=
  Function.update
    (Function.update t.pageAt page.id
      (some (splitLeft t.stack t.tree.pageSize (t.page page) t.pager.nextPage)))
    t.pager.nextPage
    (some (splitRight t.stack t.tree.pageSize (t.page page) next t.pager.nextPage))

/-- What a split leaves alone, and the half it goes on with. -/
structure SplitCommon (n : Nat) (key : Blob) (t : Sys) (page p : PageRef) (u : Sys) : Prop where
  divided : cellCount (t.page page) / 2 ≠ 0
  half : p.id = chosenHalf key (t.splitKey page t.pager.nextPage) page.id t.pager.nextPage
  pageSize : u.tree.pageSize = t.tree.pageSize
  stack : u.stack = t.stack
  outage : u.outage = t.outage
  nextPage : u.pager.nextPage = t.pager.nextPage + n
  pageCount : u.pager.pageCount ≤ t.pager.pageCount + n
  size : u.pager.size = t.pager.size

/-- The split of a root. -/
structure RootSplit (key : Blob) (t : Sys) (page p : PageRef) (u : Sys) : Prop
    extends SplitCommon 2 key t page p u where
  store : ∃ next new, u.pageAt = Function.update (t.splitStore page next) (t.pager.nextPage + 1)
    (some (pageInitRoot t.tree.pageSize new
      (pageFlags (splitLeft t.stack t.tree.pageSize (t.page page) t.pager.nextPage)) page.id
      (t.splitKey page t.pager.nextPage) t.pager.nextPage))
  root : u.tree.root = t.pager.nextPage + 1
  quiet : Quiet [page] t → Quiet [p] u

/-- The split of a child. -/
structure ChildSplit (key : Blob) (t : Sys) (parent page : PageRef) (index : Nat) (p : PageRef)
    (u : Sys) : Prop extends SplitCommon 1 key t page p u where
  store : ∃ next data, pageInsertInner t.stack t.tree.pageSize (t.page parent) index
      (t.splitKey page t.pager.nextPage) t.pager.nextPage = .ok data ∧
    u.pageAt = Function.update (t.splitStore page next) parent.id (some data)
  root : u.tree.root = t.tree.root
  quiet : Quiet [page, parent] t → Quiet [p] u

/-- What the split of a child leaves on the pages. -/
structure ChildStored (t : Sys) (parent page : PageRef) (index : Nat) (u : Sys) : Prop where
  divided : cellCount (t.page page) / 2 ≠ 0
  store : ∃ next data, pageInsertInner t.stack t.tree.pageSize (t.page parent) index
      (t.splitKey page t.pager.nextPage) t.pager.nextPage = .ok data ∧
    u.pageAt = Function.update (t.splitStore page next) parent.id (some data)
  tree : u.tree = t.tree
  nextPage : u.pager.nextPage = t.pager.nextPage + 1

theorem ChildSplit.stored (h : ChildSplit key t parent page index p u) :
    ChildStored t parent page index u := by
  refine ⟨h.divided, h.store, ?_, h.nextPage⟩
  show (⟨u.tree.root, u.tree.pageSize⟩ : BTree) = t.tree
  rw [h.root, h.pageSize]

/-- The new page of a split is not one of those there are. -/
structure NewPage (n : Nat) (t : Sys) : Prop extends t.Spare n where
  fresh : ∀ id, t.pageAt id ≠ none → id < t.pager.nextPage

theorem NewPage.nextPage_new (h : NewPage n t) : t.pageAt t.pager.nextPage = none := by
  by_contra hne
  exact absurd (h.fresh _ hne) (lt_irrefl _)

/-- After `page_split`, with the new page fixed. -/
theorem Fixes.ownAt_halved {split : PageRef} {held : List PageRef} {X : PageId → Bool}
    (hfix : Fixes held t.pager.takeId t split v) (hid : split.id = t.pager.nextPage)
    (hkeep : ∀ j, t.pager.takeId.evictsFor split.id = some j → X j = true)
    (hown : X split.id = false) (hpage : page ∈ held) (hown' : X page.id = false) :
    (v.halved page split).ownAt X = Function.update (Function.update (t.ownAt X) page.id
        (some (splitLeft t.stack t.tree.pageSize (t.page page) t.pager.nextPage))) t.pager.nextPage
        (some (splitRight t.stack t.tree.pageSize (t.page page) (v.page split) t.pager.nextPage)) ∧
      (v.halved page split).page page =
        splitLeft t.stack t.tree.pageSize (t.page page) t.pager.nextPage := by
  have hne : page ≠ split := by
    rintro rfl
    exact (List.nodup_cons.mp hfix.holding.nodup).1 (List.mem_map_of_mem hpage)
  have hin : page ∈ split :: held := List.mem_cons_of_mem _ hpage
  have hsplit : split ∈ split :: held := List.mem_cons_self
  have hids : page.id ≠ t.pager.nextPage := fun heq =>
    hne (hfix.holding.eq_of_id hin hsplit (heq.trans hid.symm))
  have hleft : Holding (split :: held) (v.written page
      (splitLeft v.stack v.tree.pageSize (v.page page) split.id)) := hfix.holding.written _
  have hv := hfix.ownAt_of_new (Or.inr rfl) hkeep hown
  rw [hid] at hv
  constructor
  · rw [Sys.halved, hleft.ownAt_written hsplit hown, hfix.holding.ownAt_written hin hown',
      hv, hfix.stack, hfix.tree, hfix.page page hpage, hid, Function.update_comm hids,
        Function.update_idem,
      Function.update_comm hids.symm]
  · rw [Sys.halved, hleft.page_written_ne hsplit hin hne, Sys.page_written_self,
      hfix.stack, hfix.tree, hfix.page page hpage, hid]

theorem Fixes.pageAt_halved {split : PageRef} {held : List PageRef}
    (hfix : Fixes held t.pager.takeId t split v) (hid : split.id = t.pager.nextPage)
    (hkeep : t.pager.takeId.evictsFor split.id = none) (hpage : page ∈ held) :
    (v.halved page split).pageAt = t.splitStore page (v.page split) ∧
      (v.halved page split).page page =
        splitLeft t.stack t.tree.pageSize (t.page page) t.pager.nextPage := by
  have hnone : ∀ j, t.pager.takeId.evictsFor split.id = some j →
      (fun _ : PageId => false) j = true := by
    intro j hev
    rw [hkeep] at hev
    cases hev
  exact hfix.ownAt_halved hid hnone rfl hpage rfl

theorem Fixes.nextPage_new {held : List PageRef} {n : Nat}
    (hfix : Fixes held t.pager.takeId t page v)
    (hspare : t.Spare (n + 1)) : v.pager.nextPage = t.pager.nextPage + 1 := by
  have hids := hspare.ids
  rw [hfix.fixed.nextPage]
  exact Nat.mod_eq_of_lt (by omega)

/-- After the split of a child, with all its pages fixed. -/
theorem Fixes.childStored {split : PageRef} {held : List PageRef} {data : Mem}
    (hfix : Fixes held t.pager.takeId t split v) (hid : split.id = t.pager.nextPage)
    (hspare : t.Spare 1)
    (hpage : page ∈ held) (hparent : parent ∈ held) (hcut : cellCount (t.page page) / 2 ≠ 0)
    (hdata : pageInsertInner t.stack t.tree.pageSize (t.page parent) index
      (t.splitKey page split.id) split.id =
      .ok data) : ChildStored t parent page index (v.grafted parent page split data) := by
  have hkeep : t.pager.takeId.evictsFor split.id = none :=
    evictsFor_eq_none (Or.inr hspare.frames) (Or.inr rfl)
  obtain ⟨hstore, -⟩ := hfix.pageAt_halved hid hkeep hpage
  refine ⟨hcut, ⟨v.page split, data, hid ▸ hdata, ?_⟩, hfix.tree, ?_⟩
  · rw [Sys.grafted, hfix.holding.halved.pageAt_written (List.mem_cons_of_mem _ hparent), hstore]
  · rw [nextPage_grafted]
    exact hfix.nextPage_new hspare

/-- Of the two halves, the one that is not left is the one the insert goes on with. -/
theorem eq_half {q split : PageRef} (hq : q = split ∨ q = page)
    (hne : q ≠ (halves key splitKey page split).2) : q = (halves key splitKey page split).1 := by
  rcases halves_mem key splitKey page split with ⟨heq, -⟩ | ⟨heq, -⟩
  · rw [heq] at hne ⊢
    exact hq.resolve_left hne
  · rw [heq] at hne ⊢
    exact hq.resolve_right hne

theorem splitRoot_pages (h : Holding [page] t) (hnew : NewPage 2 t) :
    wp (splitRoot page key) (fun p u => RootSplit key t page p u) (fun _ => True)
      (fun _ => True) t := by
  refine wp_splitRoot h (fun _ => trivial) (fun _ _ _ _ _ => trivial) (fun _ _ _ => trivial)
    (fun _ _ _ _ _ _ _ _ _ => trivial) (fun _ _ _ _ _ _ _ => trivial)
    fun split v hid hfix hcut new w hid' hfix' => ?_
  have hframes := hnew.frames
  have hids := hnew.ids
  have hkeep : t.pager.takeId.evictsFor split.id = none :=
    evictsFor_eq_none (Or.inr (by omega)) (Or.inr rfl)
  obtain ⟨hstore, hleft⟩ := hfix.pageAt_halved hid hkeep (List.mem_singleton_self page)
  have hnext : v.pager.nextPage = t.pager.nextPage + 1 := hfix.nextPage_new hnew.toSpare
  have hcount : v.pager.pageCount ≤ t.pager.pageCount + 1 := hfix.fixed.pageCount
  have hsize : v.pager.size = t.pager.size := hfix.fixed.shape.size
  have hhalved : Holding [split, page] (v.halved page split) := hfix.holding.halved
  have hnewId : new.id = t.pager.nextPage + 1 := hid'.trans hnext
  have hroom : (v.halved page split).pager.pageCount + 1 < (v.halved page split).pager.size := by
    change v.pager.pageCount + 1 < v.pager.size
    omega
  have hkeep' : (v.halved page split).pager.takeId.evictsFor new.id = none :=
    evictsFor_eq_none (Or.inr hroom) (Or.inr rfl)
  have hw := hfix'.pageAt_of_new (Or.inr rfl) hkeep'
  have hroot : w.page page = splitLeft t.stack t.tree.pageSize (t.page page) t.pager.nextPage :=
    (hfix'.page page (by simp)).trans hleft
  have hcrowned : Holding [new, split, page]
      (w.crowned page new (t.splitKey page split.id) split.id) := (hfix'.holding.written _).rooted _
  refine ⟨⟨hcut, ?_, ?_, ?_, ?_, ?_, ?_, ?_⟩, ⟨v.page split, w.page new, ?_⟩, ?_, fun hquiet => ?_⟩
  · rw [halves_fst_id, hid]
  · simp [hfix'.tree, hfix.tree]
  · simp [hfix'.stack, hfix.stack]
  · simp [hfix'.outage, hfix.outage]
  · simp only [nextPage_unfixed, nextPage_crowned, hfix'.fixed.nextPage, Pager.takeId,
      nextPage_halved, hnext]
    exact Nat.mod_eq_of_lt (by omega)
  · have hle : w.pager.pageCount ≤ v.pager.pageCount + 1 := hfix'.fixed.pageCount
    simp only [pageCount_unfixed, pageCount_crowned]
    omega
  · simp only [size_unfixed, size_crowned, hfix'.fixed.shape.size, Pager.takeId, size_halved, hsize]
  · rw [pageAt_unfixed, pageAt_unfixed, Sys.crowned, pageAt_rooted,
      hfix'.holding.pageAt_written (by simp), hw, Function.update_idem, hstore, hroot, hnewId, hid,
      hfix'.tree]
    simp only [Sys.tree_halved, hfix.tree]
  · simp [hnewId]
  · have hquietV : Quiet [split, page] (v.halved page split) :=
      ((hfix.quiet (Or.inr rfl) hkeep hquiet).written _ _).written _ _
    have hquietW : Quiet [new, split, page]
        (w.crowned page new (t.splitKey page split.id) split.id) :=
      ((hfix'.quiet (Or.inr rfl) hkeep' hquietV).written _ _).rooted _
    have hnd := hcrowned.nodup
    simp only [List.map_cons, List.map_nil, List.nodup_cons, List.mem_cons, List.not_mem_nil,
      or_false, not_or] at hnd
    have hother : (halves key (t.splitKey page split.id) page split).2 ∈ [new, split, page] ∧
        new ≠ (halves key (t.splitKey page split.id) page split).2 := by
      rcases halves_mem key (t.splitKey page split.id) page split with ⟨heq, -⟩ | ⟨heq, -⟩
      · rw [heq]
        exact ⟨by simp, fun hns => hnd.1.1 (by rw [hns])⟩
      · rw [heq]
        exact ⟨by simp, fun hnp => hnd.1.2 (by rw [hnp])⟩
    have hin : new ∈ [new, split, page].filter
        (· ≠ (halves key (t.splitKey page split.id) page split).2) :=
      List.mem_filter.mpr ⟨by simp, by simpa using hother.2⟩
    refine ((hquietW.unfixed hcrowned hother.1).unfixed (hcrowned.unfixed hother.1) hin).mono
      fun q hq => ?_
    simp only [List.mem_filter, List.mem_cons, List.not_mem_nil, or_false, decide_eq_true_eq] at hq
    obtain ⟨⟨hq, hqo⟩, hqn⟩ := hq
    exact List.mem_singleton.mpr (eq_half (hq.resolve_left hqn) hqo)

theorem splitChild_pages (h : Holding [page, parent] t) (hnew : NewPage 1 t) :
    wp (splitChild parent page index key)
      (fun p u => wp (pagerUnfix parent) (fun _ => ChildSplit key t parent page index p)
        (fun _ => True) (fun _ => True) u) (fun _ => True) (fun _ => True) t := by
  refine wp_splitChild h (fun _ => trivial) (fun _ _ => trivial)
    (fun _ _ _ _ _ => trivial) (fun _ _ _ => trivial) fun split v hid hfix hcut data hdata => ?_
  have hframes := hnew.frames
  have hids := hnew.ids
  have hkeep : t.pager.takeId.evictsFor split.id = none :=
    evictsFor_eq_none (Or.inr hframes) (Or.inr rfl)
  have hstored : ChildStored t parent page index (v.grafted parent page split data) :=
    hfix.childStored hid hnew.toSpare (by simp) (by simp) hcut hdata
  have hnext : v.pager.nextPage = t.pager.nextPage + 1 := hfix.nextPage_new hnew.toSpare
  have hcount : v.pager.pageCount ≤ t.pager.pageCount + 1 := hfix.fixed.pageCount
  have hsize : v.pager.size = t.pager.size := hfix.fixed.shape.size
  have hhalved : Holding [split, page, parent] (v.halved page split) := hfix.holding.halved
  have hgrafted : Holding [split, page, parent] (v.grafted parent page split data) :=
    hhalved.written _
  have hnd := hgrafted.nodup
  simp only [List.map_cons, List.map_nil, List.nodup_cons, List.mem_cons,
    List.not_mem_nil, or_false, not_or] at hnd
  have hother : (halves key (t.splitKey page split.id) page split).2 ∈ [split, page, parent] ∧
      parent ≠ (halves key (t.splitKey page split.id) page split).2 := by
    rcases halves_mem key (t.splitKey page split.id) page split with ⟨heq, -⟩ | ⟨heq, -⟩
    · rw [heq]
      exact ⟨by simp, fun hps => hnd.1.2 (by rw [hps])⟩
    · rw [heq]
      exact ⟨by simp, fun hpp => hnd.2.1 (by rw [hpp])⟩
  have hin : parent ∈ [split, page, parent].filter
      (· ≠ (halves key (t.splitKey page split.id) page split).2) :=
    List.mem_filter.mpr ⟨by simp, by simpa using hother.2⟩
  refine (hgrafted.unfixed hother.1).wp_pagerUnfix hin
    ⟨⟨hcut, ?_, ?_, ?_, ?_, ?_, ?_, ?_⟩, ?_, ?_, fun hquiet => ?_⟩
  · rw [halves_fst_id, hid]
  · simp [hfix.tree]
  · simp [hfix.stack]
  · simp [hfix.outage]
  · simp only [nextPage_unfixed, hstored.nextPage]
  · simpa only [pageCount_unfixed, pageCount_grafted] using hcount
  · simpa only [size_unfixed, size_grafted] using hsize
  · rw [pageAt_unfixed, pageAt_unfixed]
    exact hstored.store
  · simp [hfix.tree]
  · have hquietV : Quiet [split, page, parent] (v.grafted parent page split data) :=
      (((hfix.quiet (Or.inr rfl) hkeep hquiet).written _ _).written _ _).written _ _
    refine ((hquietV.unfixed hgrafted hother.1).unfixed (hgrafted.unfixed hother.1) hin).mono
      fun q hq => ?_
    simp only [List.mem_filter, List.mem_cons, List.not_mem_nil, or_false, decide_eq_true_eq] at hq
    obtain ⟨⟨hq, hqo⟩, hqp⟩ := hq
    refine List.mem_singleton.mpr (eq_half (hq.imp_right fun hq => hq.resolve_right hqp) hqo)

/-- How many pages a split takes from the pager. -/
def Above.newPages : Above → Nat
  | none => 2
  | some _ => 1

/-- What the decision on a page and the split it may lead to do. -/
inductive MakesRoom (key value : Blob) (t : Sys) : Above → PageRef → PageRef → Sys → Prop where
  | stayRoot {page : PageRef} (hstay : needsSplit (t.page page) key value = false) :
      MakesRoom key value t none page page t
  | splitRoot {page p : PageRef} {u : Sys} (hfull : needsSplit (t.page page) key value = true)
      (hsplit : RootSplit key t page p u) : MakesRoom key value t none page p u
  | stayChild {page parent : PageRef} {index : Nat}
      (hstay : needsSplit (t.page page) key value = false) :
      MakesRoom key value t (some (parent, index)) page page (t.unfixed parent)
  | splitChild {page parent p : PageRef} {index : Nat} {u : Sys}
      (hfull : needsSplit (t.page page) key value = true)
      (hsplit : ChildSplit key t parent page index p u) :
      MakesRoom key value t (some (parent, index)) page p u

theorem makeRoom_makes {above : Above} (h : Holding (page :: above.held) t)
    (hnew : needsSplit (t.page page) key value = true → NewPage above.newPages t)
    (hroom : makeRoom key value page above t = .success p u) :
    MakesRoom key value t above page p u := by
  have hwp : wp (makeRoom key value page above) (MakesRoom key value t above page) (fun _ => True)
      (fun _ => True) t := by
    cases above with
    | none =>
        simp only [makeRoom, wp_bind, wp_readPage, wp_ite]
        split
        · rename_i hfull
          exact wp_mono (splitRoot_pages h (hnew hfull)) (fun _ _ hu => .splitRoot hfull hu)
            (fun _ _ => trivial) fun _ _ => trivial
        · rename_i hstay
          exact .stayRoot (by simpa using hstay)
    | some above =>
        obtain ⟨parent, index⟩ := above
        have hheld : Holding [page, parent] t := h
        simp only [makeRoom, wp_deferred, wp_bind, wp_readPage, wp_ite]
        split
        · rename_i hfull
          refine wp_mono (splitChild_pages hheld (hnew hfull)) (fun q v hv => ?_)
            (fun _ _ => wp_true)
            fun _ _ => trivial
          exact wp_mono hv (fun _ _ hu => .splitChild hfull hu) (fun _ _ => trivial)
            fun _ _ => trivial
        · rename_i hstay
          exact hheld.wp_pagerUnfix (by simp) (.stayChild (by simpa using hstay))
  exact hwp.success hroom

end

end Wednesday
