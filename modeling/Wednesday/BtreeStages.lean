import Wednesday.TreePager

/-!
The stages of an insert, executed on the pages it holds: which pages a split
writes, and what it writes to them.
-/

namespace Wednesday

open Lib Prog Pager

/-! ### What a split writes -/

section

variable (stack : Mem) (pageSize : Nat) (page next : Mem) (nextId : PageId)

/-- The lower half of a page that is split. -/
def splitLeft : Mem := (pageSplit stack pageSize page page nextId).1

/-- The upper half, written to the page `next`. -/
def splitRight : Mem := (pageSplit stack pageSize page next nextId).2.1

/-- The key a page is split at. -/
def splitKey : Blob :=
  let left := splitLeft stack pageSize page nextId
  payloadGetKey (pageFlags left) (pageGetPayload left (cellCount page / 2 - 1))

end

section

variable {key value : Blob} {page parent split root new : PageRef} {index : Nat} {s t : Sys}
  {above : Above} {held : List PageRef}

/-- The key `page` is split at when its upper half goes to `split`. -/
def Sys.splitKey (s : Sys) (page : PageRef) (nextId : PageId) : Blob :=
  Wednesday.splitKey s.stack s.tree.pageSize (s.page page) nextId

/-- The state after `page_split`. -/
def Sys.halved (s : Sys) (page split : PageRef) : Sys :=
  (s.written page (splitLeft s.stack s.tree.pageSize (s.page page) split.id)).written split
    (splitRight s.stack s.tree.pageSize (s.page page) (s.page split) split.id)

@[simp] theorem Sys.err_halved : (s.halved page split).err = s.err := rfl
@[simp] theorem Sys.stack_halved : (s.halved page split).stack = s.stack := rfl
@[simp] theorem Sys.tree_halved : (s.halved page split).tree = s.tree := rfl
@[simp] theorem Sys.outage_halved : (s.halved page split).outage = s.outage := rfl

theorem Holding.halved (h : Holding held s) : Holding held (s.halved page split) :=
  h.written _ |>.written _

theorem Holding.page_halved (h : Holding held s) (hp : page ∈ held) (hs : split ∈ held)
    {q : PageRef} (hq : q ∈ held) (hqp : q ≠ page) (hqs : q ≠ split) :
    (s.halved page split).page q = s.page q := by
  unfold Sys.halved
  rw [(h.written _).page_written_ne hs hq hqs, h.page_written_ne hp hq hqp]

theorem splitPage_apply (page split : PageRef) (s : Sys) : splitPage page split s =
    if cellCount (s.page page) / 2 ≠ 0 then
      .success (s.splitKey page split.id) (s.halved page split)
    else .fault .splitIndex := by
  change ((assert (cellCount (s.page page) / 2 ≠ 0) Fault.splitIndex : Call Unit)
    (s.halved page split)).bind (fun _ => pure (s.splitKey page split.id)) = _
  rw [assert_apply]
  split <;> rfl

theorem wp_splitPage {Q : Blob → Sys → Prop} {E : Sys → Prop} {F : Fault → Prop}
    (hone : cellCount (s.page page) / 2 = 0 → F .splitIndex)
    (hsplit : cellCount (s.page page) / 2 ≠ 0 →
      Q (s.splitKey page split.id) (s.halved page split)) :
    wp (splitPage page split) Q E F s := by
  unfold wp
  rw [splitPage_apply]
  by_cases h : cellCount (s.page page) / 2 = 0
  · rw [if_neg (not_not.mpr h)]
    exact hone h
  · rw [if_pos h]
    exact hsplit h

theorem wp_insertInner {Q : Unit → Sys → Prop} {E : Sys → Prop} {F : Fault → Prop} {id : PageId}
    (hfull : ∀ r, pageInsertInner s.stack s.tree.pageSize (s.page page) index key id = .error r →
      F r)
    (hroom : ∀ data, pageInsertInner s.stack s.tree.pageSize (s.page page) index key id = .ok data →
      Q () (s.written page data)) :
    wp (insertInner page index key id) Q E F s := by
  simp only [insertInner, wp_bind, wp_get, wp_readPage, wp_ofExcept]
  cases hdata : pageInsertInner s.stack s.tree.pageSize (s.page page) index key id with
  | error r => exact hfull r hdata
  | ok data => exact hroom data hdata

/-! ### Fixing a page -/

/-- The call fixes `page` on top of the pages it holds; `p` is the pager it asked. -/
structure Fixes (held : List PageRef) (p : Pager) (s : Sys) (page : PageRef) (t : Sys) : Prop where
  fixed : Fixed p t.pager page.id true page.frame
  stack : t.stack = s.stack
  tree : t.tree = s.tree
  err : t.err = s.err
  outage : t.outage = s.outage
  holding : Holding (page :: held) t
  page : ∀ q ∈ held, t.page q = s.page q

theorem Holding.fixes (h : Holding held s) {p q : Pager} (hp : p = s.pager ∨ p = s.pager.takeId)
    {id : PageId} {f : Nat} {heap : Heap} (hfix : Fixed p q id true f) :
    Fixes held p s ⟨id, f⟩ (s.afterCall q heap) := by
  have hasked : Holding held { s with pager := p } := by
    rcases hp with rfl | rfl
    · exact h
    · exact ⟨h.ok.takeId, h.nodup, h.there, h.latch⟩
  obtain ⟨hheld, hpage⟩ := hasked.fixed (t := s.afterCall q heap) hfix
  refine ⟨hfix, rfl, rfl, rfl, rfl, hheld, fun r hr => (hpage r hr).trans ?_⟩
  rcases hp with rfl | rfl <;> rfl

/-- The page is fixed on top of whatever pages are held. -/
theorem Fixes.extend {held' : List PageRef} {p : Pager} (hfix : Fixes held p s page t)
    (hp : p = s.pager ∨ p = s.pager.takeId)
    (h : Holding held' s) : Fixes held' p s page t := by
  have hasked : Holding held' { s with pager := p } := by
    rcases hp with rfl | rfl
    · exact h
    · exact ⟨h.ok.takeId, h.nodup, h.there, h.latch⟩
  obtain ⟨hheld, hpage⟩ := hasked.fixed (t := t) hfix.fixed
  refine ⟨hfix.fixed, hfix.stack, hfix.tree, hfix.err, hfix.outage, hheld,
    fun r hr => (hpage r hr).trans ?_⟩
  rcases hp with rfl | rfl <;> rfl

theorem wp_fixPage (h : Holding held s) {site : Site} {text : String} {id : PageId}
    {Q : PageRef → Sys → Prop} {E : Sys → Prop} {F : Fault → Prop}
    (hfix : ∀ page t, page.id = id → Fixes held s.pager s page t → Q page t)
    (hrefuse : ∀ p e heap, errorGetCode e ≠ 0 → Refused s.pager p id →
      s.outage s.pagerCalls = true ∨ id = 0 ∨ s.pager.locate id = none →
      E { s.afterCall p heap with err := e })
    (hhang : ∀ f, s.pager.locate id = some f → (s.pager.header f).latch ≠ 0 → F .hang) :
    wp (tryCall site text (treeFix id)) Q E F s := by
  refine wp_tryCall (wp_treeFix h.ok (fun f p heap hfixed => ?_)
    (fun p e heap he href hc => ?_) hhang)
  · exact hfix _ _ rfl (h.fixes (Or.inl rfl) hfixed)
  · exact ⟨he, fun e' he' => hrefuse p e' heap (he'.trans_ne he) href hc⟩

theorem wp_nextPage (h : Holding held s) {site : Site} {text : String}
    {Q : PageRef → Sys → Prop} {E : Sys → Prop} {F : Fault → Prop}
    (hfix : ∀ page t, page.id = s.pager.nextPage → Fixes held s.pager.takeId s page t → Q page t)
    (hrefuse : ∀ p e heap, errorGetCode e ≠ 0 → Refused s.pager.takeId p s.pager.nextPage →
      E { s.afterCall p heap with err := e })
    (hhang : ∀ f, s.pager.locate s.pager.nextPage = some f → (s.pager.header f).latch ≠ 0 →
      F .hang) :
    wp (tryCall site text treeNext) Q E F s := by
  refine wp_tryCall (wp_treeNext h.ok (fun f p heap hfixed => ?_)
    (fun p e heap he href => ?_) hhang)
  · exact hfix _ _ rfl (h.fixes (Or.inr rfl) hfixed)
  · exact ⟨he, fun e' he' => hrefuse p e' heap (he'.trans_ne he) href⟩

/-! ### The splits -/

/-- The half of a split page the insert goes on with, and the other one. -/
def halves (key splitKey : Blob) (page split : PageRef) : PageRef × PageRef :=
  if keyCompare key.data splitKey.data < 0 then (page, split) else (split, page)

theorem halves_mem (key splitKey : Blob) (page split : PageRef) :
    (halves key splitKey page split = (page, split) ∧ keyCompare key.data splitKey.data < 0) ∨
    (halves key splitKey page split = (split, page) ∧ ¬ keyCompare key.data splitKey.data < 0) := by
  unfold halves
  split
  · rename_i h
    exact Or.inl ⟨rfl, h⟩
  · rename_i h
    exact Or.inr ⟨rfl, h⟩

/-- The state a split below `parent` leaves behind, with both pages still fixed. -/
def Sys.grafted (s : Sys) (parent page split : PageRef) (data : Mem) : Sys :=
  (s.halved page split).written parent data

section

variable (s : Sys) (parent page split : PageRef) (data : Mem)

@[simp] theorem Sys.err_grafted : (s.grafted parent page split data).err = s.err := rfl
@[simp] theorem Sys.stack_grafted : (s.grafted parent page split data).stack = s.stack := rfl
@[simp] theorem Sys.tree_grafted : (s.grafted parent page split data).tree = s.tree := rfl
@[simp] theorem Sys.outage_grafted : (s.grafted parent page split data).outage = s.outage := rfl

end

/-- The call that unfixes the half the insert leaves. -/
theorem wp_leaveHalf {splitKey : Blob} (h : Holding held s) (hp : page ∈ held) (hs : split ∈ held)
    {Q : PageRef → Sys → Prop} {E : Sys → Prop} {F : Fault → Prop}
    (hQ : Q (halves key splitKey page split).1 (s.unfixed (halves key splitKey page split).2)) :
    wp (if keyCompare key.data splitKey.data < 0 then do
        pagerUnfix split
        pure page
      else do
        pagerUnfix page
        pure split) Q E F s := by
  unfold halves at hQ
  split <;> rename_i hc
  · rw [if_pos hc] at hQ
    exact wp_bind.mpr (h.wp_pagerUnfix hs hQ)
  · rw [if_neg hc] at hQ
    exact wp_bind.mpr (h.wp_pagerUnfix hp hQ)

theorem wp_splitChild (h : Holding [page, parent] s) {Q : PageRef → Sys → Prop} {E : Sys → Prop}
    {F : Fault → Prop}
    (hone : cellCount (s.page page) / 2 = 0 → F .splitIndex)
    (hfull : ∀ r, pageInsertInner s.stack s.tree.pageSize (s.page parent) index
      (s.splitKey page s.pager.nextPage) s.pager.nextPage = .error r → F r)
    (hrefuse : ∀ p e heap, errorGetCode e ≠ 0 → Refused s.pager.takeId p s.pager.nextPage →
      E { s.afterCall p heap with err := e })
    (hhang : ∀ f, s.pager.locate s.pager.nextPage = some f → (s.pager.header f).latch ≠ 0 →
      F .hang)
    (hdone : ∀ split t, split.id = s.pager.nextPage →
      Fixes [page, parent] s.pager.takeId s split t → cellCount (s.page page) / 2 ≠ 0 →
      ∀ data, pageInsertInner s.stack s.tree.pageSize (s.page parent) index
        (s.splitKey page split.id) split.id = .ok data →
      Q (halves key (s.splitKey page split.id) page split).1
        ((t.grafted parent page split data).unfixed
          (halves key (s.splitKey page split.id) page split).2)) :
    wp (splitChild parent page index key) Q E F s := by
  unfold splitChild
  rw [wp_bind]
  refine wp_nextPage h (fun split t hid hfix => ?_) hrefuse hhang
  have hpage : t.page page = s.page page := hfix.page page (by simp)
  have hparent : t.page parent = s.page parent := hfix.page parent (by simp)
  have hkey : t.splitKey page split.id = s.splitKey page split.id := by
    simp only [Sys.splitKey, hfix.stack, hfix.tree, hpage]
  rw [wp_bind]
  refine wp_splitPage (by rwa [hpage]) fun hne => ?_
  have hhalved : Holding [split, page, parent] (t.halved page split) := hfix.holding.halved
  have hnd := hfix.holding.nodup
  simp only [List.map_cons, List.map_nil, List.nodup_cons, List.mem_cons, List.not_mem_nil,
    or_false, not_or] at hnd
  have hparent' : (t.halved page split).page parent = s.page parent := by
    rw [hfix.holding.page_halved (by simp) (by simp) (by simp), hparent]
    · rintro rfl
      exact hnd.2.1 rfl
    · rintro rfl
      exact hnd.1.2 rfl
  rw [wp_bind, hkey]
  refine wp_insertInner (fun r hr => ?_) fun data hdata => ?_
  · rw [hparent'] at hr
    exact hfull r (by rw [← hid, ← hfix.stack, ← hfix.tree]; exact hr)
  · rw [hparent'] at hdata
    have hwritten : Holding [split, page, parent] (t.grafted parent page split data) :=
      hhalved.written data
    refine wp_leaveHalf hwritten (by simp) (by simp)
      (hdone split t hid hfix (by rwa [← hpage]) data ?_)
    rw [← hfix.stack, ← hfix.tree]
    exact hdata

/-- The state after the assignment of the root. -/
def Sys.rooted (s : Sys) (root : PageId) : Sys := { s with tree := { s.tree with root } }

theorem Holding.rooted (h : Holding held s) (id : PageId) : Holding held (s.rooted id) :=
  ⟨h.ok, h.nodup, h.there, h.latch⟩

@[simp] theorem Sys.page_rooted (s : Sys) (id : PageId) (q : PageRef) :
    (s.rooted id).page q = s.page q := rfl

/-- The new root above the halves of the old one, which stands in `s` under `root`. -/
def Sys.crowned (s : Sys) (root new : PageRef) (splitKey : Blob) (splitId : PageId) : Sys :=
  (s.written new (pageInitRoot s.tree.pageSize (s.page new) (pageFlags (s.page root)) root.id
    splitKey splitId)).rooted new.id

section

variable (s : Sys) (root new : PageRef) (splitKey : Blob) (splitId : PageId)

@[simp] theorem Sys.err_crowned : (s.crowned root new splitKey splitId).err = s.err := rfl
@[simp] theorem Sys.stack_crowned : (s.crowned root new splitKey splitId).stack = s.stack := rfl
@[simp] theorem Sys.outage_crowned : (s.crowned root new splitKey splitId).outage = s.outage := rfl
@[simp] theorem Sys.tree_crowned :
    (s.crowned root new splitKey splitId).tree = { s.tree with root := new.id } := rfl

end

theorem wp_splitRoot (h : Holding [root] s) {Q : PageRef → Sys → Prop} {E : Sys → Prop}
    {F : Fault → Prop}
    (hone : cellCount (s.page root) / 2 = 0 → F .splitIndex)
    (hrefuse : ∀ p e heap, errorGetCode e ≠ 0 → Refused s.pager.takeId p s.pager.nextPage →
      E { s.afterCall p heap with err := e })
    (hhang : ∀ f, s.pager.locate s.pager.nextPage = some f → (s.pager.header f).latch ≠ 0 →
      F .hang)
    (hrefuse' : ∀ split t, split.id = s.pager.nextPage → Fixes [root] s.pager.takeId s split t →
      ∀ p e heap, errorGetCode e ≠ 0 →
      Refused (t.halved root split).pager.takeId p (t.halved root split).pager.nextPage →
      E { (t.halved root split).afterCall p heap with err := e })
    (hhang' : ∀ split t, split.id = s.pager.nextPage → Fixes [root] s.pager.takeId s split t →
      ∀ f, (t.halved root split).pager.locate (t.halved root split).pager.nextPage = some f →
      ((t.halved root split).pager.header f).latch ≠ 0 → F .hang)
    (hdone : ∀ split t, split.id = s.pager.nextPage → Fixes [root] s.pager.takeId s split t →
      cellCount (s.page root) / 2 ≠ 0 →
      ∀ new u, new.id = (t.halved root split).pager.nextPage →
      Fixes [split, root] (t.halved root split).pager.takeId (t.halved root split) new u →
      Q (halves key (s.splitKey root split.id) root split).1
        (((u.crowned root new (s.splitKey root split.id) split.id).unfixed
          (halves key (s.splitKey root split.id) root split).2).unfixed new)) :
    wp (splitRoot root key) Q E F s := by
  unfold splitRoot
  rw [wp_bind]
  refine wp_nextPage h (fun split t hid hfix => ?_) hrefuse hhang
  have hroot : t.page root = s.page root := hfix.page root (by simp)
  have hkey : t.splitKey root split.id = s.splitKey root split.id := by
    simp only [Sys.splitKey, hfix.stack, hfix.tree, hroot]
  rw [wp_bind]
  refine wp_splitPage (by rwa [hroot]) fun hne => ?_
  have hhalved : Holding [split, root] (t.halved root split) := hfix.holding.halved
  rw [wp_bind, hkey]
  refine wp_nextPage hhalved (fun new u hid' hfix' => ?_) (hrefuse' split t hid hfix)
    (hhang' split t hid hfix)
  have hcrowned : Holding [new, split, root]
      (u.crowned root new (s.splitKey root split.id) split.id) := (hfix'.holding.written _).rooted _
  simp only [wp_deferred, wp_bind, wp_get, wp_readPage, wp_writePage, setRoot, wp_modify]
  have hdone' := hdone split t hid hfix (by rwa [← hroot]) new u hid' hfix'
  generalize s.splitKey root split.id = splitKey at hcrowned hdone' ⊢
  refine wp_leaveHalf hcrowned (by simp) (by simp) ?_
  have hnew : new ≠ (halves key splitKey root split).2 := by
    have hnd := hcrowned.nodup
    simp only [List.map_cons, List.map_nil, List.nodup_cons, List.mem_cons, List.not_mem_nil,
      or_false, not_or] at hnd
    rintro rfl
    rcases halves_mem key splitKey root split with ⟨heq, -⟩ | ⟨heq, -⟩ <;> simp [heq] at hnd
  have hother : (halves key splitKey root split).2 ∈ [new, split, root] := by
    rcases halves_mem key splitKey root split with ⟨heq, -⟩ | ⟨heq, -⟩ <;> simp [heq]
  refine (hcrowned.unfixed hother).wp_pagerUnfix ?_ hdone'
  simp [hnew]

/-! ### Going down -/

theorem wp_stepDown (h : Holding [parent] s) {Q : PageRef × Nat → Sys → Prop} {E : Sys → Prop}
    {F : Fault → Prop}
    (hfound : (pageFindPointer (s.page parent) key).1 = true →
      ∀ e, errorGetCode e ≠ 0 → E { s with err := e })
    (hzero : childAt (s.page parent) (pageFindPointer (s.page parent) key).2 = 0 → F .childZero)
    (hrefuse : ∀ p e heap, errorGetCode e ≠ 0 →
      Refused s.pager p (childAt (s.page parent) (pageFindPointer (s.page parent) key).2) →
      s.outage s.pagerCalls = true ∨
        s.pager.locate (childAt (s.page parent) (pageFindPointer (s.page parent) key).2) = none →
      E { s.afterCall p heap with err := e })
    (hhang : ∀ f, s.pager.locate (childAt (s.page parent) (pageFindPointer (s.page parent) key).2) =
      some f → (s.pager.header f).latch ≠ 0 → F .hang)
    (hstep : (pageFindPointer (s.page parent) key).1 = false →
      ∀ child t, child.id = childAt (s.page parent) (pageFindPointer (s.page parent) key).2 →
      Fixes [parent] s.pager s child t →
      Q (child, (pageFindPointer (s.page parent) key).2) t) :
    wp (stepDown parent key) Q E F s := by
  simp only [stepDown, wp_bind, wp_readPage]
  rcases hsearch : pageFindPointer (s.page parent) key with ⟨found, index⟩
  simp only [hsearch] at hfound hzero hrefuse hhang hstep
  cases found with
  | true => exact wp_failure (by decide) fun e he => hfound rfl e (he.trans_ne (by decide))
  | false =>
      simp only [wp_bind, wp_assert]
      split
      · rename_i hne
        refine wp_fixPage h (fun child t hid hfix => hstep rfl child t hid hfix)
          (fun p e heap he href hcause => ?_) hhang
        exact hrefuse p e heap he href (hcause.imp_right fun hor => hor.resolve_left hne)
      · rename_i heq
        exact hzero (not_not.mp heq)

theorem wp_fixRoot (h : s.pager.Ok 0) {Q : PageRef → Sys → Prop} {E : Sys → Prop}
    {F : Fault → Prop}
    (hrefuse : ∀ p e heap, errorGetCode e ≠ 0 → Refused s.pager p s.tree.root →
      s.outage s.pagerCalls = true ∨ s.tree.root = 0 ∨ s.pager.locate s.tree.root = none →
      E { s.afterCall p heap with err := e })
    (hhang : ∀ f, s.pager.locate s.tree.root = some f → (s.pager.header f).latch ≠ 0 → F .hang)
    (hfix : ∀ root t, root.id = s.tree.root → Fixes [] s.pager s root t → Q root t) :
    wp fixRoot Q E F s := by
  simp only [fixRoot, wp_bind, wp_get]
  refine wp_fixPage (Holding.nil h) (fun root t hid hfixes => ?_) hrefuse hhang
  exact hfix root _ hid ⟨hfixes.fixed, hfixes.stack, hfixes.tree, hfixes.err, hfixes.outage,
    ⟨hfixes.holding.ok, hfixes.holding.nodup, hfixes.holding.there, hfixes.holding.latch⟩,
    fun q hq => absurd hq (List.not_mem_nil)⟩

end

end Wednesday
