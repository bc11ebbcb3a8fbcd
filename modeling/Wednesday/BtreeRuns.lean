import Wednesday.BtreeStages

/-!
Runs of calls on one tree, from its creation on a fresh pager. Whatever the
calls report, the pager stays well formed.
-/

namespace Wednesday

open Lib Prog Pager

/-! ### Runs -/

/-- A tree right after `btree_create` on a pager right after `pager_open`. -/
def TreeCreated (type : Nat) (s : Sys) : Prop :=
  ∃ s₀ s₁ object tree, PagerOpened s₀ ∧ s₀.pager.pageSize < 65536 ∧
    btreeCreate true type s₀ = .success (object, tree) s₁ ∧ s = { s₁ with tree := tree }

/-- What happens between two states in which no call is running. -/
inductive TreeEvent where
  | insert (key value : Blob)
  | insertFails (key value : Blob)
  | lookup (key : Blob)
  | errorClear
  | scratch

/-- A call that returns, or a change of the memory in between: the stack keeps
nothing from one call to the next. -/
inductive TreeStep : Sys → TreeEvent → Sys → Prop where
  | insert {s t : Sys} {fuel : Nat} {key value : Blob}
      (hrun : btreeInsert fuel key value s = .success () t) : TreeStep s (.insert key value) t
  | insertFails {s t : Sys} {fuel : Nat} {key value : Blob}
      (hrun : btreeInsert fuel key value s = .failure t) : TreeStep s (.insertFails key value) t
  | lookup {s t : Sys} {fuel : Nat} {key : Blob} {ptr : DataPtr}
      (hrun : btreeLookup fuel key s = .success ptr t) : TreeStep s (.lookup key) t
  | lookupFails {s t : Sys} {fuel : Nat} {key : Blob}
      (hrun : btreeLookup fuel key s = .failure t) : TreeStep s (.lookup key) t
  | errorClear (s : Sys) : TreeStep s .errorClear { s with err := errorClear s.err }
  | scratch (s : Sys) (stack : Mem) : TreeStep s .scratch { s with stack := stack }

/-! ### What the calls keep -/

/-- A property of the process that no step of the tree functions destroys. -/
structure Kept (I : Sys → Prop) : Prop where
  err : ∀ s e, I s → I { s with err := e }
  cleanups : ∀ s c, I s → I { s with cleanups := c }
  tree : ∀ s tree, I s → I { s with tree := tree }
  write : ∀ page data, Preserves I (writePage page data)
  unfix : ∀ page, Preserves I (pagerUnfix page)
  fix : ∀ id, Preserves I (treeFix id)
  next : Preserves I treeNext

namespace Kept

variable {α : Type} {I : Sys → Prop}

theorem failure (h : Kept I) (site : Site) (code : Int) (texts : List String) :
    Preserves I (failure site code texts : Call α) := by
  refine preserves_get.bind fun s => (preserves_ofExcept _).bind fun e => ?_
  exact Preserves.bind (preserves_modify fun t ht => h.err t e ht) fun _ t ht => wp_fail.mpr ht

theorem tryCall (h : Kept I) {site : Site} {text : String} {m : Call α} (hm : Preserves I m) :
    Preserves I (tryCall site text m) :=
  hm.recover (preserves_get.bind fun _ => h.failure _ _ _)

theorem readPage (page : PageRef) : Preserves I (readPage page) := fun _ hs => hs

theorem ensure (h : Kept I) (c : Prop) [Decidable c] (site : Site) (text : String) :
    Preserves I (ensure c site text) := by
  unfold Wednesday.ensure
  split
  · exact preserves_pure _
  · exact h.failure _ _ _

theorem btreeCreate (h : Kept I) {out : Bool} (hopen : ∀ root, Preserves I (btreeOpen out root))
    (type : Nat) :
    Preserves I (btreeCreate out type) := by
  refine (h.ensure _ _ _).bind fun _ => (h.tryCall h.next).bind fun root =>
    Preserves.deferred (h.unfix root) ?_
  exact (preserves_get.bind fun _ => preserves_pure _).bind fun _ => (readPage _).bind fun _ =>
    (h.write _ _).bind fun _ => hopen root.id

theorem insertLeaf (h : Kept I) (page : PageRef) (key value : Blob) :
    Preserves I (insertLeaf page key value) := by
  refine preserves_get.bind fun s => (readPage _).bind fun data => (preserves_ofExcept _).bind
    fun result => ?_
  cases result with
  | none => exact h.failure _ _ _
  | some data => exact h.write _ _

theorem insertInner (h : Kept I) (page : PageRef) (index : Nat) (key : Blob) (pageId : PageId) :
    Preserves I (insertInner page index key pageId) :=
  preserves_get.bind fun _ => (readPage _).bind fun _ => (preserves_ofExcept _).bind
    fun _ => h.write _ _

theorem splitPage (h : Kept I) (page split : PageRef) : Preserves I (splitPage page split) :=
  preserves_get.bind fun _ => (readPage _).bind fun _ => (readPage _).bind fun _ =>
    (h.write _ _).bind fun _ => (h.write _ _).bind fun _ => (preserves_assert _ _).bind
    fun _ => preserves_pure _

theorem splitChild (h : Kept I) (parent page : PageRef) (index : Nat) (key : Blob) :
    Preserves I (splitChild parent page index key) := by
  refine (h.tryCall h.next).bind fun split => (h.splitPage _ _).bind fun splitKey =>
    (h.insertInner _ _ _ _).bind fun _ => ?_
  split
  · exact (h.unfix _).bind fun _ => preserves_pure _
  · exact (h.unfix _).bind fun _ => preserves_pure _

theorem stepDown (h : Kept I) (parent : PageRef) (key : Blob) :
    Preserves I (stepDown parent key) := by
  refine (readPage _).bind fun header => ?_
  split
  · exact h.failure _ _ _
  · exact (preserves_assert _ _).bind fun _ => (h.tryCall (h.fix _)).bind fun _ => preserves_pure _

theorem splitRoot (h : Kept I) (root : PageRef) (key : Blob) :
    Preserves I (splitRoot root key) := by
  refine (h.tryCall h.next).bind fun split => (h.splitPage _ _).bind fun splitKey =>
      (h.tryCall h.next).bind fun new =>
    Preserves.deferred (h.unfix _) (preserves_get.bind fun s => (readPage _).bind
      fun _ => (readPage _).bind
      fun _ => (h.write _ _).bind fun _ => Preserves.bind
        (preserves_modify fun t ht => h.tree t _ ht) fun _ => ?_)
  split
  · exact (h.unfix _).bind fun _ => preserves_pure _
  · exact (h.unfix _).bind fun _ => preserves_pure _

theorem makeRoom (h : Kept I) (key value : Blob) (page : PageRef) (above : Above) :
    Preserves I (makeRoom key value page above) := by
  cases above with
  | none =>
      refine (readPage _).bind fun _ => ?_
      split
      · exact h.splitRoot _ _
      · exact preserves_pure _
  | some above =>
      refine Preserves.deferred (h.unfix _) ((readPage _).bind fun _ => ?_)
      split
      · exact h.splitChild _ _ _ _
      · exact preserves_pure _

theorem descend (h : Kept I) (parent : PageRef) (key value : Blob) :
    Preserves I (descend parent key value) := by
  refine Preserves.deferred (h.unfix parent) ((readPage _).bind fun header => ?_)
  split
  · exact h.failure _ _ _
  · refine (preserves_assert _ _).bind fun _ => (h.tryCall (h.fix _)).bind fun page =>
      (readPage _).bind fun _ => ?_
    split
    · exact h.splitChild _ _ _ _
    · exact preserves_pure _

theorem btreeInsertWalk (h : Kept I) (fuel : Nat) (parent : PageRef) (key value : Blob) :
    Preserves I (btreeInsertWalk fuel parent key value) := by
  induction fuel generalizing parent with
  | zero => exact preserves_abort _
  | succ fuel ih =>
      refine (readPage _).bind fun header => (preserves_assert _ _).bind fun _ =>
        (preserves_assert _ _).bind fun _ => (h.descend _ _ _).bind fun page =>
        (readPage _).bind fun _ => ?_
      split
      · exact Preserves.deferred (h.unfix _) (h.tryCall (h.insertLeaf _ _ _))
      · exact h.tryCall (ih _)

theorem deferGuard (h : Kept I) (page : PageRef) : Preserves I (deferGuard (pagerUnfix page)) := by
  refine preserves_get.bind fun s => ?_
  split
  · exact preserves_pure _
  · exact Preserves.bind (preserves_modify fun t ht => h.cleanups t _ ht) fun _ => h.unfix page

theorem fixRoot (h : Kept I) : Preserves I fixRoot :=
  preserves_get.bind fun _ => (h.tryCall (h.fix _)).bind fun _ =>
    Preserves.bind (preserves_modify fun t ht => h.cleanups t _ ht) fun _ => preserves_pure _

theorem insertBelow (h : Kept I) (fuel : Nat) (key value : Blob) :
    Preserves (fun s : Sys × PageRef => I s.1) (insertBelow fuel key value) := by
  refine preserves_readVar.bind fun root => (readPage _).lift.bind fun _ => ?_
  split
  · exact (Preserves.deferred (h.unfix _) (h.tryCall (h.insertLeaf _ _ _))).lift
  · exact (h.tryCall (h.btreeInsertWalk _ _ _ _)).lift

theorem btreeInsert (h : Kept I) (fuel : Nat) (key value : Blob) :
    Preserves I (btreeInsert fuel key value) := by
  rw [btreeInsert_eq]
  refine h.fixRoot.bind fun root => Preserves.withVar h.deferGuard ?_
  refine (readPage _).lift.bind fun _ => ?_
  dsimp only
  split
  · exact (h.splitRoot _ _).lift.bind fun _ => (preserves_writeVar _).bind
      fun _ => h.insertBelow _ _ _
  · exact h.insertBelow _ _ _

theorem lookupLoop (h : Kept I) (key : Blob) (fuel : Nat) :
    Preserves (fun s : Sys × PageRef => I s.1) (lookupLoop key fuel) := by
  induction fuel with
  | zero => exact preserves_abort _
  | succ fuel ih =>
      refine preserves_readVar.bind fun page => (readPage _).lift.bind fun header => ?_
      split
      · exact (preserves_assert _ _).bind fun _ => (h.tryCall (h.fix _)).lift.bind fun child =>
          (h.unfix _).lift.bind fun _ => (preserves_writeVar _).bind fun _ => ih
      · exact preserves_pure _

theorem btreeLookup (h : Kept I) (fuel : Nat) (key : Blob) :
    Preserves I (btreeLookup fuel key) := by
  refine preserves_get.bind fun s => (h.tryCall (h.fix _)).bind fun page =>
    Preserves.withVar h.unfix ((h.lookupLoop key fuel).bind fun _ =>
      preserves_readVar.bind fun page => (readPage _).lift.bind fun header => ?_)
  split
  · exact (h.failure _ _ _).lift
  · exact preserves_pure _

theorem btreeTableLookup (h : Kept I) (fuel id : Nat) : Preserves I (btreeTableLookup fuel id) :=
  preserves_get.bind fun _ => (h.tryCall (h.btreeLookup _ _)).bind fun _ =>
      preserves_get.bind fun _ =>
    preserves_pure _

theorem visit (h : Kept I) {key value : Blob} {s t : Sys} {above : Above}
    {page : PageRef} (hs : I s)
    (hvisit : Visit key value s above page t) : I t := by
  induction hvisit with
  | root hfix => exact h.fixRoot.success hs hfix
  | child _ hroom _ _ hstep ih =>
      exact (h.stepDown _ _).success ((h.makeRoom _ _ _ _).success ih hroom) hstep

theorem reaches (h : Kept I) {key value : Blob} {s t : Sys} {page : PageRef} (hs : I s)
    (hreach : Reaches key value s page t) : I t := by
  obtain ⟨above, p, u, hvisit, hroom⟩ := hreach
  exact (h.makeRoom _ _ _ _).success (h.visit hs hvisit) hroom

end Kept

/-! ### The pager stays well formed -/

/-- The pager is well formed. -/
def Sys.PagerOk (s : Sys) : Prop := s.pager.Ok 0

/-- A frame without a page may have any header. -/
theorem preserves_pagerUnfix (page : PageRef) : Preserves Sys.PagerOk (pagerUnfix page) := by
  intro s hs
  have hunused {header : Frame} (hid : header.id = (s.pager.header page.frame).id)
      (hpage : ¬ (page.frame < s.pager.size ∧ (s.pager.ring page.frame).pageId ≠ 0)) :
      Ok 0 (s.pager.setHeader page.frame header) :=
    hs.setHeader hid fun hf hused => absurd ⟨hf, hused⟩ hpage
  by_cases hpage : page.frame < s.pager.size ∧ (s.pager.ring page.frame).pageId ≠ 0
  · have hlatch := hs.latched _ hpage.1 hpage.2
    unfold wp
    rw [pagerUnfix_apply page s hlatch]
    by_cases hheld : (s.pager.header page.frame).latch = -1 ∨ 0 < (s.pager.header page.frame).latch
    · rw [if_pos hheld]
      exact hs.setHeader (id_released _) fun _ _ => hlatch.released hheld
    · rw [if_neg hheld]
      trivial
  · simp only [pagerUnfix, getPager, modifyPager, latchReleaseWrite, latchReleaseRead, wp_bind,
      wp_get, wp_pure, wp_ite, wp_modify, wp_assert]
    have hset (header : Frame) (hid : header.id = (s.pager.header page.frame).id) :
        Sys.PagerOk { s with pager := s.pager.setHeader page.frame header } := hunused hid hpage
    simp only [header_setHeader_self, setHeader_setHeader]
    split
    · split
      · exact hset _ rfl
      · trivial
    · split
      · exact hset _ rfl
      · trivial

theorem kept_pagerOk : Kept Sys.PagerOk where
  err _ _ hs := hs
  cleanups _ _ hs := hs
  tree _ _ hs := hs
  write _ _ _ hs := hs.setHeader rfl fun hf hused =>
    have hl := hs.latched _ hf hused
    ⟨hl.low, hl.high, hl.exclusive⟩
  unfix := preserves_pagerUnfix
  fix _ _ hs := wp_treeFix hs (fun _ _ _ hfix => hfix.ok) (fun _ _ _ _ href _ => href.ok)
    fun _ _ _ => trivial
  next _ hs := wp_treeNext hs (fun _ _ _ hfix => hfix.ok) (fun _ _ _ _ href => href.ok)
    fun _ _ _ => trivial

section

variable {s t : Sys} {e : TreeEvent} {type : Nat}

/-- A pager that was just opened has no page, and if it has no frame either it
never fixes one. -/
theorem PagerOpened.fresh (h : PagerOpened s) :
    (∀ id, id ≠ 0 → s.pager.locate id = none) ∧ s.pager.nextPage = 1 ∧ s.pager.pageCount = 0 ∧
      (s.pager.Ok 0 ∨ NoFrames s.pager) := by
  obtain ⟨pageSize, directorySize, objects, s₀, s₁, hlt, hval⟩ := h
  rw [pagerOpen_value hval]
  refine ⟨fun id hid => locate_pagerInit _ _ hid, rfl, rfl, ?_⟩
  by_cases hpos : 0 < 7 * directorySize / 10
  · exact Or.inl (pagerInit_ok hlt hpos)
  · exact Or.inr ⟨Nat.eq_zero_of_not_pos hpos, rfl, fun h m hm => pageId_pagerInit hm⟩

theorem NoFrames.wp_treeNext (h : NoFrames s.pager) :
    wp treeNext (fun _ _ => False) (fun t => NoFrames t.pager) (fun _ => True) s := by
  have hmove := h.moveNextPage ((s.pager.nextPage + 1) % 2 ^ 32)
  simp only [treeNext, wp_bind, wp_get, wp_modify, wp_ite]
  split
  · exact wp_pagerRefuse fun _ _ => hmove
  · unfold wp
    rw [pagerNext_apply]
    rcases NoFrames.pagerFix
      (s := { s with pager := s.pager.takeId, pagerCalls := s.pagerCalls + 1 })
      hmove s.pager.nextPage true with hrun' | ⟨e, hrun'⟩
    · simp only [Pager.takeId] at hrun'
      simp only [hrun']
    · simp only [Pager.takeId] at hrun'
      simp only [hrun']
      exact hmove

theorem NoFrames.treeNext_ne_success (h : NoFrames s.pager) (page : PageRef) :
    treeNext s ≠ .success page t := fun hrun => h.wp_treeNext.success hrun

/-- `btree_open` leaves the pager alone, and the tree the process works on. -/
theorem wp_btreeOpen (out : Bool) (root : PageId) (s : Sys) :
    wp (btreeOpen out root)
      (fun r t => r.2 = ⟨root, s.pager.pageSize⟩ ∧ t.pager = s.pager ∧ t.tree = s.tree)
      (fun t => t.pager = s.pager ∧ t.tree = s.tree) (fun _ => True) s := by
  have hfree (object : Nat) (t : Sys) : wp (deferGuard (free object))
      (fun _ u => u.pager = t.pager ∧ u.tree = t.tree) (fun _ => False) (fun _ => True) t := by
    simp only [deferGuard, free, wp_bind, wp_get, wp_ite, wp_pure, wp_modify]
    split
    · exact ⟨trivial, trivial⟩
    · exact ⟨trivial, trivial⟩
  have hensure : wp (ensure (out = true) ⟨"src/btree.c", "btree_open", 148⟩ "out != nullptr")
      (fun _ t => t = s) (fun t => t.pager = s.pager ∧ t.tree = s.tree) (fun _ => True) s := by
    unfold ensure
    rw [wp_ite]
    split
    · rfl
    · exact wp_failure (by decide) fun _ _ => ⟨rfl, rfl⟩
  simp only [btreeOpen, wp_bind]
  refine wp_mono hensure (fun _ t ht => ?_) (fun _ h => h) fun _ h => h
  subst ht
  rw [wp_bind]
  have halloc : wp (tryAlloc ⟨"src/btree.c", "btree_open", 152⟩ "btree" "sizeof(btree_t)" 16)
      (fun _ u => u.pager = t.pager ∧ u.tree = t.tree) (fun u => u.pager = t.pager ∧
        u.tree = t.tree)
      (fun _ => True) t := by
    simp only [tryAlloc, malloc, wp_bind, wp_get, wp_modify, wp_pure]
    split
    · exact wp_failure (by decide) fun _ _ => ⟨rfl, rfl⟩
    · exact ⟨rfl, rfl⟩
  refine wp_mono halloc (fun object u hu => ?_) (fun _ h => h) fun _ h => h
  simp only [errdefer, registerCleanup, pagerGetPageSize, getPager, wp_bind, wp_modify,
    wp_deferred, wp_get, wp_pure]
  refine wp_mono (hfree object _) (fun _ v hv => ?_) (fun _ h => h.elim) fun _ h => h
  exact ⟨by rw [hu.1], hv.1.trans hu.1, hv.2.trans hu.2⟩

theorem preserves_btreeOpen (out : Bool) (root : PageId) :
    Preserves Sys.PagerOk (btreeOpen out root) := by
  intro s hs
  refine wp_mono (wp_btreeOpen out root s) (fun _ t ht => ?_) (fun t ht => ?_) fun _ h => h
  · rw [Sys.PagerOk, ht.2.1]
    exact hs
  · rw [Sys.PagerOk, ht.1]
    exact hs

theorem preserves_btreeCreate (out : Bool) (type : Nat) :
    Preserves Sys.PagerOk (btreeCreate out type) :=
  kept_pagerOk.btreeCreate (preserves_btreeOpen out) type

/-- What `btree_create` leaves behind: the new page, initialised and unfixed. -/
theorem btreeCreate_success (h : s.pager.Ok 0) {object : Nat} {tree : BTree}
    (hrun : btreeCreate true type s = .success (object, tree) t) :
    ∃ root u, root.id = s.pager.nextPage ∧ Fixes [] s.pager.takeId s root u ∧
      t.pager = ((u.written root
        (pageInitLeaf u.pager.pageSize (u.page root) type)).unfixed root).pager ∧
      tree = ⟨root.id, u.pager.pageSize⟩ := by
  have hwp : wp (btreeCreate true type) (fun r t => ∃ root u, root.id = s.pager.nextPage ∧
      Fixes [] s.pager.takeId s root u ∧ t.pager = ((u.written root
        (pageInitLeaf u.pager.pageSize (u.page root) type)).unfixed root).pager ∧
      r.2 = ⟨root.id, u.pager.pageSize⟩) (fun _ => True) (fun _ => True) s := by
    simp only [btreeCreate, ensure, if_true, wp_bind, wp_pure]
    refine wp_nextPage (Holding.nil h) (fun root u hid hfix => ?_) (fun _ _ _ _ _ => trivial)
      fun _ _ _ => trivial
    simp only [pagerGetPageSize, getPager, wp_deferred, wp_bind, wp_get, wp_pure, wp_readPage,
      wp_writePage]
    have hwritten : Holding [root]
        (u.written root (pageInitLeaf u.pager.pageSize (u.page root) type)) :=
      hfix.holding.written _
    refine wp_mono (wp_btreeOpen true root.id (u.written root
      (pageInitLeaf u.pager.pageSize (u.page root) type))) (fun r v hv => ?_)
      (fun v _ => wp_true) fun _ h => h
    obtain ⟨htree, hpager, -⟩ := hv
    have hv : Holding [root] v := ⟨hpager ▸ hwritten.ok, hwritten.nodup, hpager ▸ hwritten.there,
      hpager ▸ hwritten.latch⟩
    refine hv.wp_pagerUnfix (by simp) ⟨root, u, hid, hfix, ?_, htree⟩
    simp only [Sys.unfixed, hpager]
  exact hwp.success hrun

/-- A created tree: one page, the first the pager handed out. -/
theorem TreeCreated.root_page (h : TreeCreated type s) : ∃ s₀ root u,
    PagerOpened s₀ ∧ s₀.pager.pageSize < 65536 ∧ root.id = 1 ∧ Fixes [] s₀.pager.takeId s₀ root u ∧
      s.pager = ((u.written root
        (pageInitLeaf u.pager.pageSize (u.page root) type)).unfixed root).pager ∧
      s.tree = ⟨root.id, u.pager.pageSize⟩ := by
  obtain ⟨s₀, s₁, object, tree, hopen, hsize, hrun, rfl⟩ := h
  obtain ⟨-, hnext, -, hok | hnone⟩ := hopen.fresh
  · obtain ⟨root, u, hid, hfix, hpager, htree⟩ := btreeCreate_success hok hrun
    exact ⟨s₀, root, u, hopen, hsize, hid.trans hnext, hfix, hpager, htree⟩
  · simp only [btreeCreate, bind_apply] at hrun
    obtain ⟨_, x, hensure, hrun⟩ := Outcome.bind_eq_success.mp hrun
    obtain ⟨root, y, hroot, -⟩ := Outcome.bind_eq_success.mp hrun
    rw [tryCall_eq_success] at hroot
    simp only [ensure, if_true, pure_apply] at hensure
    obtain ⟨-, rfl⟩ := Outcome.success.inj hensure
    exact absurd hroot (hnone.treeNext_ne_success root)

theorem TreeCreated.pagerOk (h : TreeCreated type s) : s.PagerOk := by
  obtain ⟨s₀, root, u, hopen, hsize, hid, hfix, hpager, htree⟩ := h.root_page
  have hwritten : Holding [root]
      (u.written root (pageInitLeaf u.pager.pageSize (u.page root) type)) := hfix.holding.written _
  have hok := (hwritten.unfixed (List.mem_singleton.mpr rfl)).ok
  rw [← hpager] at hok
  exact hok

theorem TreeStep.pagerOk (h : s.PagerOk) (hstep : TreeStep s e t) : t.PagerOk := by
  cases hstep with
  | insert hrun => exact (kept_pagerOk.btreeInsert _ _ _).success h hrun
  | insertFails hrun => exact (kept_pagerOk.btreeInsert _ _ _).failure h hrun
  | lookup hrun => exact (kept_pagerOk.btreeLookup _ _).success h hrun
  | lookupFails hrun => exact (kept_pagerOk.btreeLookup _ _).failure h hrun
  | errorClear => exact h
  | scratch => exact h

theorem treeRun_pagerOk {s₀ : Sys} {es : List TreeEvent} (h : TreeCreated type s₀)
    (hrun : Run TreeStep s₀ es s) : s.PagerOk :=
  hrun.invariant (fun _ _ _ hs hstep => hstep.pagerOk hs) h.pagerOk

end

/-! ### Computed runs -/

/-- A tree created on a fresh pager. -/
def createdTree (type pageSize directorySize : Nat) : Option Sys := do
  let ((_, tree), s) ← (btreeCreate true type (freshSys pageSize directorySize)).value?
  some { s with tree := tree }

/-- Insert rows one after the other, each checked. -/
def insertWhere (check : Blob → Blob → Sys → Bool) (fuel : Nat) (s : Sys)
    (rows : List (Blob × Blob)) : Option Sys :=
  rows.foldlM (fun s row =>
    if check row.1 row.2 s then (btreeInsert fuel row.1 row.2 s).value?.map Prod.snd else none) s

/-- Insert rows one after the other. -/
def insertRows (fuel : Nat) (s : Sys) (rows : List (Blob × Blob)) : Option Sys :=
  insertWhere (fun _ _ _ => true) fuel s rows

/-- The visit of the root. -/
def rootVisit (s : Sys) : Option (PageRef × Sys) := (fixRoot s).value?

/-- The visit of the child below the root. -/
def childVisit (key value : Blob) (s : Sys) : Option (PageRef × Nat × PageRef × Sys) := do
  let (root, t) ← (fixRoot s).value?
  let (parent, u) ← (makeRoom key value root none t).value?
  if pageIsInner (pageFlags (u.page parent)) ∧
      payloadPutLen (pageFlags (u.page parent)) key value ≤ freeSpace (u.page parent) then do
    let ((child, index), v) ← (stepDown parent key u).value?
    some (parent, index, child, v)
  else none

section

variable {s t : Sys} {key value : Blob} {type pageSize directorySize : Nat}

theorem treeCreated_of_createdTree (hopen : PagerOpened (freshSys pageSize directorySize))
    (hsize : pageSize < 65536) (h : createdTree type pageSize directorySize = some s) :
    TreeCreated type s := by
  simp only [createdTree, Option.bind_eq_bind, Option.bind_eq_some_iff, Prod.exists,
    Outcome.value?_eq_some, Option.some.injEq] at h
  obtain ⟨object, tree, s₁, hrun, rfl⟩ := h
  exact ⟨_, s₁, object, tree, hopen, hsize, hrun, rfl⟩

theorem run_of_insertWhere {check : Blob → Blob → Sys → Bool} {fuel : Nat}
    {rows : List (Blob × Blob)} (h : insertWhere check fuel s rows = some t) :
    Run (fun s e t => (∃ row ∈ rows, e = .insert row.1 row.2 ∧ check row.1 row.2 s = true) ∧
      TreeStep s e t) s (rows.map fun row => .insert row.1 row.2) t := by
  have hrun : Run (fun s e t => (∀ key value, e = .insert key value → check key value s = true) ∧
      TreeStep s e t) s (rows.map fun row => .insert row.1 row.2) t := by
    refine .of_foldlM (fun s row t hnext => ?_) h
    obtain ⟨hcheck, hinsert⟩ := Option.ite_none_right_eq_some.mp hnext
    obtain ⟨⟨_, u⟩, hvalue, rfl⟩ := Option.map_eq_some_iff.mp hinsert
    refine ⟨fun key value heq => ?_, .insert (Outcome.value?_eq_some.mp hvalue)⟩
    cases heq
    exact hcheck
  refine hrun.events.mono fun s e t hstep => ⟨?_, hstep.2.2⟩
  obtain ⟨row, hrow, rfl⟩ := List.mem_map.mp hstep.1
  exact ⟨row, hrow, rfl, hstep.2.1 _ _ rfl⟩

theorem run_of_insertRows {fuel : Nat} {rows : List (Blob × Blob)}
    (h : insertRows fuel s rows = some t) :
    Run TreeStep s (rows.map fun row => .insert row.1 row.2) t :=
  (run_of_insertWhere h).mono fun _ _ _ hstep => hstep.2

theorem visit_of_rootVisit {page : PageRef} (h : rootVisit s = some (page, t)) :
    Visit key value s none page t :=
  .root (Outcome.value?_eq_some.mp h)

theorem visit_of_childVisit {parent child : PageRef} {index : Nat}
    (h : childVisit key value s = some (parent, index, child, t)) :
    Visit key value s (some (parent, index)) child t := by
  simp only [childVisit, Option.bind_eq_bind, Option.bind_eq_some_iff, Prod.exists,
    Outcome.value?_eq_some] at h
  obtain ⟨root, x, hfix, p, u, hroom, h⟩ := h
  split at h
  · rename_i hcheck
    simp only [Option.bind_eq_some_iff, Prod.exists, Outcome.value?_eq_some, Option.some.injEq,
      Prod.mk.injEq] at h
    obtain ⟨c, i, v, hstep, rfl, rfl, rfl, rfl⟩ := h
    exact .child (.root hfix) hroom hcheck.1 hcheck.2 hstep
  · cases h

end

end Wednesday
