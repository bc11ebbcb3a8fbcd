import Wednesday.Cleanup
import Wednesday.PagerCache

/-!
The functions of the pager and the tree, and the sequences of calls a thread
makes: every call that starts with a clear error code runs its cleanups exactly
when it fails.
-/

namespace Wednesday

open Lib Prog

section

variable {α : Type}

theorem plain_getPager : Plain id getPager := plain_get.bind fun _ => plain_pure _

theorem neutral_modifyPager (f : Pager → Pager) : Neutral (modifyPager f) := fun _ => ⟨rfl, rfl⟩

theorem plain_modifyPager (f : Pager → Pager) : Plain id (modifyPager f) :=
  (neutral_modifyPager f).plain

theorem neutral_free (ptr : Nat) : Neutral (free ptr) := fun _ => ⟨rfl, rfl⟩

theorem plain_malloc : Plain id malloc := fun _ hs => ⟨hs, rfl⟩

theorem plain_tryAlloc (site : Site) (ptr size : String) (bytes : Nat) :
    Plain id (tryAlloc site ptr size bytes) := by
  refine plain_malloc.bind fun object => ?_
  cases object with
  | none => exact plain_failure (by decide)
  | some object => exact plain_pure _

/-! ### The pager -/

theorem neutral_latchReleaseRead (frame : Nat) : Neutral (latchReleaseRead frame) := by
  intro s
  simp only [latchReleaseRead, getPager, wp_bind, wp_get, wp_pure, wp_assert]
  split
  · exact ⟨rfl, rfl⟩
  · trivial

theorem neutral_latchReleaseWrite (frame : Nat) : Neutral (latchReleaseWrite frame) := by
  intro s
  simp only [latchReleaseWrite, getPager, wp_bind, wp_get, wp_pure, wp_assert]
  split
  · exact ⟨rfl, rfl⟩
  · trivial

theorem neutral_pagerUnfix (page : PageRef) : Neutral (pagerUnfix page) := by
  intro s
  simp only [pagerUnfix, getPager, wp_bind, wp_get, wp_pure]
  split
  · exact neutral_latchReleaseWrite page.frame _
  · exact neutral_latchReleaseRead page.frame _

theorem plain_latchAcquire (frame : Nat) (exclusive : Bool) :
    Plain id (latchAcquire frame exclusive) := by
  refine plain_getPager.bind fun _ => ?_
  dsimp only
  split
  · exact (plain_assert _ _).bind fun _ => plain_modifyPager _
  · exact (plain_assert _ _).bind fun _ => plain_modifyPager _

theorem plain_latchPage (frame : Nat) (exclusive : Bool) :
    Plain id (latchPage frame exclusive) := by
  refine (plain_latchAcquire frame exclusive).bind fun _ => ?_
  split
  · exact plain_modifyPager _
  · exact plain_pure _

theorem plain_pagerDirectoryInsert (h : Nat) (m : Mapping) :
    Plain id (pagerDirectoryInsert h m) := by
  refine plain_getPager.bind fun p => ?_
  dsimp only
  split
  · exact plain_modifyPager _
  · split
    · exact plain_modifyPager _
    · split
      · exact plain_modifyPager _
      · split
        · exact Plain.bind (plain_tryAlloc _ _ _ _) fun _ => plain_modifyPager _
        · exact Plain.bind (plain_tryAlloc _ _ _ _) fun _ => plain_modifyPager _

theorem plain_nextCreateIndex : Plain id nextCreateIndex :=
  plain_getPager.bind fun _ => (plain_assert _ _).bind fun _ =>
    (plain_modifyPager _).bind fun _ => plain_pure _

theorem plain_acquireRingEntry (id' : PageId) (n : Nat) : Plain id (acquireRingEntry id' n) := by
  induction n with
  | zero => exact plain_abort _
  | succ n ih =>
      refine plain_nextCreateIndex.bind fun _ => plain_getPager.bind fun p => ?_
      split
      · exact (plain_modifyPager _).bind fun _ => plain_pure _
      · exact ih

theorem plain_allocateHeader (index : Nat) : Plain id (allocateHeader index) := by
  refine plain_getPager.bind fun p => ?_
  split
  · exact plain_pure _
  · refine plain_malloc.bind fun object => ?_
    cases object with
    | none => exact (plain_modifyPager _).bind fun _ => plain_failure (by decide)
    | some object => exact plain_get.bind fun _ => plain_modifyPager _

theorem plain_pagerCreate (h : Nat) (id' : PageId) : Plain id (pagerCreate h id') :=
  plain_getPager.bind fun _ => (plain_acquireRingEntry _ _).bind fun _ =>
    (plain_allocateHeader _).bind fun _ => (plain_modifyPager _).bind fun _ =>
      (Plain.handleForward (plain_pagerDirectoryInsert _ _) (neutral_modifyPager _)).bind fun _ =>
        plain_pure _

theorem plain_pagerEvictLoop (n : Nat) : Plain id (pagerEvictLoop n) := by
  induction n with
  | zero => exact plain_failure (by decide)
  | succ n ih =>
      refine (plain_getPager.bind fun _ => (plain_modifyPager _).bind fun _ => plain_pure _).bind
        fun index => plain_getPager.bind fun p => ?_
      dsimp only
      split
      · exact ih
      · split
        · exact ih
        · split
          · exact (plain_modifyPager _).bind fun _ => ih
          · exact (plain_modifyPager _).bind fun _ => plain_modifyPager _

theorem plain_pagerEvict : Plain id pagerEvict :=
  plain_getPager.bind fun _ => plain_pagerEvictLoop _

theorem plain_pagerLookup (h : Nat) (id' : PageId) (exclusive : Bool) :
    Plain id (pagerLookup h id' exclusive) := by
  refine plain_getPager.bind fun p => ?_
  split
  · exact plain_pure _
  · exact (plain_latchPage _ _).bind fun _ => plain_pure _

theorem plain_ensureCapacity : Plain id ensureCapacity := by
  refine plain_getPager.bind fun p => ?_
  split
  · exact Sound.tryCall plain_pagerEvict
  · exact plain_modifyPager _

/-- A check that reports a failure before the rest of a call. -/
theorem Plain.unless {α β : Type} {c : Prop} [Decidable c] {site : Site} {code : Int}
    {texts : List String} {rest : Call β}
    (hcode : code ≠ 0) (hrest : Plain id rest) :
    Plain id (if c then (failure site code texts : Call α) >>= fun _ => rest else rest) := by
  split
  · exact (plain_failure hcode).bind fun _ => hrest
  · exact hrest

theorem plain_pagerFix (id' : PageId) (exclusive : Bool) : Plain id (pagerFix id' exclusive) := by
  unfold pagerFix
  refine Plain.unless (by decide) ?_
  refine plain_getPager.bind fun p => (plain_pagerLookup _ _ _).bind fun found => ?_
  cases found with
  | some page => exact plain_pure _
  | none =>
      refine plain_ensureCapacity.bind fun _ => (plain_pagerLookup _ _ _).bind fun found => ?_
      cases found with
      | some page => exact (plain_modifyPager _).bind fun _ => plain_pure _
      | none =>
          exact (Plain.handleForward (plain_pagerCreate _ _) (neutral_modifyPager _)).bind
            fun _ => (plain_latchPage _ _).bind fun _ => plain_pure _

theorem plain_pagerNext : Plain id pagerNext :=
  plain_getPager.bind fun _ => (plain_modifyPager _).bind fun _ => plain_pagerFix _ _

/-! ### The tree -/

theorem plain_readPage (page : PageRef) : Plain id (readPage page) :=
  plain_getPager.bind fun _ => plain_pure _

theorem plain_writePage (page : PageRef) (data : Mem) : Plain id (writePage page data) :=
  plain_modifyPager _

theorem plain_pagerRefuse : Plain id (pagerRefuse : Call α) :=
  Sound.tryCall (plain_failure (by decide))

theorem plain_countCall :
    Plain id (modify fun s => { s with pagerCalls := s.pagerCalls + 1 } : Call Unit) :=
  fun _ hs => ⟨hs, rfl⟩

theorem plain_treeFix (id' : PageId) : Plain id (treeFix id') := by
  refine plain_get.bind fun s => plain_countCall.bind fun _ => ?_
  split
  · exact plain_pagerRefuse
  · exact plain_pagerFix _ _

theorem plain_treeNext : Plain id treeNext := by
  refine plain_get.bind fun s => plain_countCall.bind fun _ => ?_
  split
  · exact (plain_modifyPager _).bind fun _ => plain_pagerRefuse
  · exact plain_pagerNext

theorem plain_setRoot (root : PageId) : Plain id (setRoot root) :=
  plain_modify (fun _ => rfl) fun _ => rfl

theorem plain_insertLeaf (page : PageRef) (key value : Blob) :
    Plain id (insertLeaf page key value) := by
  refine plain_get.bind fun s => (plain_readPage _).bind fun data =>
    (plain_ofExcept _).bind fun result => ?_
  cases result with
  | none => exact plain_failure (by decide)
  | some data => exact plain_writePage _ _

theorem plain_insertInner (page : PageRef) (index : Nat) (key : Blob) (pageId : PageId) :
    Plain id (insertInner page index key pageId) :=
  plain_get.bind fun _ => (plain_readPage _).bind fun _ => (plain_ofExcept _).bind fun _ =>
    plain_writePage _ _

theorem plain_splitPage (page split : PageRef) : Plain id (splitPage page split) :=
  plain_get.bind fun _ => (plain_readPage _).bind fun _ => (plain_readPage _).bind fun _ =>
    (plain_writePage _ _).bind fun _ => (plain_writePage _ _).bind fun _ =>
      (plain_assert _ _).bind fun _ => plain_pure _

theorem plain_pagerUnfix (page : PageRef) : Plain id (pagerUnfix page) :=
  (neutral_pagerUnfix page).plain

theorem plain_splitChild (parent page : PageRef) (index : Nat) (key : Blob) :
    Plain id (splitChild parent page index key) := by
  refine Plain.bind (Sound.tryCall plain_treeNext) fun split => (plain_splitPage _ _).bind
    fun splitKey => (plain_insertInner _ _ _ _).bind fun _ => ?_
  split
  · exact (plain_pagerUnfix _).bind fun _ => plain_pure _
  · exact (plain_pagerUnfix _).bind fun _ => plain_pure _

theorem plain_descend (parent : PageRef) (key value : Blob) :
    Plain id (descend parent key value) := by
  refine Sound.deferred (neutral_pagerUnfix parent) ((plain_readPage _).bind fun header => ?_)
  split
  · exact plain_failure (by decide)
  · refine (plain_assert _ _).bind fun _ =>
      Plain.bind (Sound.tryCall (plain_treeFix _)) fun page => (plain_readPage _).bind fun _ => ?_
    split
    · exact plain_splitChild _ _ _ _
    · exact plain_pure _

theorem plain_btreeInsertWalk (fuel : Nat) (parent : PageRef) (key value : Blob) :
    Plain id (btreeInsertWalk fuel parent key value) := by
  induction fuel generalizing parent with
  | zero => exact plain_abort _
  | succ fuel ih =>
      refine (plain_readPage _).bind fun header => (plain_assert _ _).bind fun _ =>
        (plain_assert _ _).bind fun _ => (plain_descend _ _ _).bind fun page =>
          (plain_readPage _).bind fun _ => ?_
      split
      · exact Sound.deferred (neutral_pagerUnfix _) (Sound.tryCall (plain_insertLeaf _ _ _))
      · exact Sound.tryCall (ih _)

theorem plain_splitRoot (root : PageRef) (key : Blob) : Plain id (splitRoot root key) := by
  refine Plain.bind (Sound.tryCall plain_treeNext) fun split => (plain_splitPage _ _).bind
    fun splitKey => Plain.bind (Sound.tryCall plain_treeNext) fun new =>
      Sound.deferred (neutral_pagerUnfix _) (plain_get.bind fun s => (plain_readPage _).bind
        fun _ => (plain_readPage _).bind fun _ => (plain_writePage _ _).bind fun _ =>
          (plain_setRoot _).bind fun _ => ?_)
  split
  · exact (plain_pagerUnfix _).bind fun _ => plain_pure _
  · exact (plain_pagerUnfix _).bind fun _ => plain_pure _

theorem plain_insertAtLeaf (page : PageRef) (key value : Blob) :
    Plain id (deferred (pagerUnfix page) (tryCall ⟨"src/btree.c", "btree_insert", 437⟩
      "page_insert_leaf(root.data, btree->page_size, key, value)" (insertLeaf page key value))) :=
  Sound.deferred (neutral_pagerUnfix _) (Sound.tryCall (plain_insertLeaf _ _ _))

theorem tidy_btreeInsert (fuel : Nat) (key value : Blob) : Tidy (btreeInsert fuel key value) := by
  unfold btreeInsert
  refine Plain.then plain_get (fun s => ?_) allRan_refl
  refine Plain.then (Sound.tryCall (plain_treeFix _)) (fun root => ?_) allRan_refl
  refine Tidy.errdeferVar neutral_pagerUnfix (Plain.sound ?_ noneRan_refl allRan_refl)
  refine Plain.bind (Sound.lift (plain_readPage _)) fun header => ?_
  dsimp only
  split
  · refine Plain.bind (Sound.lift (plain_splitRoot _ _)) fun root => (plain_writeVar _).bind
      fun _ => plain_readVar.bind fun root => Plain.bind (Sound.lift (plain_readPage _)) fun _ => ?_
    split
    · exact Sound.lift (plain_insertAtLeaf _ _ _)
    · exact Sound.lift (Sound.tryCall (plain_btreeInsertWalk _ _ _ _))
  · refine plain_readVar.bind fun root => Plain.bind (Sound.lift (plain_readPage _)) fun _ => ?_
    split
    · exact Sound.lift (plain_insertAtLeaf _ _ _)
    · exact Sound.lift (Sound.tryCall (plain_btreeInsertWalk _ _ _ _))

theorem plain_lookupLoop (key : Blob) (fuel : Nat) : Plain Prod.fst (lookupLoop key fuel) := by
  induction fuel with
  | zero => exact plain_abort _
  | succ fuel ih =>
      refine plain_readVar.bind fun page => Plain.bind (Sound.lift (plain_readPage _))
        fun header => ?_
      split
      · exact (plain_assert _ _).bind fun _ =>
          Plain.bind (Sound.lift (Sound.tryCall (plain_treeFix _))) fun child =>
            Plain.bind (Sound.lift (plain_pagerUnfix _)) fun _ =>
              (plain_writeVar _).bind fun _ => ih
      · exact plain_pure _

theorem plain_btreeLookup (fuel : Nat) (key : Blob) : Plain id (btreeLookup fuel key) := by
  refine plain_get.bind fun s => Plain.bind (Sound.tryCall (plain_treeFix _)) fun page =>
    Sound.withVar neutral_pagerUnfix ((plain_lookupLoop key fuel).bind fun _ =>
      plain_readVar.bind fun page => Plain.bind (Sound.lift (plain_readPage _)) fun header => ?_)
  split
  · exact Sound.lift (plain_failure (by decide))
  · exact plain_pure _

theorem tidy_btreeOpen (out : Bool) (root : PageId) : Tidy (btreeOpen out root) :=
  Plain.then (plain_ensure _ _) (fun _ => Plain.then (plain_tryAlloc _ _ _ _) (fun btree =>
    Tidy.errdefer (neutral_free btree) (Plain.tidy ((plain_getPager.bind fun _ =>
      plain_pure _).bind fun _ => plain_pure _))) allRan_refl) allRan_refl

theorem tidy_btreeCreate (out : Bool) (type : Nat) : Tidy (btreeCreate out type) :=
  Plain.then (plain_ensure _ _) (fun _ => Plain.then (Sound.tryCall plain_treeNext) (fun root =>
    Sound.deferred (neutral_pagerUnfix root) (Plain.then (plain_getPager.bind fun _ => plain_pure _)
      (fun _ => Plain.then (plain_readPage _) (fun _ => Plain.then (plain_writePage _ _)
        (fun _ => tidy_btreeOpen _ _) allRan_refl) allRan_refl) allRan_refl)) allRan_refl)
          allRan_refl

theorem tidy_pagerOpen (out : Bool) (pageSize directorySize : Nat) :
    Tidy (pagerOpen out pageSize directorySize) := by
  refine Plain.then (plain_ensure _ _) (fun _ => Plain.then (plain_ensure _ _) (fun _ =>
    Plain.then (plain_tryAlloc _ _ _ _) (fun pager => Tidy.errdefer (neutral_free pager) ?_)
      allRan_refl) allRan_refl) allRan_refl
  exact Plain.then (plain_tryAlloc _ _ _ _) (fun directory => Tidy.errdefer (neutral_free directory)
    (Plain.then (plain_tryAlloc _ _ _ _) (fun ring => Tidy.errdefer (neutral_free ring)
      (Plain.tidy (plain_pure _))) allRan_refl)) allRan_refl

end

/-! ### Sequences of calls -/

/-- The calls of the library. Those that walk a tree come with a bound on its
levels. -/
inductive LibraryCall where
  | pagerOpen (out : Bool) (pageSize directorySize : Nat)
  | pagerFix (id : PageId) (exclusive : Bool)
  | pagerNext
  | pagerUnfix (page : PageRef)
  | btreeOpen (out : Bool) (root : PageId)
  | btreeCreate (out : Bool) (type : Nat)
  | btreeInsert (fuel : Nat) (key value : Blob)
  | btreeLookup (fuel : Nat) (key : Blob)
  | btreeTableInsert (fuel id : Nat) (value : Blob)
  | btreeTableLookup (fuel id : Nat)

namespace LibraryCall

/-- A call, and the place its result goes to. -/
def run : LibraryCall → Call Unit
  | .pagerOpen out pageSize directorySize => do
      let r ← Wednesday.pagerOpen out pageSize directorySize
      modifyPager fun _ => r.2
  | .pagerFix id exclusive => do let _ ← Wednesday.pagerFix id exclusive
  | .pagerNext => do let _ ← Wednesday.pagerNext
  | .pagerUnfix page => Wednesday.pagerUnfix page
  | .btreeOpen out root => do
      let r ← Wednesday.btreeOpen out root
      modify fun s => { s with tree := r.2 }
  | .btreeCreate out type => do
      let r ← Wednesday.btreeCreate out type
      modify fun s => { s with tree := r.2 }
  | .btreeInsert fuel key value => Wednesday.btreeInsert fuel key value
  | .btreeLookup fuel key => do let _ ← Wednesday.btreeLookup fuel key
  | .btreeTableInsert fuel id value => Wednesday.btreeTableInsert fuel id value
  | .btreeTableLookup fuel id => do let _ ← Wednesday.btreeTableLookup fuel id

/-- The call registers a cleanup with `errdefer`. -/
def registers : LibraryCall → Bool
  | .pagerOpen .. | .btreeOpen .. | .btreeCreate .. | .btreeInsert .. | .btreeTableInsert .. => true
  | _ => false

end LibraryCall

inductive LibraryEvent where
  | call (call : LibraryCall) (ok : Bool)
  | clear
  | other

/-- The thread makes a call, clears its error state, or turns to another pager,
tree or piece of memory. -/
inductive LibraryStep : Sys → LibraryEvent → Sys → Prop where
  | success {s t : Sys} {call : LibraryCall} (h : call.run s = .success () t) :
      LibraryStep s (.call call true) t
  | failure {s t : Sys} {call : LibraryCall} (h : call.run s = .failure t) :
      LibraryStep s (.call call false) t
  | clear {s : Sys} : LibraryStep s .clear { s with err := errorClear s.err }
  | other {s t : Sys} (herr : t.err = s.err) (hclean : t.cleanups = s.cleanups) :
      LibraryStep s .other t

/-- The cleanups of a call have run if it failed, and have not if it
succeeded. -/
def CleanupsRight (s : Sys) : LibraryEvent → Sys → Prop
  | .call call ok, t => call.registers = true →
      if ok then NoneRan s.cleanups t.cleanups else AllRan s.cleanups t.cleanups
  | _, _ => True

/-- A call that registers a cleanup starts with a clear error code. -/
def StartsClear (s : Sys) : LibraryEvent → Prop
  | .call call _ => call.registers = true → errorGetCode s.err = 0
  | _ => True

theorem Tidy.thenModify {α : Type} {m : Call α} {f : α → Sys → Sys} (hm : Tidy m)
    (herr : ∀ a s, (f a s).err = s.err) (hclean : ∀ a s, (f a s).cleanups = s.cleanups) :
    Tidy (do let a ← m; modify (f a)) := by
  intro s hs
  rw [wp_bind]
  refine wp_mono (hm s hs) (fun a t ht => ?_) (fun _ h => h) fun _ h => h
  rw [wp_modify]
  exact ⟨(congrArg errorGetCode (herr a t)).trans ht.1, (hclean a t).symm ▸ ht.2⟩

theorem tidy_run {call : LibraryCall} (h : call.registers = true) : Tidy call.run := by
  cases call with
  | pagerOpen out pageSize directorySize =>
      exact (tidy_pagerOpen out pageSize directorySize).thenModify (fun _ _ => rfl) fun _ _ => rfl
  | btreeOpen out root => exact (tidy_btreeOpen out root).thenModify (fun _ _ => rfl) fun _ _ => rfl
  | btreeCreate out type =>
      exact (tidy_btreeCreate out type).thenModify (fun _ _ => rfl) fun _ _ => rfl
  | btreeInsert fuel key value => exact tidy_btreeInsert fuel key value
  | btreeTableInsert fuel id value =>
      exact Plain.then plain_get (fun _ => tidy_btreeInsert _ _ _) allRan_refl
  | _ => cases h

/-- In a run whose calls start with a clear error code, the cleanups of every
call run exactly when it fails. -/
theorem cleanups_run_on_failure {s u : Sys} {es : List LibraryEvent}
    (hrun : Run (fun s e t => LibraryStep s e t ∧ StartsClear s e) s es u) :
    Run (fun s e t => LibraryStep s e t ∧ CleanupsRight s e t) s es u := by
  refine hrun.mono fun s e t h => ⟨h.1, ?_⟩
  obtain ⟨hstep, hclear⟩ := h
  cases hstep with
  | success hrun => exact fun hreg => (wp.success (tidy_run hreg s (hclear hreg)) hrun).2
  | failure hrun => exact fun hreg => (wp.failure (tidy_run hreg s (hclear hreg)) hrun).2
  | clear => trivial
  | other => trivial

/-- The state a call leaves, and whether it succeeded. -/
def LibraryCall.after (call : LibraryCall) (s : Sys) : Option (Bool × Sys) :=
  match call.run s with
  | .success _ t => some (true, t)
  | .failure t => some (false, t)
  | .fault _ => none

theorem LibraryCall.after_step {call : LibraryCall} {s t : Sys} {ok : Bool}
    (h : call.after s = some (ok, t)) : LibraryStep s (.call call ok) t := by
  unfold LibraryCall.after at h
  split at h
  · cases h
    exact .success (by assumption)
  · cases h
    exact .failure (by assumption)
  · cases h

/-- The state after an event, if the call ends as the event says and starts with a clear
error code. -/
def LibraryEvent.after (s : Sys) : LibraryEvent → Option Sys
  | .call c ok =>
      if c.registers = true → errorGetCode s.err = 0 then
        ((c.after s).filter fun r => r.1 = ok).map Prod.snd
      else none
  | .clear => some { s with err := errorClear s.err }
  | .other => none

theorem LibraryEvent.after_step {e : LibraryEvent} {s t : Sys} (h : e.after s = some t) :
    LibraryStep s e t ∧ StartsClear s e := by
  cases e with
  | call c ok =>
      obtain ⟨hclear, h⟩ := Option.ite_none_right_eq_some.mp h
      obtain ⟨⟨ok', t'⟩, hfilter, rfl⟩ := Option.map_eq_some_iff.mp h
      obtain ⟨hafter, hok⟩ := Option.filter_eq_some_iff.mp hfilter
      cases of_decide_eq_true hok
      exact ⟨c.after_step hafter, hclear⟩
  | clear =>
      cases h
      exact ⟨.clear, trivial⟩
  | other => cases h

def playCalls (s : Sys) (es : List LibraryEvent) : Option Sys :=
  es.foldlM (fun s e => e.after s) s

theorem run_of_playCalls {es : List LibraryEvent} {s t : Sys} (h : playCalls s es = some t) :
    Run (fun s e t => LibraryStep s e t ∧ StartsClear s e) s es t := by
  rw [← List.map_id es]
  exact .of_foldlM (fun _ _ _ => LibraryEvent.after_step) h

/-- After a failed `pager_fix` and `error_clear` the third `malloc` is refused: a
`pager_open` fails and frees the two objects it has. The next one keeps its three. The
root of a tree is full with one row; there is no page for its split, so the insert of
another row fails and unfixes the root. -/
theorem cleanups_run_on_failure_once :
    ∃ s t, Run (fun s e t => LibraryStep s e t ∧ CleanupsRight s e t) s
      [.call (.pagerFix 0 true) false, .clear, .call (.pagerOpen true 20 4) false, .clear,
        .call (.pagerOpen true 20 4) true, .call (.btreeCreate true PAGE_FLAG_TABLE) true,
        .call (.btreeTableInsert 3 1 (Blob.ofBytes [7, 8])) true,
        .call (.btreeTableInsert 3 2 (Blob.ofBytes [7, 8])) false, .clear] t ∧
      t.cleanups.registered = 8 ∧ t.cleanups.ran = 3 ∧ t.heap.freed = [0, 1] ∧
      (t.pager.ring 0).header.latch = 0 := by
  let s : Sys := { freshSys 20 4 with
    heap := { (freshSys 20 4).heap with refuse := fun n => n = 2 }
    outage := fun n => n = 3 }
  have hplay : (playCalls s [.call (.pagerFix 0 true) false, .clear,
      .call (.pagerOpen true 20 4) false, .clear, .call (.pagerOpen true 20 4) true,
      .call (.btreeCreate true PAGE_FLAG_TABLE) true,
      .call (.btreeTableInsert 3 1 (Blob.ofBytes [7, 8])) true,
      .call (.btreeTableInsert 3 2 (Blob.ofBytes [7, 8])) false, .clear]).any (fun t =>
        t.cleanups.registered = 8 ∧ t.cleanups.ran = 3 ∧ t.heap.freed = [0, 1] ∧
          (t.pager.ring 0).header.latch = 0) = true := by
    decide +kernel
  obtain ⟨t, ht, hend⟩ := (Option.any_eq_true ..).mp hplay
  exact ⟨s, t, cleanups_run_on_failure (run_of_playCalls ht), of_decide_eq_true hend⟩

/-- A call of `pager_fix` fails, and a later `pager_open` succeeds without the
error having been cleared: it frees the three objects it hands out. -/
theorem successful_open_frees : ∃ s u t, Run LibraryStep s
      [.call (.pagerFix 0 true) false, .call (.pagerOpen true 16 4) true] t ∧
      LibraryStep u (.call (.pagerOpen true 16 4) true) t ∧
      ¬ CleanupsRight u (.call (.pagerOpen true 16 4) true) t ∧ t.heap.freed = [0, 1, 2] := by
  have hfail : (((LibraryCall.pagerFix 0 true).after (freshSys 16 4)).bind fun r =>
      ((LibraryCall.pagerOpen true 16 4).after r.2).map fun r' =>
        (r.1, r'.1, r.2.cleanups.ran, r'.2.cleanups.ran, r'.2.heap.freed))
      = some (false, true, 0, 3, [0, 1, 2]) := by decide +kernel
  obtain ⟨⟨ok, u⟩, hu, hrest⟩ := Option.bind_eq_some_iff.mp hfail
  obtain ⟨⟨ok', t⟩, ht, hshape⟩ := Option.map_eq_some_iff.mp hrest
  simp only [Prod.mk.injEq] at hshape
  obtain ⟨rfl, rfl, hran, hran', hfreed⟩ := hshape
  have hstep := LibraryCall.after_step ht
  refine ⟨_, u, t, .cons (LibraryCall.after_step hu) (.cons hstep (.nil t)), hstep,
    fun h => ?_, hfreed⟩
  have hnone : t.cleanups.ran = u.cleanups.ran := h rfl
  rw [hran, hran'] at hnone
  exact absurd hnone (by decide)

end Wednesday
