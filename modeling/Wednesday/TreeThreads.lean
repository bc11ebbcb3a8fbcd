import Wednesday.Lib.Runs
import Wednesday.TableMap

/-!
`btree.c` for any number of clients. A client takes or leaves the latch of a page,
reads or writes `btree->root`, or decodes a value in one step, at a point of the
function it is in; what stands between two of them belongs to one of the steps.
A client that waits for a latch makes no step.

`pager_fix` and `pager_next` are one step each: the latches of the hash entries, which
they hold while they wait for the latch of a page, are left out, and so are the waits
for them. `PagerThreads` has those steps; that any number of clients of it refine
this model is not proved.
-/

namespace Wednesday

open Lib Prog

/-- The points of `btree_insert`, after `btree_insert_walk` was unfolded in it, with the
local `root`. The pages in `leave` are unfixed next. -/
inductive InsertPoint where
  | readRoot
  | fixRoot (id : PageId)
  | splitRoot (root : PageRef)
  | newRoot (root split : PageRef) (splitKey : Blob)
  | setRoot (root split new : PageRef) (splitKey : Blob)
  | visit (root page : PageRef) (leave : List PageRef)
  | fixChild (root parent : PageRef) (index : Nat) (next : PageId)
  | splitChild (root parent page : PageRef) (index : Nat)
  | exit (root : PageRef) (leave : List PageRef) (ok : Bool)

/-- The points of `btree_table_lookup`, after `btree_lookup` was unfolded in it. -/
inductive LookupPoint where
  | readRoot
  | fixRoot (id : PageId)
  | visit (page : PageRef) (leave : List PageRef)
  | fixChild (page : PageRef) (next : PageId)
  | exit (page : PageRef) (ptr : Option DataPtr)
  | decode (ptr : DataPtr)

inductive TreePoint where
  | idle
  | insert (p : InsertPoint)
  | lookup (p : LookupPoint)

/-- Where a step ends: at another point, or with the report of the call. -/
inductive TreeNext (α : Type) where
  | goto (p : α)
  | ret (reply : TableReply)

def TreeNext.map {α β : Type} (f : α → β) : TreeNext α → TreeNext β
  | .goto p => .goto (f p)
  | .ret reply => .ret reply

/-- The call returns `FAILURE`. -/
def retFailure {α : Type} : Call (TreeNext α) := do
  let s ← get
  pure (.ret (.failed (errorGetCode s.err)))

/-- The next step in `btree_insert`. -/
def insertStep (key value : Blob) : InsertPoint → Call (TreeNext InsertPoint)
  | .readRoot => do
      let s ← get
      pure (.goto (.fixRoot s.tree.root))
  | .fixRoot id =>
      recover (do
          let root ← tryCall ⟨"src/btree.c", "btree_insert", 394⟩
            "pager_fix(btree->pager, btree->root, true, &root)" (treeFix id)
          registerCleanup
          let header ← readPage root
          pure (.goto (if needsSplit header key value then .splitRoot root
            else .visit root root [])))
        retFailure
  | .splitRoot root =>
      recover (do
          let split ← tryCall ⟨"src/btree.c", "btree_insert", 400⟩
            "pager_next(btree->pager, &split)" treeNext
          let splitKey ← splitPage root split
          pure (.goto (.newRoot root split splitKey)))
        (pure (.goto (.exit root [] false)))
  | .newRoot root split splitKey =>
      recover (do
          let new ← tryCall ⟨"src/btree.c", "btree_insert", 407⟩
            "pager_next(btree->pager, &new)" treeNext
          let s ← get
          writePage new (pageInitRoot s.tree.pageSize (← readPage new) (pageFlags (← readPage root))
            root.id splitKey split.id)
          pure (.goto (.setRoot root split new splitKey)))
        (pure (.goto (.exit root [] false)))
  | .setRoot root split new splitKey => do
      setRoot new.id
      if keyCompare key.data splitKey.data < 0 then pure (.goto (.visit root root [split, new]))
      else pure (.goto (.visit split split [root, new]))
  | .visit root page (q :: leave) => do
      pagerUnfix q
      pure (.goto (.visit root page leave))
  | .visit root page [] => do
      let header ← readPage page
      if pageIsLeaf (pageFlags header) then
        recover (do
            insertLeaf page key value
            pure (.goto (.exit root [page] true)))
          (pure (.goto (.exit root [page] false)))
      else do
        -- the walk
        assert (payloadPutLen (pageFlags header) key value ≤ freeSpace header) .walkParentSpace
        match pageFindPointer header key with
        | (true, _) =>
            recover (failure ⟨"src/btree.c", "btree_insert_walk", 347⟩ EEXIST
              ["key already exists on page"])
              (pure (.goto (.exit root [page] false)))
        | (false, index) => do
            let next := childAt header index
            assert (next ≠ 0) .childZero
            pure (.goto (.fixChild root page index next))
  | .fixChild root parent index next =>
      recover (do
          let page ← tryCall ⟨"src/btree.c", "btree_insert_walk", 358⟩
            "pager_fix(btree->pager, next, true, &page)" (treeFix next)
          let header ← readPage page
          pure (.goto (if needsSplit header key value then .splitChild root parent page index
            else .visit root page [parent])))
        (pure (.goto (.exit root [parent] false)))
  | .splitChild root parent page index =>
      -- a child that gets no page for its upper half stays fixed
      recover (do
          let split ← tryCall ⟨"src/btree.c", "btree_insert_walk", 364⟩
            "pager_next(btree->pager, &split)" treeNext
          let splitKey ← splitPage page split
          insertInner parent index splitKey split.id
          if keyCompare key.data splitKey.data < 0 then
            pure (.goto (.visit root page [split, parent]))
          else pure (.goto (.visit root split [page, parent])))
        (pure (.goto (.exit root [parent] false)))
  | .exit root (q :: leave) ok => do
      pagerUnfix q
      pure (.goto (.exit root leave ok))
  | .exit root [] ok => do
      deferGuard (pagerUnfix root)
      if ok then pure (.ret .inserted) else retFailure

/-- The next step in `btree_table_lookup`. -/
def lookupStep (key : Blob) : LookupPoint → Call (TreeNext LookupPoint)
  | .readRoot => do
      let s ← get
      pure (.goto (.fixRoot s.tree.root))
  | .fixRoot id =>
      recover (do
          let page ← tryCall ⟨"src/btree.c", "btree_lookup", 448⟩
            "pager_fix(btree->pager, btree->root, true, &page)" (treeFix id)
          pure (.goto (.visit page [])))
        retFailure
  | .visit page (q :: leave) => do
      pagerUnfix q
      pure (.goto (.visit page leave))
  | .visit page [] => do
      let header ← readPage page
      let (found, index) := pageFindPointer header key
      if pageIsInner (pageFlags header) then do
        let next := childAt header index
        assert (next ≠ 0) .childZero
        pure (.goto (.fixChild page next))
      else if found then
        pure (.goto (.exit page (some ⟨page.frame, pageCell header index +
          payloadGetValuePtr (pageFlags header) (pageGetPayload header index)⟩)))
      else
        recover (failure ⟨"src/btree.c", "btree_lookup", 474⟩ ENOENT ["key not found on leaf page"])
          (pure (.goto (.exit page none)))
  | .fixChild page next =>
      recover (do
          let child ← tryCall ⟨"src/btree.c", "btree_lookup", 466⟩
            "pager_fix(btree->pager, next, true, &child)" (treeFix next)
          pure (.goto (.visit child [page])))
        (pure (.goto (.exit page none)))
  | .exit page (some ptr) => do
      pagerUnfix page
      pure (.goto (.decode ptr))
  | .exit page none => do
      pagerUnfix page
      retFailure
  | .decode ptr => do
      let header := (← getPager).header ptr.frame
      pure (.ret (.found (blobGet (header.data.drop ptr.offset)).1.bytes))

/-! ### The clients -/

/-- A client with its errors, its stack, its last call and the buffers of that call. -/
structure TreeClient where
  err : ErrorState
  stack : Mem
  call : TableCall
  key : Blob
  value : Blob
  point : TreePoint

namespace TreeClient

/-- A client that is in no call makes one. -/
def begin (c : TreeClient) (call : TableCall) : TreeClient :=
  match call with
  | .insert id value =>
      { c with
        call
        key := tableKey c.stack id
        value := tableValue c.stack value
        point := .insert .readRoot }
  | .lookup id => { c with call, key := tableKey c.stack id, point := .lookup .readRoot }

/-- The next step of a client in a call. -/
def step (c : TreeClient) : Call (TreeNext TreePoint) :=
  match c.point with
  | .idle => abort .hang
  | .insert p => do
      let next ← insertStep c.key c.value p
      pure (next.map .insert)
  | .lookup p => do
      let next ← lookupStep c.key p
      pure (next.map .lookup)

end TreeClient

/-- The clients of one tree. Errors and stack belong to each client, not to what
they share. -/
structure TreeThreads (κ : Type) where
  shared : Sys
  client : κ → TreeClient

inductive TreeThreadEvent (κ : Type) where
  | begins (c : κ) (call : TableCall)
  | acts (c : κ)
  | returns (c : κ) (call : TableCall) (reply : TableReply)
  | errorClear (c : κ)
  | scratch (c : κ) (stack : Mem)

namespace TreeThreads

variable {κ : Type}

/-- The process as one client sees it. -/
def seen (S : TreeThreads κ) (c : κ) : Sys :=
  { S.shared with err := (S.client c).err, stack := (S.client c).stack }

variable [DecidableEq κ]

/-- The clients after one of them has changed. -/
def set (S : TreeThreads κ) (c : κ) (client : TreeClient) : TreeThreads κ :=
  { S with client := Function.update S.client c client }

/-- The process after a step of a client that goes on at a point. -/
def after (S : TreeThreads κ) (c : κ) (p : TreePoint) (t : Sys) : TreeThreads κ :=
  { shared := t
    client :=
      Function.update S.client c { S.client c with err := t.err, stack := t.stack, point := p } }

end TreeThreads

open TreeThreads

variable {κ : Type} [DecidableEq κ]

/-- One client makes one step. -/
inductive TreeThreadStep : TreeThreads κ → TreeThreadEvent κ → TreeThreads κ → Prop where
  | begins {S : TreeThreads κ} {c : κ} (hidle : (S.client c).point = .idle) (call : TableCall) :
      TreeThreadStep S (.begins c call) (S.set c ((S.client c).begin call))
  | acts {S : TreeThreads κ} {c : κ} {p : TreePoint} {t : Sys}
      (hstep : (S.client c).step (S.seen c) = .success (.goto p) t) :
      TreeThreadStep S (.acts c) (S.after c p t)
  | returns {S : TreeThreads κ} {c : κ} {reply : TableReply} {t : Sys}
      (hstep : (S.client c).step (S.seen c) = .success (.ret reply) t) :
      TreeThreadStep S (.returns c (S.client c).call reply) (S.after c .idle t)
  | errorClear {S : TreeThreads κ} {c : κ} (hidle : (S.client c).point = .idle) :
      TreeThreadStep S (.errorClear c)
        (S.set c { S.client c with err := errorClear (S.client c).err })
  | scratch {S : TreeThreads κ} {c : κ} (hidle : (S.client c).point = .idle) (stack : Mem) :
      TreeThreadStep S (.scratch c stack) (S.set c { S.client c with stack := stack })

/-- The tree, with clients that did nothing yet. -/
structure TreeThreads.Starts (S : TreeThreads κ) (s : Sys) : Prop where
  shared : S.shared = s
  idle : ∀ c, (S.client c).point = .idle

/-! ### Schedules -/

/-- The clients of a tree, in no call. -/
def TreeThreads.ofTree (κ : Type) (s : Sys) : TreeThreads κ where
  shared := s
  client _ :=
    { err := errorClear s.err
      stack := s.stack
      call := .lookup 0
      key := ⟨0, s.stack⟩
      value := ⟨0, s.stack⟩
      point := .idle }

/-- A client begins a call, or makes the next step of the one it is in. -/
def TreeThreads.turn (S : TreeThreads κ) :
    κ × Option TableCall → Option (TreeThreadEvent κ × TreeThreads κ)
  | (c, some call) =>
      match (S.client c).point with
      | .idle => some (.begins c call, S.set c ((S.client c).begin call))
      | _ => none
  | (c, none) =>
      match (S.client c).step (S.seen c) with
      | .success (.goto p) t => some (.acts c, S.after c p t)
      | .success (.ret reply) t => some (.returns c (S.client c).call reply, S.after c .idle t)
      | _ => none

/-- The run of a schedule, as long as its steps meet a condition. -/
def TreeThreads.play (ok : TreeThreads κ → TreeThreadEvent κ → Bool) (S : TreeThreads κ)
    (turns : List (κ × Option TableCall)) : Option (List (TreeThreadEvent κ) × TreeThreads κ) :=
  stepThrough (fun S turn => (S.turn turn).filter fun x => ok S x.1) S turns

omit [DecidableEq κ] in
theorem TreeThreads.starts_ofTree (s : Sys) : (TreeThreads.ofTree κ s).Starts s :=
  ⟨rfl, fun _ => rfl⟩

theorem step_of_turn {S T : TreeThreads κ} {e : TreeThreadEvent κ} {turn : κ × Option TableCall}
    (h : S.turn turn = some (e, T)) : TreeThreadStep S e T := by
  obtain ⟨c, call⟩ := turn
  cases call with
  | some call =>
      simp only [TreeThreads.turn] at h
      split at h
      · rename_i hidle
        cases h
        exact .begins hidle call
      · cases h
  | none =>
      simp only [TreeThreads.turn] at h
      split at h
      · rename_i hstep
        cases h
        exact .acts hstep
      · rename_i hstep
        cases h
        exact .returns hstep
      · cases h

/-- A schedule is played in a run. -/
theorem run_of_play {ok : TreeThreads κ → TreeThreadEvent κ → Bool} {S T : TreeThreads κ}
    {turns : List (κ × Option TableCall)} {es : List (TreeThreadEvent κ)}
    (h : S.play ok turns = some (es, T)) :
    Run (fun S e T => ok S e = true ∧ TreeThreadStep S e T) S es T := by
  refine .of_stepThrough (fun S turn e T hturn => ?_) h
  obtain ⟨hturn, hok⟩ := Option.filter_eq_some_iff.mp hturn
  exact ⟨hok, step_of_turn hturn⟩

end Wednesday
