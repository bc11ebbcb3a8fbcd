import Wednesday.Pager

/-!
The tree operations of `btree.c`. Loops and recursion over the height of the
tree take a bound on the number of levels.
-/

namespace Wednesday

open Lib Prog

/-! ### The pager as the tree calls it -/

def readPage (page : PageRef) : Call Mem := do
  pure ((← getPager).header page.frame).data

def writePage (page : PageRef) (data : Mem) : Call Unit :=
  modifyPager fun p => p.writeData page.frame data

/-- What `pager_fix` reports when every frame is fixed. -/
def pagerRefuse {α : Type} : Call α :=
  tryCall ⟨"src/pager.c", "pager_fix", 389⟩ "pager_evict(pager)"
    (failure ⟨"src/pager.c", "pager_evict", 343⟩ ENOMEM ["no pages to evict"])

/-- `pager_fix` on a page of the tree; any call may be refused. -/
def treeFix (id : PageId) : Call PageRef := do
  let s ← get
  modify fun s => { s with pagerCalls := s.pagerCalls + 1 }
  if s.outage s.pagerCalls then pagerRefuse else pagerFix id true

/-- `pager_next` for the tree. -/
def treeNext : Call PageRef := do
  let s ← get
  modify fun s => { s with pagerCalls := s.pagerCalls + 1 }
  if s.outage s.pagerCalls then do
    modifyPager fun p => { p with nextPage := (p.nextPage + 1) % 2 ^ 32 }
    pagerRefuse
  else pagerNext

def setRoot (root : PageId) : Call Unit := modify fun s => { s with tree := { s.tree with root } }

/-! ### Page operations on fixed pages -/

/-- `page_insert_leaf` on a fixed page. -/
def insertLeaf (page : PageRef) (key value : Blob) : Call Unit := do
  let s ← get
  match ← ofExcept (pageInsertLeaf s.stack s.tree.pageSize (← readPage page) key value) with
  | none =>
      failure ⟨"src/btree.c", "page_insert_leaf", 265⟩ EEXIST ["key already exists on leaf page"]
  | some data => writePage page data

/-- `page_insert_inner` on a fixed page. -/
def insertInner (page : PageRef) (index : Nat) (key : Blob) (pageId : PageId) : Call Unit := do
  let s ← get
  let data ← ofExcept
    (pageInsertInner s.stack s.tree.pageSize (← readPage page) index key pageId)
  writePage page data

/-- `page_split` on fixed pages, and the key it split at. The key of a page
without cells lies outside the page. -/
def splitPage (page split : PageRef) : Call Blob := do
  let s ← get
  let header ← readPage page
  let (left, right, splitIndex) :=
    pageSplit s.stack s.tree.pageSize header (← readPage split) split.id
  writePage page left
  writePage split right
  assert (splitIndex ≠ 0) .splitIndex
  pure (payloadGetKey (pageFlags left) (pageGetPayload left (splitIndex - 1)))

/-- The child a search for `index` enters. -/
def childAt (page : Mem) (index : Nat) : PageId :=
  if index = cellCount page then pageRight page
  else payloadGetPageId (pageGetPayload page index)

/-- There might be not enough space for the key and the value. -/
def needsSplit (page : Mem) (key value : Blob) : Bool :=
  freeSpace page < payloadPutLen (pageFlags page) key value

/-! ### Insertion -/

/-- The split of a child of `parent`: the half that covers the key stays
fixed. -/
def splitChild (parent page : PageRef) (index : Nat) (key : Blob) : Call PageRef := do
  let split ← tryCall ⟨"src/btree.c", "btree_insert_walk", 364⟩ "pager_next(btree->pager, &split)"
    treeNext
  let splitKey ← splitPage page split
  insertInner parent index splitKey split.id
  if keyCompare key.data splitKey.data < 0 then do
    pagerUnfix split
    pure page
  else do
    pagerUnfix page
    pure split

/-- The parent lock scope of `btree_insert_walk`: from a fixed parent to the
fixed child that covers the key. -/
def descend (parent : PageRef) (key value : Blob) : Call PageRef :=
  deferred (pagerUnfix parent) do
    let header ← readPage parent
    match pageFindPointer header key with
    | (true, _) =>
        failure ⟨"src/btree.c", "btree_insert_walk", 347⟩ EEXIST ["key already exists on page"]
    | (false, index) => do
        let next := childAt header index
        assert (next ≠ 0) .childZero
        let page ← tryCall ⟨"src/btree.c", "btree_insert_walk", 358⟩
          "pager_fix(btree->pager, next, true, &page)" (treeFix next)
        if needsSplit (← readPage page) key value then splitChild parent page index key
        else pure page

/-- `btree_insert_walk`. -/
def btreeInsertWalk : Nat → PageRef → Blob → Blob → Call Unit
  | 0, _, _, _ => abort .fuel
  | fuel + 1, parent, key, value => do
      let header ← readPage parent
      assert (pageIsInner (pageFlags header)) .walkParentLeaf
      assert (payloadPutLen (pageFlags header) key value ≤ freeSpace header) .walkParentSpace
      let page ← descend parent key value
      if pageIsLeaf (pageFlags (← readPage page)) then
        deferred (pagerUnfix page) do
          tryCall ⟨"src/btree.c", "btree_insert_walk", 383⟩
            "page_insert_leaf(page.data, btree->page_size, key, value)" (insertLeaf page key value)
      else
        tryCall ⟨"src/btree.c", "btree_insert_walk", 385⟩
          "btree_insert_walk(btree, page, key, value)" (btreeInsertWalk fuel page key value)

/-- The split of the root under a new root: the half that covers the key stays
fixed. -/
def splitRoot (root : PageRef) (key : Blob) : Call PageRef := do
  let split ← tryCall ⟨"src/btree.c", "btree_insert", 400⟩
    "pager_next(btree->pager, &split)" treeNext
  let splitKey ← splitPage root split
  let new ← tryCall ⟨"src/btree.c", "btree_insert", 407⟩ "pager_next(btree->pager, &new)" treeNext
  deferred (pagerUnfix new) do
    let s ← get
    writePage new (pageInitRoot s.tree.pageSize (← readPage new) (pageFlags (← readPage root))
      root.id splitKey split.id)
    setRoot new.id
    if keyCompare key.data splitKey.data < 0 then do
      pagerUnfix split
      pure root
    else do
      pagerUnfix root
      pure split

/-- `btree_insert`. -/
def btreeInsert (fuel : Nat) (key value : Blob) : Call Unit := do
  let s ← get
  let root ← tryCall ⟨"src/btree.c", "btree_insert", 394⟩
    "pager_fix(btree->pager, btree->root, true, &root)" (treeFix s.tree.root)
  errdeferVar root pagerUnfix do
    if needsSplit (← lift (readPage root)) key value then
      writeVar (← lift (splitRoot root key))
    let root ← readVar
    if pageIsLeaf (pageFlags (← lift (readPage root))) then
      lift (deferred (pagerUnfix root) do
        tryCall ⟨"src/btree.c", "btree_insert", 437⟩
          "page_insert_leaf(root.data, btree->page_size, key, value)" (insertLeaf root key value))
    else
      lift (tryCall ⟨"src/btree.c", "btree_insert", 439⟩
        "btree_insert_walk(btree, root, key, value)" (btreeInsertWalk fuel root key value))

/-! ### Lookup -/

/-- A pointer into the data of a frame. -/
structure DataPtr where
  frame : Nat
  offset : Nat

/-- The loop of `btree_lookup`, over its local `page`. -/
def lookupLoop (key : Blob) : Nat → Prog Fault (Sys × PageRef) Unit
  | 0 => abort .fuel
  | fuel + 1 => do
      let page ← readVar
      let header ← lift (readPage page)
      if pageIsInner (pageFlags header) then do
        let (_, index) := pageFindPointer header key
        let next := childAt header index
        assert (next ≠ 0) .childZero
        let child ← lift (tryCall ⟨"src/btree.c", "btree_lookup", 466⟩
          "pager_fix(btree->pager, next, true, &child)" (treeFix next))
        lift (pagerUnfix page)
        writeVar child
        lookupLoop key fuel
      else pure ()

/-- `btree_lookup`: where the value stands. -/
def btreeLookup (fuel : Nat) (key : Blob) : Call DataPtr := do
  let s ← get
  let page ← tryCall ⟨"src/btree.c", "btree_lookup", 448⟩
    "pager_fix(btree->pager, btree->root, true, &page)" (treeFix s.tree.root)
  withVar page pagerUnfix do
    lookupLoop key fuel
    let page ← readVar
    let header ← lift (readPage page)
    match pageFindPointer header key with
    | (false, _) =>
        lift (failure ⟨"src/btree.c", "btree_lookup", 474⟩ ENOENT ["key not found on leaf page"])
    | (true, index) =>
        pure ⟨page.frame, pageCell header index +
          payloadGetValuePtr (pageFlags header) (pageGetPayload header index)⟩

/-! ### Tables -/

/-- The key `varint_put` leaves in a buffer of the stack. -/
def tableKey (stack : Mem) (id : Nat) : Blob :=
  let (buf, len) := varintPut stack id
  ⟨len, buf⟩

/-- The value `blob_put` leaves in a buffer of the stack. -/
def tableValue (stack : Mem) (value : Blob) : Blob :=
  let (buf, len) := blobPut stack value
  ⟨len, buf⟩

/-- `btree_table_insert`. -/
def btreeTableInsert (fuel id : Nat) (value : Blob) : Call Unit := do
  let s ← get
  btreeInsert fuel (tableKey s.stack id) (tableValue s.stack value)

/-- `btree_table_lookup`. -/
def btreeTableLookup (fuel id : Nat) : Call Blob := do
  let s ← get
  let value ← tryCall ⟨"src/btree.c", "btree_table_lookup", 501⟩
    "btree_lookup(btree, (blob_t){ key_len, key }, &value)" (btreeLookup fuel (tableKey s.stack id))
  let header := (← getPager).header value.frame
  pure (blobGet (header.data.drop value.offset)).1

/-! ### Opening and creating a tree -/

/-- `btree_open`: the object; `out` says whether there is a place for it. -/
def btreeOpen (out : Bool) (root : PageId) : Call (Nat × BTree) := do
  ensure (out = true) ⟨"src/btree.c", "btree_open", 148⟩ "out != nullptr"
  let btree ← tryAlloc ⟨"src/btree.c", "btree_open", 152⟩ "btree" "sizeof(btree_t)" 16
  errdefer (free btree) do
    pure (btree, { root := root, pageSize := ← pagerGetPageSize })

/-- `btree_create`. -/
def btreeCreate (out : Bool) (type : Nat) : Call (Nat × BTree) := do
  ensure (out = true) ⟨"src/btree.c", "btree_create", 166⟩ "out != nullptr"
  let root ← tryCall ⟨"src/btree.c", "btree_create", 170⟩ "pager_next(pager, &root)" treeNext
  deferred (pagerUnfix root) do
    let pageSize ← pagerGetPageSize
    writePage root (pageInitLeaf pageSize (← readPage root) type)
    btreeOpen out root.id

end Wednesday
