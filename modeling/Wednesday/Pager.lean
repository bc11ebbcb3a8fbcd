import Wednesday.Process

/-!
`pager.c` for one thread at a time. A call then finds every hash-entry latch
free and leaves it free, so only the page latches are kept here; the
interleaving of several threads has its own model.
-/

namespace Wednesday

open Lib Prog

/-- Conversion to `uint32_t`. -/
def u32 (x : Int) : Nat := (x % 4294967296).toNat

/-! ### Access to the pager of the process -/

def getPager : Call Pager := do
  let s ← get
  pure s.pager

def modifyPager (f : Pager → Pager) : Call Unit := modify fun s => { s with pager := f s.pager }

namespace Pager

def header (p : Pager) (frame : Nat) : Frame := (p.ring frame).header

def setRing (p : Pager) (index : Nat) (entry : RingEntry) : Pager :=
  { p with ring := Function.update p.ring index entry }

def setHeader (p : Pager) (frame : Nat) (header : Frame) : Pager :=
  p.setRing frame { p.ring frame with header := header }

def writeData (p : Pager) (frame : Nat) (data : Mem) : Pager :=
  p.setHeader frame { p.header frame with data := data }

def setRingId (p : Pager) (index : Nat) (id : PageId) : Pager :=
  p.setRing index { p.ring index with pageId := id }

def setEntry (p : Pager) (h : Nat) (entry : HashEntry) : Pager :=
  { p with directory := Function.update p.directory h entry }

end Pager

/-- `latch_acquire` on the latch of a page. -/
def latchAcquire (frame : Nat) (exclusive : Bool) : Call Unit := do
  let header := (← getPager).header frame
  if exclusive then do
    assert (header.latch = 0) .hang
    modifyPager fun p => p.setHeader frame { header with latch := -1 }
  else do
    assert (0 ≤ header.latch) .hang
    modifyPager fun p => p.setHeader frame
      { header with latch := Int.bmod (header.latch + 1) (2 ^ 32) }

def latchReleaseRead (frame : Nat) : Call Unit := do
  let header := (← getPager).header frame
  assert (0 < header.latch) .latchReleaseRead
  modifyPager fun p => p.setHeader frame { header with latch := header.latch - 1 }

def latchReleaseWrite (frame : Nat) : Call Unit := do
  let header := (← getPager).header frame
  assert (header.latch = -1) .latchReleaseWrite
  modifyPager fun p => p.setHeader frame { header with latch := 0 }

/-! ### The directory -/

/-- `pager_hash`. -/
def pagerHash (mask : Nat) (id : PageId) : Nat :=
  let hash : UInt32 := UInt32.ofNat id
  let hash := ((hash >>> 16) ^^^ hash) * 0x45d9f3b
  let hash := ((hash >>> 16) ^^^ hash) * 0x45d9f3b
  let hash := (hash >>> 16) ^^^ hash
  hash.toNat &&& mask

namespace HashEntry

/-- `entry_directory_lookup`: the header found. -/
def lookup (entry : HashEntry) (id : PageId) : Option Nat :=
  if entry.first.pageId = id then some entry.first.header
  else if entry.second.pageId = id then some entry.second.header
  else (entry.overflow.find? fun bucket => bucket.pageId = id).map Mapping.header

/-- Clear the first bucket that maps the id. -/
def removeBucket (id : PageId) : List Mapping → List Mapping
  | [] => []
  | bucket :: buckets =>
      if bucket.pageId = id then { bucket with pageId := 0 } :: buckets
      else bucket :: removeBucket id buckets

/-- `pager_directory_remove`. -/
def remove (entry : HashEntry) (id : PageId) : HashEntry :=
  if entry.first.pageId = id then { entry with first := { entry.first with pageId := 0 } }
  else if entry.second.pageId = id then { entry with second := { entry.second with pageId := 0 } }
  else { entry with overflow := removeBucket id entry.overflow }

/-- Fill the first free bucket; none if there is no free one. -/
def fillBucket (m : Mapping) : List Mapping → Option (List Mapping)
  | [] => none
  | bucket :: buckets =>
      if bucket.pageId = 0 then some (m :: buckets)
      else (fillBucket m buckets).map (bucket :: ·)

end HashEntry

/-- `pager_directory_insert`. -/
def pagerDirectoryInsert (h : Nat) (m : Mapping) : Call Unit := do
  let entry := (← getPager).directory h
  if entry.first.pageId = 0 then
    modifyPager fun p => p.setEntry h { entry with first := m }
  else if entry.second.pageId = 0 then
    modifyPager fun p => p.setEntry h { entry with second := m }
  else
    match HashEntry.fillBucket m entry.overflow with
    | some buckets => modifyPager fun p => p.setEntry h { entry with overflow := buckets }
    | none => do
        if entry.overflow = [] then
          let _ ← tryAlloc ⟨"src/pager.c", "pager_directory_insert", 206⟩ "hash_entry->overflow"
            "sizeof(bucket_t)" 24
        else
          let _ ← tryAlloc ⟨"src/pager.c", "pager_directory_insert", 218⟩ "bucket->next"
            "sizeof(bucket_t)" 24
        modifyPager fun p => p.setEntry h { entry with overflow := entry.overflow ++ [m] }

/-! ### Creation and eviction -/

/-- `atomic_fetch_add (&pager->create_head, 1) % pager->size`. -/
def nextCreateIndex : Call Nat := do
  let p ← getPager
  assert (p.size ≠ 0) .ringEmpty
  modifyPager fun p => { p with createHead := (p.createHead + 1) % 2 ^ 32 }
  pure (p.createHead % p.size)

def nextEvictIndex : Call Nat := do
  let p ← getPager
  modifyPager fun p => { p with evictHead := (p.evictHead + 1) % 2 ^ 32 }
  pure (p.evictHead % p.size)

/-- The loop of `pager_create` up to its successful exchange. When twice the
size of the ring is passed without a free entry there is none, and the
loop does not end. -/
def acquireRingEntry (id : PageId) : Nat → Call Nat
  | 0 => abort .hang
  | n + 1 => do
      let index ← nextCreateIndex
      if ((← getPager).ring index).pageId = 0 then do
        modifyPager fun p => p.setRingId index id
        pure index
      else acquireRingEntry id n

/-- Make sure the acquired ring entry has a header. -/
def allocateHeader (index : Nat) : Call Unit := do
  if ((← getPager).ring index).allocated then pure ()
  else
    match ← malloc with
    | some object => do
        let data := (← get).heap.garbage object
        modifyPager fun p => p.setRing index
          { p.ring index with allocated := true, header := ⟨0, 0, 0, data⟩ }
    | none => do
        modifyPager fun p => p.setRingId index 0
        failure ⟨"src/pager.c", "pager_create", 269⟩ ENOMEM ["failed to allocate memory for page"]

/-- `pager_create`. -/
def pagerCreate (h : Nat) (id : PageId) : Call Nat := do
  let index ← acquireRingEntry id (2 * (← getPager).size + 1)
  allocateHeader index
  modifyPager fun p => p.setHeader index { p.header index with id := id, flags := 0, latch := 0 }
  handleForward ⟨"src/pager.c", "pager_create", 278⟩
    "pager_directory_insert(hash_entry, ring_entry->header)"
    (pagerDirectoryInsert h ⟨id, index⟩)
    (modifyPager fun p => p.setRingId index 0)
  pure index

/-- The loop of `pager_evict`. -/
def pagerEvictLoop : Nat → Call Unit
  | 0 => failure ⟨"src/pager.c", "pager_evict", 343⟩ ENOMEM ["no pages to evict"]
  | n + 1 => do
      let index ← nextEvictIndex
      let p ← getPager
      let entry := p.ring index
      if entry.pageId = 0 then pagerEvictLoop n
      else if entry.header.latch ≠ 0 then pagerEvictLoop n
      else if entry.header.flags &&& PAGE_FLAG_REF ≠ 0 then do
        modifyPager fun p =>
          p.setHeader index
            { entry.header with flags := entry.header.flags &&& (255 - PAGE_FLAG_REF) }
        pagerEvictLoop n
      else do
        let h := pagerHash p.mask entry.pageId
        modifyPager fun p => p.setEntry h ((p.directory h).remove entry.pageId)
        modifyPager fun p => p.setRingId index 0

/-- `pager_evict`. -/
def pagerEvict : Call Unit := do
  let p ← getPager
  pagerEvictLoop (2 * p.size % 2 ^ 32)

/-! ### Fixing pages -/

/-- Take the latch of a page and mark an exclusive holder. -/
def latchPage (frame : Nat) (exclusive : Bool) : Call Unit := do
  latchAcquire frame exclusive
  if exclusive then
    modifyPager fun p =>
      p.setHeader frame
        { p.header frame with flags := (p.header frame).flags ||| PAGE_FLAG_EXCLUSIVE }

/-- `pager_lookup`. -/
def pagerLookup (h : Nat) (id : PageId) (exclusive : Bool) : Call (Option PageRef) := do
  match ((← getPager).directory h).lookup id with
  | none => pure none
  | some frame => do
      latchPage frame exclusive
      pure (some ⟨id, frame⟩)

def addPageCount : Call Unit :=
  modifyPager fun p => { p with pageCount := u32 (p.pageCount + 1) }

def subPageCount : Call Unit :=
  modifyPager fun p => { p with pageCount := u32 (p.pageCount - 1) }

/-- Make sure there is a ring entry left, by evicting a page if need be. -/
def ensureCapacity : Call Unit := do
  let p ← getPager
  if u32 (p.size - 1) ≤ p.pageCount then
    tryCall ⟨"src/pager.c", "pager_fix", 389⟩ "pager_evict(pager)" pagerEvict
  else addPageCount

/-- `pager_fix`. -/
def pagerFix (id : PageId) (exclusive : Bool) : Call PageRef := do
  if id = 0 then failure ⟨"src/pager.c", "pager_fix", 372⟩ EINVAL ["invalid page id"]
  let h := pagerHash (← getPager).mask id
  match ← pagerLookup h id exclusive with
  | some page => pure page
  | none => do
      ensureCapacity
      match ← pagerLookup h id exclusive with
      | some page => do
          subPageCount
          pure page
      | none => do
          let frame ← handleForward ⟨"src/pager.c", "pager_fix", 410⟩
            "pager_create(pager, hash_entry, id, &header)" (pagerCreate h id) subPageCount
          latchPage frame exclusive
          pure ⟨id, frame⟩

/-- `pager_next`. -/
def pagerNext : Call PageRef := do
  let p ← getPager
  modifyPager fun p => { p with nextPage := (p.nextPage + 1) % 2 ^ 32 }
  pagerFix p.nextPage true

/-- `pager_unfix`. -/
def pagerUnfix (page : PageRef) : Call Unit := do
  let header := (← getPager).header page.frame
  if header.flags &&& PAGE_FLAG_EXCLUSIVE ≠ 0 then do
    modifyPager fun p =>
      p.setHeader page.frame { header with flags := PAGE_FLAG_DIRTY ||| PAGE_FLAG_REF }
    latchReleaseWrite page.frame
  else do
    modifyPager fun p =>
      p.setHeader page.frame { header with flags := header.flags ||| PAGE_FLAG_REF }
    latchReleaseRead page.frame

/-! ### Opening a pager -/

/-- The objects `pager_open` allocates. -/
structure PagerObjects where
  pager : Nat
  directory : Nat
  ring : Nat

def emptyEntry : HashEntry := ⟨⟨0, 0⟩, ⟨0, 0⟩, []⟩

def emptyRing : RingEntry := ⟨0, false, ⟨0, 0, 0, fun _ => 0⟩⟩

/-- The pager before its arrays are allocated. For a power of two, truncating
the product with 0.7 is the same as dividing seven times its value by ten. -/
def pagerInit (pageSize directorySize : Nat) : Pager :=
  { pageSize := pageSize, size := 7 * directorySize / 10, pageCount := 0,
    mask := u32 (directorySize - 1), evictHead := 0, createHead := 0,
    nextPage := 1, directory := fun _ => emptyEntry, ring := fun _ => emptyRing }

/-- `pager_open`; `out` says whether there is a place for the result. -/
def pagerOpen (out : Bool) (pageSize directorySize : Nat) : Call (PagerObjects × Pager) := do
  ensure (directorySize &&& u32 (directorySize - 1) = 0)
    ⟨"src/pager.c", "pager_open", 116⟩ "(directory_size & (directory_size - 1)) == 0"
  ensure (out = true) ⟨"src/pager.c", "pager_open", 117⟩ "out != nullptr"
  let pager ← tryAlloc ⟨"src/pager.c", "pager_open", 120⟩ "pager" "sizeof(pager_t)" 48
  errdefer (free pager) do
    let p := pagerInit pageSize directorySize
    let directory ← tryAlloc ⟨"src/pager.c", "pager_open", 131⟩ "pager->directory"
      "sizeof(hash_entry_t) * directory_size" (48 * directorySize)
    errdefer (free directory) do
      let ring ← tryAlloc ⟨"src/pager.c", "pager_open", 134⟩ "pager->ring"
        "sizeof(ring_entry_t) * pager->size" (16 * p.size)
      errdefer (free ring) do
        pure (⟨pager, directory, ring⟩, p)

def pagerGetPageSize : Call Nat := do
  pure (← getPager).pageSize

end Wednesday
