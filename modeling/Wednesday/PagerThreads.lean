import Wednesday.Lib.Latch
import Wednesday.Lib.Runs
import Wednesday.PagerDirectory

/-!
`pager.c` for any number of clients. Every atomic operation on a latch, a
counter, a ring id or a flags word is one step of one client, at a point of the
function the client is in; what stands between two of them belongs to the step
before. A client that spins makes no step. The page data and the thread-local
errors are left out.
-/

namespace Wednesday

open Lib

/-- What the clients share. The header of a ring entry is named by its index. -/
structure SharedPager where
  size : Nat
  mask : Nat
  pageCount : Nat
  evictHead : Nat
  createHead : Nat
  nextPage : PageId
  entryLatch : Nat → Int
  entry : Nat → HashEntry
  ringId : Nat → PageId
  allocated : Nat → Bool
  latch : Nat → Int
  flags : Nat → Nat

/-- The arguments of a `pager_fix`, and whether `pager_next` made the call. -/
structure FixCall where
  id : PageId
  exclusive : Bool
  fresh : Bool
  deriving DecidableEq

/-- Where `pager_fix` takes the latch of the page: in the lookup under the read
latch of the hash entry, in the one retried under its write latch, or on a page
it created. -/
inductive Path where
  | lookup
  | retry
  | create
  deriving DecidableEq

/-- What `pager_evict` goes on with after it released a hash entry. -/
inductive AfterDrop where
  | reload (id : PageId)
  | again
  | done

/-- The points of `pager_fix`, after `pager_lookup` and `pager_create` were
unfolded in it. A result is the frame of the page, or none on failure. -/
inductive FixPoint where
  | readEntry
  | lookup
  | loadCount
  | exchangeCount (count : Nat)
  | writeEntry
  | relookup
  | pageLatch (path : Path) (f : Nat)
  | pageFlag (path : Path) (f : Nat)
  | subCount (result : Option Nat)
  | readAssert (result : Option Nat)
  | readDrop (result : Option Nat)
  | writeAssert (result : Option Nat)
  | writeDrop (result : Option Nat)

/-- The points of `pager_create`. -/
inductive CreatePoint where
  | assert
  | index
  | exchange (f : Nat)
  | flags (f : Nat)
  | latch (f : Nat)
  | insert (f : Nat)
  | undo (f : Nat)

/-- The points of `pager_evict` and `pager_directory_find_entry`, for a ring
entry and the id read from it. -/
inductive EvictPoint where
  | next
  | load (f : Nat)
  | entry (f : Nat) (id : PageId)
  | exchange (f : Nat) (id : PageId)
  | available (f : Nat) (id : PageId)
  | flags (f : Nat) (id : PageId)
  | spend (f : Nat) (id : PageId)
  | reload (f : Nat) (id : PageId)
  | remove (f : Nat) (id ringId : PageId)
  | store (f : Nat) (id : PageId)
  | assert (f : Nat) (id : PageId) (after : AfterDrop)
  | drop (f : Nat) (id : PageId) (after : AfterDrop)

/-- The points of `pager_unfix`. -/
inductive UnfixPoint where
  | load
  | store
  | writeAssert
  | write
  | setRef
  | readAssert
  | read

/-- Where a client is. An eviction knows the `pager_fix` it was called from and
how many ring entries it still looks at; `pager_unfix` comes with the mode the
page was fixed in, which the code does not know. -/
inductive Point where
  | idle
  | aborted
  | fix (r : FixCall) (p : FixPoint)
  | create (r : FixCall) (p : CreatePoint)
  | evict (caller : Option FixCall) (n : Nat) (p : EvictPoint)
  | unfix (page : PageRef) (exclusive : Bool) (p : UnfixPoint)

/-- A client, with the pages it fixed and did not unfix yet. -/
structure Client where
  point : Point
  held : List (PageRef × Bool)

/-- The calls a client can make. -/
inductive PagerCall where
  | fix (id : PageId) (exclusive : Bool)
  | next
  | evict
  | unfix (i : Nat)

namespace HashEntry

/-- `pager_directory_insert` when no allocation fails. -/
def insert (entry : HashEntry) (m : Mapping) : HashEntry :=
  if entry.first.pageId = 0 then { entry with first := m }
  else if entry.second.pageId = 0 then { entry with second := m }
  else { entry with overflow := fill m entry.overflow }

/-- Whether `pager_directory_insert` needs a new bucket. -/
def full (entry : HashEntry) : Prop :=
  entry.first.pageId ≠ 0 ∧ entry.second.pageId ≠ 0 ∧ ∀ bucket ∈ entry.overflow, bucket.pageId ≠ 0

instance (entry : HashEntry) : Decidable entry.full := inferInstanceAs (Decidable (_ ∧ _ ∧ _))

end HashEntry

namespace SharedPager

def hash (s : SharedPager) (id : PageId) : Nat := pagerHash s.mask id

def setEntryLatch (s : SharedPager) (h : Nat) (word : Int) : SharedPager :=
  { s with entryLatch := Function.update s.entryLatch h word }

def setEntry (s : SharedPager) (h : Nat) (entry : HashEntry) : SharedPager :=
  { s with entry := Function.update s.entry h entry }

def setRingId (s : SharedPager) (f : Nat) (id : PageId) : SharedPager :=
  { s with ringId := Function.update s.ringId f id }

def setAllocated (s : SharedPager) (f : Nat) : SharedPager :=
  { s with allocated := Function.update s.allocated f true }

def setLatch (s : SharedPager) (f : Nat) (word : Int) : SharedPager :=
  { s with latch := Function.update s.latch f word }

def setFlags (s : SharedPager) (f flags : Nat) : SharedPager :=
  { s with flags := Function.update s.flags f flags }

def setPageCount (s : SharedPager) (count : Nat) : SharedPager := { s with pageCount := count }

/-- The exchange that ends `latch_acquire_read`. -/
def readWord (word : Int) : Option Int :=
  if 0 ≤ word then some (Int.bmod (word + 1) (2 ^ 32)) else none

/-- The exchange that ends `latch_acquire_write`. -/
def writeWord (word : Int) : Option Int := if word = 0 then some (-1) else none

/-- The subtraction that ends `latch_release_read`. -/
def dropWord (word : Int) : Int := Int.bmod (word - 1) (2 ^ 32)

/-- `latch_acquire`; none while the latch is not to be had. -/
def acquireWord (word : Int) (exclusive : Bool) : Option Int :=
  if exclusive then writeWord word else readWord word

end SharedPager

open SharedPager

namespace Client

variable (s : SharedPager) (c : Client)

def goto (p : Point) : Client := { c with point := p }

/-- `pager_fix` returns, with the page or with a failure. -/
def ret (r : FixCall) (result : Option Nat) : Client where
  point := .idle
  held := match result with
    | some f => (⟨r.id, f⟩, r.exclusive) :: c.held
    | none => c.held

/-- The test of `page_count`, with the value just loaded. -/
def afterCount (r : FixCall) (count : Nat) : Client :=
  if u32 (s.size - 1) ≤ count then c.goto (.evict (some r) (2 * s.size % 2 ^ 32) .next)
  else c.goto (.fix r (.exchangeCount count))

/-- What follows the latch of the page and, for an exclusive fix, its flag. -/
def afterLatch (path : Path) (r : FixCall) (f : Nat) : Client :=
  match path with
  | .lookup => c.goto (.fix r (.readAssert (some f)))
  | .retry => c.goto (.fix r (.subCount (some f)))
  | .create => c.goto (.fix r (.writeAssert (some f)))

/-- A client that is in no call starts one. -/
def start : PagerCall → Option (SharedPager × Client)
  | .fix id exclusive =>
      if id = 0 then some (s, c) else some (s, c.goto (.fix ⟨id, exclusive, false⟩ .readEntry))
  | .next =>
      let s' := { s with nextPage := (s.nextPage + 1) % 2 ^ 32 }
      if s.nextPage = 0 then some (s', c)
      else some (s', c.goto (.fix ⟨s.nextPage, true, true⟩ .readEntry))
  | .evict => some (s, c.goto (.evict none (2 * s.size % 2 ^ 32) .next))
  | .unfix i =>
      (c.held[i]?).map fun held =>
        (s, { point := .unfix held.1 held.2 .load, held := c.held.eraseIdx i })

/-- The next step in `pager_fix`. `ok` is false when a weak exchange fails
spuriously. -/
def fixStep (ok : Bool) (r : FixCall) : FixPoint → Option (SharedPager × Client)
  | .readEntry =>
      (readWord (s.entryLatch (s.hash r.id))).map fun word =>
        (s.setEntryLatch (s.hash r.id) word, c.goto (.fix r .lookup))
  | .lookup =>
      if s.entryLatch (s.hash r.id) = 0 then some (s, c.goto .aborted)
      else match (s.entry (s.hash r.id)).lookup r.id with
        | some f => some (s, c.goto (.fix r (.pageLatch .lookup f)))
        | none => some (s, c.goto (.fix r (.readAssert none)))
  | .pageLatch path f =>
      (acquireWord (s.latch f) r.exclusive).map fun word =>
        (s.setLatch f word,
          if r.exclusive then c.goto (.fix r (.pageFlag path f)) else c.afterLatch path r f)
  | .pageFlag path f =>
      some (s.setFlags f (s.flags f ||| PAGE_FLAG_EXCLUSIVE), c.afterLatch path r f)
  | .readAssert result =>
      if 0 < s.entryLatch (s.hash r.id) then some (s, c.goto (.fix r (.readDrop result)))
      else some (s, c.goto .aborted)
  | .readDrop result =>
      some (s.setEntryLatch (s.hash r.id) (dropWord (s.entryLatch (s.hash r.id))),
        if result.isSome then c.ret r result else c.goto (.fix r .loadCount))
  | .loadCount => some (s, c.afterCount s r s.pageCount)
  | .exchangeCount count =>
      if ok ∧ s.pageCount = count then
        some (s.setPageCount (u32 (count + 1)), c.goto (.fix r .writeEntry))
      else some (s, c.afterCount s r s.pageCount)
  | .writeEntry =>
      (writeWord (s.entryLatch (s.hash r.id))).map fun word =>
        (s.setEntryLatch (s.hash r.id) word, c.goto (.fix r .relookup))
  | .relookup =>
      if s.entryLatch (s.hash r.id) = 0 then some (s, c.goto .aborted)
      else match (s.entry (s.hash r.id)).lookup r.id with
        | some f => some (s, c.goto (.fix r (.pageLatch .retry f)))
        | none => some (s, c.goto (.create r .assert))
  | .subCount result =>
      some (s.setPageCount (u32 (s.pageCount - 1)), c.goto (.fix r (.writeAssert result)))
  | .writeAssert result =>
      if s.entryLatch (s.hash r.id) = -1 then some (s, c.goto (.fix r (.writeDrop result)))
      else some (s, c.goto .aborted)
  | .writeDrop result => some (s.setEntryLatch (s.hash r.id) 0, c.ret r result)

/-- The next step in `pager_create`. `ok` is false when a weak exchange fails
spuriously, or an allocation fails. -/
def createStep (ok : Bool) (r : FixCall) : CreatePoint → Option (SharedPager × Client)
  | .assert =>
      if s.entryLatch (s.hash r.id) < 0 then some (s, c.goto (.create r .index))
      else some (s, c.goto .aborted)
  | .index =>
      -- the remainder by a size of zero has no value, and the client no next step
      if s.size = 0 then none
      else some ({ s with createHead := (s.createHead + 1) % 2 ^ 32 },
        c.goto (.create r (.exchange (s.createHead % s.size))))
  | .exchange f =>
      if ok ∧ s.ringId f = 0 then some (s.setRingId f r.id, c.goto (.create r (.flags f)))
      else some (s, c.goto (.create r .index))
  | .flags f =>
      if s.allocated f = false ∧ ok = false then some (s, c.goto (.create r (.undo f)))
      else some ((s.setAllocated f).setFlags f 0, c.goto (.create r (.latch f)))
  | .latch f => some (s.setLatch f 0, c.goto (.create r (.insert f)))
  | .insert f =>
      if 0 ≤ s.entryLatch (s.hash r.id) then some (s, c.goto .aborted)
      else if (s.entry (s.hash r.id)).full ∧ ok = false then
        some (s, c.goto (.create r (.undo f)))
      else some (s.setEntry (s.hash r.id) ((s.entry (s.hash r.id)).insert ⟨r.id, f⟩),
        c.goto (.fix r (.pageLatch .create f)))
  | .undo f => some (s.setRingId f 0, c.goto (.fix r (.subCount none)))

/-- Where a client goes on after it released a hash entry in `pager_evict`. -/
def afterDrop (caller : Option FixCall) (n f : Nat) : AfterDrop → Client
  | .reload id =>
      if id = 0 then c.goto (.evict caller n .next) else c.goto (.evict caller n (.entry f id))
  | .again => c.goto (.evict caller n .next)
  | .done =>
      match caller with
      | some r => c.goto (.fix r .writeEntry)
      | none => c.goto .idle

/-- The next step in `pager_evict`. -/
def evictStep (caller : Option FixCall) (n : Nat) : EvictPoint → Option (SharedPager × Client)
  | .next =>
      match n with
      | 0 => some (s, c.goto .idle)
      | n + 1 => some ({ s with evictHead := (s.evictHead + 1) % 2 ^ 32 },
          c.goto (.evict caller n (.load (s.evictHead % s.size))))
  | .load f =>
      if s.ringId f = 0 then some (s, c.goto (.evict caller n .next))
      else some (s, c.goto (.evict caller n (.entry f (s.ringId f))))
  | .entry f id =>
      (writeWord (s.entryLatch (s.hash id))).map fun word =>
        (s.setEntryLatch (s.hash id) word, c.goto (.evict caller n (.exchange f id)))
  | .exchange f id =>
      if s.ringId f = id then some (s, c.goto (.evict caller n (.available f id)))
      else some (s, c.goto (.evict caller n (.assert f id (.reload (s.ringId f)))))
  | .available f id =>
      if s.latch f = 0 then some (s, c.goto (.evict caller n (.flags f id)))
      else some (s, c.goto (.evict caller n (.assert f id .again)))
  | .flags f id =>
      if s.flags f &&& PAGE_FLAG_REF ≠ 0 then some (s, c.goto (.evict caller n (.spend f id)))
      else some (s, c.goto (.evict caller n (.reload f id)))
  | .spend f id =>
      some (s.setFlags f (s.flags f &&& (255 - PAGE_FLAG_REF)),
        c.goto (.evict caller n (.assert f id .again)))
  | .reload f id => some (s, c.goto (.evict caller n (.remove f id (s.ringId f))))
  | .remove f id ringId =>
      if 0 ≤ s.entryLatch (s.hash id) then some (s, c.goto .aborted)
      else some (s.setEntry (s.hash id) ((s.entry (s.hash id)).remove ringId),
        c.goto (.evict caller n (.store f id)))
  | .store f id => some (s.setRingId f 0, c.goto (.evict caller n (.assert f id .done)))
  | .assert f id after =>
      if s.entryLatch (s.hash id) = -1 then some (s, c.goto (.evict caller n (.drop f id after)))
      else some (s, c.goto .aborted)
  | .drop f id after => some (s.setEntryLatch (s.hash id) 0, c.afterDrop caller n f after)

/-- The next step in `pager_unfix`. -/
def unfixStep (page : PageRef) (exclusive : Bool) : UnfixPoint → Option (SharedPager × Client)
  | .load =>
      if s.flags page.frame &&& PAGE_FLAG_EXCLUSIVE ≠ 0 then
        some (s, c.goto (.unfix page exclusive .store))
      else some (s, c.goto (.unfix page exclusive .setRef))
  | .store =>
      some (s.setFlags page.frame (PAGE_FLAG_DIRTY ||| PAGE_FLAG_REF),
        c.goto (.unfix page exclusive .writeAssert))
  | .writeAssert =>
      if s.latch page.frame = -1 then some (s, c.goto (.unfix page exclusive .write))
      else some (s, c.goto .aborted)
  | .write => some (s.setLatch page.frame 0, c.goto .idle)
  | .setRef =>
      some (s.setFlags page.frame (s.flags page.frame ||| PAGE_FLAG_REF),
        c.goto (.unfix page exclusive .readAssert))
  | .readAssert =>
      if 0 < s.latch page.frame then some (s, c.goto (.unfix page exclusive .read))
      else some (s, c.goto .aborted)
  | .read => some (s.setLatch page.frame (dropWord (s.latch page.frame)), c.goto .idle)

/-- The next step of a client in a call. -/
def step (ok : Bool) : Option (SharedPager × Client) :=
  match c.point with
  | .idle | .aborted => none
  | .fix r p => c.fixStep s ok r p
  | .create r p => c.createStep s ok r p
  | .evict caller n p => c.evictStep s caller n p
  | .unfix page exclusive p => c.unfixStep s page exclusive p

end Client

/-! ### The system -/

structure Threads (κ : Type) where
  shared : SharedPager
  client : κ → Client

inductive ThreadEvent (κ : Type) where
  | start (c : κ) (call : PagerCall)
  | step (c : κ) (ok : Bool)

variable {κ : Type} [DecidableEq κ]

/-- The system after a step of one client. -/
def Threads.set (s : Threads κ) (c : κ) (next : SharedPager × Client) : Threads κ :=
  ⟨next.1, Function.update s.client c next.2⟩

/-- One client makes one step. -/
inductive ThreadStep : Threads κ → ThreadEvent κ → Threads κ → Prop where
  | start {s : Threads κ} {c : κ} {call : PagerCall} {next : SharedPager × Client}
      (hidle : (s.client c).point = .idle) (h : (s.client c).start s.shared call = some next) :
      ThreadStep s (.start c call) (s.set c next)
  | step {s : Threads κ} {c : κ} {ok : Bool} {next : SharedPager × Client}
      (h : (s.client c).step s.shared ok = some next) : ThreadStep s (.step c ok) (s.set c next)

/-- A pager just opened, and clients that did nothing yet. -/
def Threads.init (κ : Type) (directorySize : Nat) : Threads κ where
  shared := {
    size := 7 * directorySize / 10
    mask := u32 (directorySize - 1)
    pageCount := 0
    evictHead := 0
    createHead := 0
    nextPage := 1
    entryLatch := fun _ => 0
    entry := fun _ => emptyEntry
    ringId := fun _ => 0
    allocated := fun _ => false
    latch := fun _ => 0
    flags := fun _ => 0 }
  client := fun _ => ⟨.idle, []⟩

end Wednesday
