import Wednesday.Page

/-!
The state of the process as one thread sees it: its error trace, the heap, a
pager with its frames, and a tree. The macros of `error.h`, `deffer.h` and
`util.h` are procedures over this state.
-/

namespace Wednesday

open Lib Prog

/-! ### The data of `pager.c` -/

def PAGE_FLAG_DIRTY : Nat := 1
def PAGE_FLAG_REF : Nat := 2
def PAGE_FLAG_EXCLUSIVE : Nat := 4

theorem and_exclusive (flags : Nat) : flags &&& PAGE_FLAG_EXCLUSIVE ≠ 0 ↔
    flags.testBit 2 = true := by
  rw [PAGE_FLAG_EXCLUSIVE, show (4 : Nat) = 2 ^ 2 from rfl, Nat.and_two_pow]
  cases flags.testBit 2 <;> simp

theorem exclusive_or_exclusive (flags : Nat) :
    (flags ||| PAGE_FLAG_EXCLUSIVE) &&& PAGE_FLAG_EXCLUSIVE ≠ 0 := by
  rw [and_exclusive, Nat.testBit_or]
  simp [show PAGE_FLAG_EXCLUSIVE.testBit 2 = true from rfl]

theorem exclusive_or_ref (flags : Nat) :
    (flags ||| PAGE_FLAG_REF) &&& PAGE_FLAG_EXCLUSIVE ≠ 0 ↔ flags &&& PAGE_FLAG_EXCLUSIVE ≠ 0 := by
  rw [and_exclusive, and_exclusive, Nat.testBit_or]
  simp [show PAGE_FLAG_REF.testBit 2 = false from rfl]

theorem exclusive_clear_ref (flags : Nat) :
    (flags &&& (255 - PAGE_FLAG_REF)) &&& PAGE_FLAG_EXCLUSIVE ≠ 0 ↔
      flags &&& PAGE_FLAG_EXCLUSIVE ≠ 0 := by
  rw [and_exclusive, and_exclusive, Nat.testBit_and]
  simp [show (255 - PAGE_FLAG_REF).testBit 2 = true from rfl]

/-- `header_t` of `pager.c`, with the page data behind it. -/
structure Frame where
  id : PageId
  latch : Int
  flags : Nat
  data : Mem

/-- `mapping_t`. A header is named by the ring entry it was allocated for. -/
structure Mapping where
  pageId : PageId
  header : Nat

/-- `hash_entry_t`; the overflow buckets are a list. -/
structure HashEntry where
  first : Mapping
  second : Mapping
  overflow : List Mapping

/-- `ring_entry_t`. The header is meaningful once it is allocated. -/
structure RingEntry where
  pageId : PageId
  allocated : Bool
  header : Frame

/-- `pager_t`. -/
structure Pager where
  pageSize : Nat
  size : Nat
  mask : Nat
  pageCount : Nat
  evictHead : Nat
  createHead : Nat
  nextPage : PageId
  directory : Nat → HashEntry
  ring : Nat → RingEntry

/-- `page_t`: the data pointer is given by the frame it points into. -/
structure PageRef where
  id : PageId
  frame : Nat
  deriving DecidableEq, Repr

/-- `btree_t`, less its pager. -/
structure BTree where
  root : PageId
  pageSize : Nat

/-! ### The process -/

/-- What `malloc` does: whether its `n`-th call is refused, what uninitialised
memory holds, and the objects freed so far. An object is named by the call that
returned it. -/
structure Heap where
  refuse : Nat → Bool
  garbage : Nat → Mem
  mallocs : Nat
  freed : List Nat

/-- The heap after one more call of `malloc`. -/
def Heap.count (heap : Heap) : Heap := { heap with mallocs := heap.mallocs + 1 }

/-- How many `errdefer` cleanups were registered, and how many of them ran. -/
structure Cleanups where
  registered : Nat
  ran : Nat

/-- `stack` is what uninitialised buffers on the stack hold. `outage` says
which of the pager calls made by the tree are refused, `pagerCalls` how many
were made. -/
structure Sys where
  err : ErrorState
  heap : Heap
  stack : Mem
  pager : Pager
  outage : Nat → Bool
  pagerCalls : Nat
  tree : BTree
  cleanups : Cleanups

abbrev Call (α : Type) : Type := Prog Fault Sys α

section Macros

variable {α : Type}

/-- `failure`. -/
def failure (site : Site) (code : Int) (texts : List String) : Call α := do
  let s ← get
  let e ← ofExcept (reportFailure s.err site code texts)
  modify fun s => { s with err := e }
  fail

/-- `ensure`. -/
def ensure (c : Prop) [Decidable c] (site : Site) (text : String) : Call Unit :=
  if c then pure () else failure site EINVAL ["ensure" ++ text]

/-- `try`. -/
def tryCall (site : Site) (text : String) (call : Call α) : Call α :=
  recover call do
    let s ← get
    failure site (errorGetCode s.err) ["try " ++ text]

/-- `handle` with a body that ends in `forward`. -/
def handleForward (site : Site) (text : String) (call : Call α) (body : Call Unit) : Call α :=
  recover call do
    body
    let s ← get
    failure site (errorGetCode s.err) ["handler for: " ++ text]

def malloc : Call (Option Nat) := do
  let s ← get
  modify fun s => { s with heap := s.heap.count }
  pure (if s.heap.refuse s.heap.mallocs then none else some s.heap.mallocs)

def free (ptr : Nat) : Call Unit :=
  modify fun s => { s with heap := { s.heap with freed := ptr :: s.heap.freed } }

/-- `try_alloc`: the object, or a report of `ENOMEM` with its size. -/
def tryAlloc (site : Site) (ptr size : String) (bytes : Nat) : Call Nat := do
  match ← malloc with
  | none =>
      failure site ENOMEM ["no memory for: " ++ ptr, ", '" ++ size ++ "' = " ++ toString bytes]
  | some object => pure object

/-- `defer_guard` for a cleanup registered by `errdefer`. -/
def deferGuard (cleanup : Call Unit) : Call Unit := do
  let s ← get
  if errorGetCode s.err = 0 then pure ()
  else do
    modify fun s => { s with cleanups := { s.cleanups with ran := s.cleanups.ran + 1 } }
    cleanup

def registerCleanup : Call Unit :=
  modify fun s =>
    { s with cleanups := { s.cleanups with registered := s.cleanups.registered + 1 } }

/-- `errdefer` for the rest of a function. -/
def errdefer (cleanup : Call Unit) (body : Call α) : Call α := do
  registerCleanup
  deferred (deferGuard cleanup) body

/-- `errdefer` on a local variable that the rest of the function may assign. -/
def errdeferVar {ν : Type} (init : ν) (cleanup : ν → Call Unit)
    (body : Prog Fault (Sys × ν) α) : Call α := do
  registerCleanup
  withVar init (fun v => deferGuard (cleanup v)) body

end Macros

end Wednesday
