import Wednesday.Lib.Machine
import Wednesday.PagerMaps
import Wednesday.PagerThreads

/-!
One client of the pager, left alone. Its steps follow `pager_fix`, `pager_next` and
`pager_unfix` as one thread at a time makes them, so every state a single thread reaches is
one the clients reach.
-/

namespace Wednesday

open Lib Prog SharedPager Pager

/-- What clients share of a pager that no client is in a call of. -/
def Pager.share (p : Pager) : SharedPager where
  size := p.size
  mask := p.mask
  pageCount := p.pageCount
  evictHead := p.evictHead
  createHead := p.createHead
  nextPage := p.nextPage
  entryLatch _ := 0
  entry := p.directory
  ringId f := (p.ring f).pageId
  allocated f := (p.ring f).allocated
  latch f := (p.header f).latch
  flags f := (p.header f).flags

/-- A client left alone, with the heap its allocations are made from. -/
structure Solo where
  shared : SharedPager
  client : Client
  heap : Heap

namespace Solo

/-- The next step allocates memory. -/
def allocates (x : Solo) : Bool :=
  match x.client.point with
  | .create _ (.flags f) => !x.shared.allocated f
  | .create r (.insert _) => decide (x.shared.entry (x.shared.hash r.id)).full
  | _ => false

/-- No exchange fails spuriously, and memory is refused as the heap says. -/
def ok (x : Solo) : Bool := !(x.allocates && x.heap.refuse x.heap.mallocs)

def next (x : Solo) : Advance Solo Unit :=
  match x.client.step x.shared x.ok with
  | some (s, c) => .goes ⟨s, c, if x.allocates then x.heap.count else x.heap⟩
  | none => .stuck

/-- The client is where the process is, with this word in the latch of a hash entry. -/
def beside (h : Nat) (word : Int) (c : Client) (s : Sys) : Solo :=
  ⟨s.pager.share.setEntryLatch h word, c, s.heap⟩

/-- The client is where the process is, and nobody is in a hash entry. -/
def settled (c : Client) (s : Sys) : Solo := ⟨s.pager.share, c, s.heap⟩

end Solo

open Solo

/-! ### What is shared -/

/-- No slot of the bucket list is free. -/
theorem fillBucket_eq_none {m : Mapping} {buckets : List Mapping} :
    HashEntry.fillBucket m buckets = none ↔ ∀ bucket ∈ buckets, bucket.pageId ≠ 0 := by
  induction buckets with
  | nil => simp [HashEntry.fillBucket]
  | cons bucket buckets ih =>
      simp only [HashEntry.fillBucket, List.forall_mem_cons]
      split
      · rename_i hfree
        simp [hfree]
      · rename_i hused
        rw [Option.map_eq_none_iff, ih]
        exact ⟨fun h => ⟨hused, h⟩, And.right⟩

section

variable (p : Pager) (f h : Nat) (id : PageId) (header : Frame) (entry : HashEntry)

theorem share_setHeader :
    (p.setHeader f header).share = (p.share.setLatch f header.latch).setFlags f header.flags := by
  simp only [Pager.share, setLatch, setFlags, Pager.setHeader, Pager.setRing, Pager.header,
    SharedPager.mk.injEq, true_and]
  refine ⟨?_, ?_, ?_, ?_⟩ <;> funext g <;> by_cases hg : g = f <;> simp [hg]

theorem share_setEntry : (p.setEntry h entry).share = p.share.setEntry h entry := rfl

theorem share_setRingId : (p.setRingId f id).share = p.share.setRingId f id := by
  simp only [Pager.share, SharedPager.setRingId, Pager.setRingId, Pager.setRing, Pager.header,
    SharedPager.mk.injEq, true_and]
  refine ⟨?_, ?_, ?_, ?_⟩ <;> funext g <;> by_cases hg : g = f <;> simp [hg]

theorem share_allocate (data : Mem) :
    (p.setRing f { p.ring f with allocated := true, header := ⟨0, 0, 0, data⟩ }).share =
    ((p.share.setAllocated f).setLatch f 0).setFlags f 0 := by
  simp only [Pager.share, SharedPager.setAllocated, setLatch, setFlags, Pager.setRing, Pager.header,
    SharedPager.mk.injEq, true_and]
  refine ⟨?_, ?_, ?_, ?_⟩ <;> funext g <;> by_cases hg : g = f <;> simp [hg]

theorem setEntryLatch_share : p.share.setEntryLatch h 0 = p.share := by
  simp [setEntryLatch, Pager.share]

theorem setFlags_self (s : SharedPager) : s.setFlags f (s.flags f) = s := by
  simp [setFlags]

theorem setEntryLatch_setEntryLatch (s : SharedPager) (v w : Int) :
    (s.setEntryLatch h v).setEntryLatch h w = s.setEntryLatch h w := by
  simp [setEntryLatch]

@[simp] theorem entryLatch_setEntryLatch (s : SharedPager) (w : Int) :
  (s.setEntryLatch h w).entryLatch h = w := by
  simp [setEntryLatch]

end

section

variable {r : FixCall} {c : Client} {s t : Sys} {x y : Solo} {h f n : Nat} {word : Int}
  {heap : Heap} {shared : SharedPager}

/-! ### Fixing a page that is there -/

/-- A report changes the error only. -/
theorem matches_report {α : Type} {site : Site} {code : Int} {texts : List String}
    {Q : α → Sys → Solo → Prop}
    {E : Sys → Solo → Prop} (hE : ∀ e, E { s with err := e } x) :
    Matches Solo.next 0 ((failure site code texts : Call α) s) x Q E := by
  cases hreport : reportFailure s.err site code texts with
  | error r =>
      rw [show (failure site code texts : Call α) s = .fault r by simp [failure, hreport]]
      exact matches_unreturned
  | ok e =>
      rw [show (failure site code texts : Call α) s =
        .failure { s with err := e } by simp [failure, hreport]]
      exact ⟨0, x, .here x, hE e⟩

/-- The frame a `try` adds changes the error only. -/
theorem matches_tried {α : Type} {site : Site} {text : String} {m : Call α}
    {Q : α → Sys → Solo → Prop}
    {E : Sys → Solo → Prop} (hE : ∀ e t y, E t y → E { t with err := e } y)
    (h : Matches Solo.next 0 (m s) x Q E) :
    Matches Solo.next 0 (tryCall site text m s) x Q E :=
  matches_recover h fun t y ht => matches_report fun e => hE e t y ht

/-- The handler of a call that has failed comes before the report. -/
theorem matches_handled {α : Type} {site : Site} {text : String} {m : Call α} {body : Call Unit}
    {Q : α → Sys → Solo → Prop}
    {E E' : Sys → Solo → Prop} (hE : ∀ e t y, E t y → E { t with err := e } y)
    (h : Matches Solo.next 0 (m s) x Q E')
    (hbody : ∀ t y, E' t y → Matches Solo.next 0 (body t) y (fun _ => E) E) :
    Matches Solo.next 0 (handleForward site text m body s) x Q E := by
  refine matches_recover h fun t y ht => ?_
  exact matches_bind (hbody t y ht) fun _ u z hu => matches_report fun e => hE e u z hu

theorem next_step {ok : Bool} (hok : x.ok = ok)
    (hstep : x.client.step x.shared ok = some (shared, c)) :
    x.next = .goes ⟨shared, c, if x.allocates then x.heap.count else x.heap⟩ := by
  rw [Solo.next, hok, hstep]

/-- A step that allocates no memory. -/
theorem next_goes (hno : x.allocates = false)
    (hstep : x.client.step x.shared true = some (shared, c)) :
    x.next = .goes ⟨shared, c, x.heap⟩ := by
  have hok : x.ok = true := by simp [Solo.ok, hno]
  rw [next_step hok hstep, hno]
  rfl

/-- The latch of a page is taken, and its flag set. -/
theorem matches_latchPage (path : Path) {E : Sys → Solo → Prop} :
    Matches Solo.next 0 (latchPage f r.exclusive s)
      (beside h word (c.goto (.fix r (.pageLatch path f))) s)
      (fun _ t x => t.pager.mask = s.pager.mask ∧
        x = beside h word (c.afterLatch path r f) t) E := by
  rw [latchPage_apply]
  split
  · rename_i hcan
    cases hexclusive : r.exclusive with
    | true =>
        rw [hexclusive] at hcan
        have hfree : (s.pager.header f).latch = 0 := hcan
        -- the flag is set in a step of its own
        refine ⟨2, _, .step (t := ⟨(s.pager.share.setEntryLatch h word).setLatch f (-1),
          c.goto (.fix r (.pageFlag path f)), s.heap⟩) ?_ (.one rfl), rfl, ?_⟩
        · simp [Solo.next, beside, Client.step, Client.goto, Client.fixStep, hexclusive,
            acquireWord, writeWord, hfree,
            Solo.allocates, setEntryLatch, Pager.share]
        · simp only [beside, share_setHeader]
          rfl
    | false =>
        rw [hexclusive] at hcan
        have hfree : 0 ≤ (s.pager.header f).latch := hcan
        refine ⟨1, _, .one (t := ⟨(s.pager.share.setEntryLatch h word).setLatch f
          (Int.bmod ((s.pager.header f).latch + 1) (2 ^ 32)), c.afterLatch path r f, s.heap⟩) ?_,
            rfl, ?_⟩
        · simp [Solo.next, beside, Client.step, Client.goto, Client.fixStep, hexclusive,
            acquireWord, readWord, hfree,
            Solo.allocates, setEntryLatch, Pager.share]
          cases path <;> rfl
        · have hflags := setFlags_self f
              (s.pager.share.setLatch f (Int.bmod ((s.pager.header f).latch + 1) (2 ^ 32)))
          simp only [beside, share_setHeader, Pager.latched, Bool.false_eq_true, if_false]
          rw [show (s.pager.header f).flags =
            (s.pager.share.setLatch f (Int.bmod ((s.pager.header f).latch + 1) (2 ^ 32))).flags f
              from rfl, hflags]
          rfl
  · exact matches_unreturned

/-- `pager_lookup` at a point that takes this path. -/
theorem matches_pagerLookup (p : FixPoint) (path : Path) (missing : Point) {E : Sys → Solo → Prop}
    (hp : ∀ shared, (c.goto (.fix r p)).fixStep shared true r p =
      if shared.entryLatch (shared.hash r.id) = 0 then some (shared, c.goto .aborted)
      else match (shared.entry (shared.hash r.id)).lookup r.id with
        | some f => some (shared, c.goto (.fix r (.pageLatch path f)))
        | none => some (shared, c.goto missing))
    (hword : word ≠ 0) (hh : pagerHash s.pager.mask r.id = h) :
    Matches Solo.next 0 (pagerLookup h r.id r.exclusive s) (beside h word (c.goto (.fix r p)) s)
      (fun page t x => t.pager.mask = s.pager.mask ∧ match page with
        | some page => page.id = r.id ∧ x = beside h word (c.afterLatch path r page.frame) t
        | none => t = s ∧ x = beside h word (c.goto missing) s) E := by
  have hnext : Solo.next (beside h word (c.goto (.fix r p)) s) =
      match (s.pager.directory h).lookup r.id with
      | some f => .goes (beside h word (c.goto (.fix r (.pageLatch path f))) s)
      | none => .goes (beside h word (c.goto missing) s) := by
    have hlatched : (s.pager.share.setEntryLatch h word).entryLatch h ≠ 0 := by
      rwa [entryLatch_setEntryLatch]
    have hstep := hp (s.pager.share.setEntryLatch h word)
    rw [show (s.pager.share.setEntryLatch h word).hash r.id = h from hh, if_neg hlatched] at hstep
    cases hfound : (s.pager.directory h).lookup r.id with
    | none =>
        rw [show ((s.pager.share.setEntryLatch h word).entry h).lookup r.id = none
          from hfound] at hstep
        exact next_goes rfl hstep
    | some f =>
        rw [show ((s.pager.share.setEntryLatch h word).entry h).lookup r.id = some f
          from hfound] at hstep
        exact next_goes rfl hstep
  rw [pagerLookup, getPager, bind_apply, bind_apply, get_apply, Outcome.bind_success, pure_apply,
    Outcome.bind_success]
  cases hfound : (s.pager.directory h).lookup r.id with
  | none =>
      rw [hfound] at hnext
      exact ⟨1, _, .one hnext, rfl, rfl, rfl⟩
  | some f =>
      rw [hfound] at hnext
      refine Matches.resume (matches_bind (matches_latchPage path (f := f)) fun _ t x ht => ?_)
        (.one hnext)
      obtain ⟨hmask, rfl⟩ := ht
      exact ⟨0, _, .here _, hmask, rfl, rfl⟩

/-- A step to where the process is next. -/
theorem next_to {p : Point} {c' : Client} {word' : Int} {u : Sys}
    (hno : (beside h word (c.goto p) s).allocates = false)
    (hheap : u.heap = s.heap) (hstep : (c.goto p).step (s.pager.share.setEntryLatch h word) true =
      some (u.pager.share.setEntryLatch h word', c')) :
    Solo.next (beside h word (c.goto p) s) = .goes (beside h word' c' u) := by
  rw [next_goes hno hstep, beside, beside, hheap]

theorem hash_beside (hh : pagerHash s.pager.mask r.id = h) :
    (s.pager.share.setEntryLatch h word).hash r.id = h := hh

/-- A step that changes the latch of the hash entry only. -/
theorem next_latch {p : FixPoint} {c' : Client} {word' : Int}
    (hstep : (c.goto (.fix r p)).fixStep (s.pager.share.setEntryLatch h word) true r p =
      some ((s.pager.share.setEntryLatch h word).setEntryLatch h word', c')) :
    Solo.next (beside h word (c.goto (.fix r p)) s) = .goes (beside h word' c' s) := by
  rw [setEntryLatch_setEntryLatch] at hstep
  exact next_goes rfl hstep

/-- The hash entry is let go by a reader, and the call returns or counts the pages. -/
theorem goes_readDrop (hh : pagerHash s.pager.mask r.id = h) (result : Option Nat) :
    Goes Solo.next 2 (beside h 1 (c.goto (.fix r (.readAssert result))) s)
      (beside h 0 (if result.isSome then c.ret r result else c.goto (.fix r .loadCount)) s) := by
  refine .step (t := beside h 1 (c.goto (.fix r (.readDrop result))) s) (next_goes rfl ?_)
    (.one (next_latch ?_))
  · simp only [Client.step, Client.goto, beside, Client.fixStep, hash_beside hh,
      entryLatch_setEntryLatch]
    rfl
  · simp only [Client.fixStep, hash_beside hh, entryLatch_setEntryLatch]
    rfl

/-- The lookup under the read latch of the hash entry. -/
theorem matches_readLookup (hh : pagerHash s.pager.mask r.id = h) {E : Sys → Solo → Prop} :
    Matches Solo.next 0 (pagerLookup h r.id r.exclusive s)
      (beside h 0 (c.goto (.fix r .readEntry)) s)
      (fun page t x => t.pager.mask = s.pager.mask ∧ match page with
        | some page => page.id = r.id ∧ x = beside h 0 (c.ret r (some page.frame)) t
        | none => t = s ∧ x = beside h 0 (c.goto (.fix r .loadCount)) s) E := by
  have hread : Solo.next (beside h 0 (c.goto (.fix r .readEntry)) s) =
      .goes (beside h 1 (c.goto (.fix r .lookup)) s) := by
    refine next_latch ?_
    simp only [Client.fixStep, hash_beside hh, entryLatch_setEntryLatch]
    rfl
  have hlookup : Matches Solo.next 0 (pagerLookup h r.id r.exclusive s)
      (beside h 1 (c.goto (.fix r .lookup)) s) _ E :=
    matches_pagerLookup .lookup .lookup (.fix r (.readAssert none)) (fun shared => by rfl)
      (by decide) hh
  refine (hlookup.resume (.one hread)).goesOn (fun page t x ht => ?_)
    fun t x ht => ⟨0, x, .here x, ht⟩
  obtain ⟨hmask, ht⟩ := ht
  have hh' : pagerHash t.pager.mask r.id = h := hmask ▸ hh
  cases page with
  | some page =>
      obtain ⟨hid, rfl⟩ := ht
      exact ⟨2, _, goes_readDrop hh' (some page.frame), hmask, hid, rfl⟩
  | none =>
      obtain ⟨rfl, rfl⟩ := ht
      exact ⟨2, _, goes_readDrop hh none, rfl, rfl, rfl⟩

/-! ### Evictions -/

/-- Where a client goes on after it has evicted a page. -/
def afterEvict (c : Client) : Option FixCall → Client
  | some r => c.goto (.fix r .writeEntry)
  | none => c.goto .idle

theorem beside_free (h k : Nat) : beside h 0 c s = beside k 0 c s := by
  rw [beside, beside, setEntryLatch_share, setEntryLatch_share]

variable {caller : Option FixCall} {id : PageId}

/-- A step of an eviction that leaves the pager as it is. -/
theorem next_evict {p : EvictPoint} {c' : Client}
    (hstep : (c.goto (.evict caller n p)).evictStep
      (s.pager.share.setEntryLatch h word) caller n p =
      some (s.pager.share.setEntryLatch h word, c')) :
    Solo.next (beside h word (c.goto (.evict caller n p)) s) = .goes (beside h word c' s) :=
      next_goes rfl hstep

/-- The hash entry of a page that is not evicted, or no longer there, is let go. -/
theorem goes_evictDrop (hh : pagerHash s.pager.mask id = h) (after : AfterDrop) :
    Goes Solo.next 2 (beside h (-1) (c.goto (.evict caller n (.assert f id after))) s)
      (beside h 0 (c.afterDrop caller n f after) s) := by
  have hhash : (s.pager.share.setEntryLatch h (-1)).hash id = h := hh
  refine .step (t := beside h (-1) (c.goto (.evict caller n (.drop f id after))) s) (next_evict ?_)
    (.one ?_)
  · simp only [Client.evictStep, hhash, entryLatch_setEntryLatch]
    rfl
  · have hstep : (c.goto (.evict caller n (.drop f id after))).evictStep
        (s.pager.share.setEntryLatch h (-1)) caller n
        (.drop f id after) =
          some ((s.pager.share.setEntryLatch h (-1)).setEntryLatch h 0,
            c.afterDrop caller n f after) := by
      simp only [Client.evictStep, hhash]
      rfl
    rw [setEntryLatch_setEntryLatch] at hstep
    exact next_goes rfl hstep

/-- The hash entry of the page in a ring entry is taken, and the page is there still. -/
theorem goes_evictEntry (hid : (s.pager.ring f).pageId = id) (hzero : id ≠ 0)
    (hh : pagerHash s.pager.mask id = h) :
    Goes Solo.next 3 (beside h 0 (c.goto (.evict caller n (.load f))) s)
      (beside h (-1) (c.goto (.evict caller n (.available f id))) s) := by
  have hhash (word : Int) : (s.pager.share.setEntryLatch h word).hash id = h := hh
  have hring (word : Int) : (s.pager.share.setEntryLatch h word).ringId f = id := hid
  refine .step (t := beside h 0 (c.goto (.evict caller n (.entry f id))) s) (next_evict ?_)
    (.step (t := beside h (-1) (c.goto (.evict caller n (.exchange f id))) s) ?_
      (.one (next_evict ?_)))
  · simp only [Client.evictStep, hring, if_neg hzero]
    rfl
  · have hstep : (c.goto (.evict caller n (.entry f id))).evictStep
        (s.pager.share.setEntryLatch h 0) caller n
        (.entry f id) = some ((s.pager.share.setEntryLatch h 0).setEntryLatch h (-1),
          c.goto (.evict caller n (.exchange f id))) := by
      simp only [Client.evictStep, hhash, entryLatch_setEntryLatch]
      rfl
    rw [setEntryLatch_setEntryLatch] at hstep
    exact next_goes rfl hstep
  · simp only [Client.evictStep, hring, if_true]
    rfl

/-- A page that is held is passed over. -/
theorem goes_evictHeld (hid : (s.pager.ring f).pageId = id) (hzero : id ≠ 0)
    (hlatch : (s.pager.header f).latch ≠ 0) :
    Goes Solo.next 6 (beside h 0 (c.goto (.evict caller n (.load f))) s)
      (beside h 0 (c.goto (.evict caller n .next)) s) := by
  obtain ⟨k, hk⟩ : ∃ k, pagerHash s.pager.mask id = k := ⟨_, rfl⟩
  rw [beside_free h k, beside_free h k]
  have hword : (s.pager.share.setEntryLatch k (-1)).latch f ≠ 0 := hlatch
  have hagain : Solo.next (beside k (-1) (c.goto (.evict caller n (.available f id))) s) =
      .goes (beside k (-1) (c.goto (.evict caller n (.assert f id .again))) s) := by
    refine next_evict ?_
    simp only [Client.evictStep, if_neg hword]
    rfl
  exact (goes_evictEntry hid hzero hk).trans (.step hagain (goes_evictDrop hk .again))

/-- The flags of a page nobody holds are looked at. -/
theorem goes_evictFlags (hid : (s.pager.ring f).pageId = id) (hzero : id ≠ 0)
    (hlatch : (s.pager.header f).latch = 0) (hh : pagerHash s.pager.mask id = h) :
    Goes Solo.next 4 (beside h 0 (c.goto (.evict caller n (.load f))) s)
      (beside h (-1) (c.goto (.evict caller n (.flags f id))) s) := by
  have hword : (s.pager.share.setEntryLatch h (-1)).latch f = 0 := hlatch
  have hflags : Solo.next (beside h (-1) (c.goto (.evict caller n (.available f id))) s) =
      .goes (beside h (-1) (c.goto (.evict caller n (.flags f id))) s) := by
    refine next_evict ?_
    simp only [Client.evictStep, if_pos hword]
    rfl
  exact (goes_evictEntry hid hzero hh).trans (.one hflags)

/-- The second chance of a page is taken. -/
theorem goes_evictSpent {u : Sys} (hid : (s.pager.ring f).pageId = id) (hzero : id ≠ 0)
    (hlatch : (s.pager.header f).latch = 0)
    (hflags : (s.pager.header f).flags &&& PAGE_FLAG_REF ≠ 0)
    (hu : u.pager = s.pager.setHeader f
      { s.pager.header f with flags := (s.pager.header f).flags &&& (255 - PAGE_FLAG_REF) })
    (hheap : u.heap = s.heap) :
    Goes Solo.next 8 (beside h 0 (c.goto (.evict caller n (.load f))) s)
      (beside h 0 (c.goto (.evict caller n .next)) u) := by
  obtain ⟨k, hk⟩ : ∃ k, pagerHash s.pager.mask id = k := ⟨_, rfl⟩
  rw [beside_free h k, beside_free h k]
  have hused : (s.pager.share.setEntryLatch k (-1)).flags f &&& PAGE_FLAG_REF ≠ 0 := hflags
  have hspend : Solo.next (beside k (-1) (c.goto (.evict caller n (.flags f id))) s) =
      .goes (beside k (-1) (c.goto (.evict caller n (.spend f id))) s) := by
    refine next_evict ?_
    simp only [Client.evictStep, if_pos hused]
    rfl
  have hagain : Solo.next (beside k (-1) (c.goto (.evict caller n (.spend f id))) s) =
      .goes (beside k (-1) (c.goto (.evict caller n (.assert f id .again))) u) := by
    have hlatch' : s.pager.share.setLatch f (s.pager.header f).latch = s.pager.share := by
      simp [setLatch, Pager.share]
    refine next_to rfl hheap ?_
    rw [hu, share_setHeader, hlatch']
    rfl
  have hdrop : Goes Solo.next 2 (beside k (-1) (c.goto (.evict caller n (.assert f id .again))) u)
      (beside k 0 (c.afterDrop caller n f .again) u) := goes_evictDrop (by rwa [hu]) .again
  exact (goes_evictFlags hid hzero hlatch hk).trans (.step hspend (.step hagain hdrop))

/-- A page nobody holds, and that was not used since, is evicted. -/
theorem goes_evictPage {u : Sys} (hid : (s.pager.ring f).pageId = id) (hzero : id ≠ 0)
    (hlatch : (s.pager.header f).latch = 0)
    (hflags : (s.pager.header f).flags &&& PAGE_FLAG_REF = 0)
    (hu : u.pager = (s.pager.setEntry (pagerHash s.pager.mask id)
      ((s.pager.directory (pagerHash s.pager.mask id)).remove id)).setRingId f 0)
    (hheap : u.heap = s.heap) :
    Goes Solo.next 10 (beside h 0 (c.goto (.evict caller n (.load f))) s)
      (beside h 0 (afterEvict c caller) u) := by
  obtain ⟨k, hk⟩ : ∃ k, pagerHash s.pager.mask id = k := ⟨_, rfl⟩
  rw [hk] at hu
  rw [beside_free h k, beside_free h k]
  have hhash : (s.pager.share.setEntryLatch k (-1)).hash id = k := hk
  have hunused : ¬ (s.pager.share.setEntryLatch k (-1)).flags f &&& PAGE_FLAG_REF ≠ 0 :=
    not_not.mpr hflags
  have hring : (s.pager.share.setEntryLatch k (-1)).ringId f = id := hid
  let removed : Sys := { s with pager := s.pager.setEntry k ((s.pager.directory k).remove id) }
  have hreload : Solo.next (beside k (-1) (c.goto (.evict caller n (.flags f id))) s) =
      .goes (beside k (-1) (c.goto (.evict caller n (.reload f id))) s) := by
    refine next_evict ?_
    simp only [Client.evictStep, if_neg hunused]
    rfl
  have hremove : Solo.next (beside k (-1) (c.goto (.evict caller n (.reload f id))) s) =
      .goes (beside k (-1) (c.goto (.evict caller n (.remove f id id))) s) := by
    refine next_evict ?_
    simp only [Client.evictStep, hring]
    rfl
  have hstore : Solo.next (beside k (-1) (c.goto (.evict caller n (.remove f id id))) s) =
      .goes (beside k (-1) (c.goto (.evict caller n (.store f id))) removed) := by
    refine next_to rfl rfl ?_
    simp only [Client.step, Client.goto, Client.evictStep, hhash, entryLatch_setEntryLatch]
    rfl
  have hassert : Solo.next (beside k (-1) (c.goto (.evict caller n (.store f id))) removed) =
      .goes (beside k (-1) (c.goto (.evict caller n (.assert f id .done))) u) := by
    refine next_to rfl hheap ?_
    rw [hu, share_setRingId]
    rfl
  have hdrop : Goes Solo.next 2 (beside k (-1) (c.goto (.evict caller n (.assert f id .done))) u)
      (beside k 0 (c.afterDrop caller n f .done) u) := goes_evictDrop (by rwa [hu]) .done
  exact (goes_evictFlags hid hzero hlatch hk).trans
    (.step hreload (.step hremove (.step hstore (.step hassert hdrop))))

/-- The loop of `pager_evict`. -/
theorem matches_evictLoop : Matches Solo.next 0 (pagerEvictLoop n s)
    (beside h 0 (c.goto (.evict caller n .next)) s)
    (fun _ t x => t.pager.mask = s.pager.mask ∧ x = beside h 0 (afterEvict c caller) t)
    (fun t x => t.pager.mask = s.pager.mask ∧ x = beside h 0 (c.goto .idle) t) := by
  -- on the ring entries still to look at; the loop of the process counts them as the client does
  induction n generalizing s with
  | zero =>
      obtain ⟨e, hrun, -⟩ := failure_apply (α := Unit) ⟨"src/pager.c", "pager_evict", 343⟩
        (show ENOMEM ≠ 0 by decide) ["no pages to evict"] s
      rw [pagerEvictLoop, hrun]
      exact ⟨1, _, .one (next_goes rfl rfl), rfl, rfl⟩
  | succ n ih =>
      have hnext : Solo.next (beside h 0 (c.goto (.evict caller (n + 1) .next)) s) =
          .goes (beside h 0 (c.goto (.evict caller n (.load (s.pager.evictHead % s.pager.size))))
            { s with pager := { s.pager with evictHead := (s.pager.evictHead + 1) % 2 ^ 32 } }) :=
        next_goes rfl rfl
      simp only [pagerEvictLoop, nextEvictIndex, getPager, modifyPager, bind_apply, get_apply,
        modify_apply, pure_apply,
        Outcome.bind_success]
      refine Matches.resume ?_ (.one hnext)
      generalize s.pager.evictHead % s.pager.size = f
      generalize hu : ({ s with
        pager := { s.pager with evictHead := (s.pager.evictHead + 1) % 2 ^ 32 } } : Sys) = u
      obtain ⟨hmask, hring, hdirectory⟩ : u.pager.mask = s.pager.mask ∧
          u.pager.ring = s.pager.ring ∧
          u.pager.directory = s.pager.directory := by
        rw [← hu]
        exact ⟨rfl, rfl, rfl⟩
      rw [← hmask, ← hring]
      split
      · rename_i hzero
        refine ih.resume (.one (next_evict ?_))
        have hring : (u.pager.share.setEntryLatch h 0).ringId f = 0 := hzero
        simp only [Client.evictStep, if_pos hring]
        rfl
      · rename_i hzero
        split
        · rename_i hlatch
          exact ih.resume (goes_evictHeld rfl hzero hlatch)
        · rename_i hlatch
          split
          · rename_i hflags
            exact ih.resume (goes_evictSpent rfl hzero (not_not.mp hlatch) hflags rfl rfl)
          · rename_i hflags
            refine ⟨10, _, ?_, rfl, rfl⟩
            exact goes_evictPage rfl hzero (not_not.mp hlatch) (not_not.mp hflags) rfl rfl

/-- `pager_evict` in `pager_fix`, or the page is counted. -/
theorem matches_ensureCapacity : Matches Solo.next 0 (ensureCapacity s)
    (beside h 0 (c.goto (.fix r .loadCount)) s)
    (fun _ t x => t.pager.mask = s.pager.mask ∧ x = beside h 0 (c.goto (.fix r .writeEntry)) t)
    (fun t x => t.pager.mask = s.pager.mask ∧ x = beside h 0 (c.goto .idle) t) := by
  have hcount : Solo.next (beside h 0 (c.goto (.fix r .loadCount)) s) =
      .goes (beside h 0 (c.afterCount s.pager.share r s.pager.pageCount) s) := next_to rfl rfl rfl
  rw [ensureCapacity, getPager, bind_apply, bind_apply, get_apply, Outcome.bind_success, pure_apply,
    Outcome.bind_success]
  split
  · rename_i hfull
    have hpoint : c.afterCount s.pager.share r s.pager.pageCount =
        c.goto (.evict (some r) (2 * s.pager.size % 2 ^ 32) .next) :=
      if_pos hfull
    rw [hpoint] at hcount
    refine (matches_tried (fun e t x ht => ?_) ?_).resume (.one hcount)
    · obtain ⟨hmask, rfl⟩ := ht
      exact ⟨hmask, rfl⟩
    · exact matches_evictLoop
  · rename_i hroom
    have hpoint : c.afterCount s.pager.share r s.pager.pageCount =
        c.goto (.fix r (.exchangeCount s.pager.pageCount)) :=
      if_neg hroom
    rw [hpoint] at hcount
    have hadd : Solo.next (beside h 0 (c.goto (.fix r (.exchangeCount s.pager.pageCount))) s) =
        .goes (beside h 0 (c.goto (.fix r .writeEntry))
          { s with pager := { s.pager with pageCount := u32 (s.pager.pageCount + 1) } }) := by
      refine next_to rfl rfl ?_
      have hsame : (s.pager.share.setEntryLatch h 0).pageCount = s.pager.pageCount := rfl
      simp only [Client.step, Client.goto, Client.fixStep, hsame, and_self, if_true]
      rfl
    exact ⟨2, _, .step hcount (.one hadd), rfl, rfl⟩

/-! ### Fixing a page that is not there -/

/-- The hash entry is let go by a writer, and the call returns. -/
theorem goes_writeDrop (hh : pagerHash s.pager.mask r.id = h) (result : Option Nat) :
    Goes Solo.next 2 (beside h (-1) (c.goto (.fix r (.writeAssert result))) s)
      (beside h 0 (c.ret r result) s) := by
  refine .step (t := beside h (-1) (c.goto (.fix r (.writeDrop result))) s) (next_to rfl rfl ?_)
    (.one (next_latch ?_))
  · simp only [Client.step, Client.goto, Client.fixStep, hash_beside hh, entryLatch_setEntryLatch]
    rfl
  · simp only [Client.fixStep, hash_beside hh]
    rfl

/-- A page that was counted is not. -/
theorem matches_subPageCount (hh : pagerHash s.pager.mask r.id = h) (result : Option Nat)
    {E : Sys → Solo → Prop} :
    Matches Solo.next 0 (subPageCount s) (beside h (-1) (c.goto (.fix r (.subCount result))) s)
      (fun _ t x => t.pager.mask = s.pager.mask ∧ x = beside h 0 (c.ret r result) t) E := by
  rw [subPageCount, modifyPager, modify_apply]
  generalize hu : ({ s with
    pager := { s.pager with pageCount := u32 (s.pager.pageCount - 1) } } : Sys) = u
  have hsub : Solo.next (beside h (-1) (c.goto (.fix r (.subCount result))) s) =
      .goes (beside h (-1) (c.goto (.fix r (.writeAssert result))) u) := by
    rw [← hu]
    exact next_to rfl rfl rfl
  have hmask : u.pager.mask = s.pager.mask := by rw [← hu]
  exact ⟨3, _, .step hsub (goes_writeDrop (hmask ▸ hh) result), hmask, rfl⟩

/-- The loop of `pager_create` up to its exchange. -/
theorem matches_acquireRingEntry {E : Sys → Solo → Prop} :
    Matches Solo.next 0 (acquireRingEntry r.id n s) (beside h (-1) (c.goto (.create r .index)) s)
      (fun f t x => t.pager.mask = s.pager.mask ∧
        x = beside h (-1) (c.goto (.create r (.flags f))) t) E := by
  -- alone, a client finds a ring entry taken only where the process does
  induction n generalizing s with
  | zero => exact matches_unreturned
  | succ n ih =>
      simp only [acquireRingEntry, nextCreateIndex, getPager, modifyPager, bind_apply, get_apply,
        pure_apply, Outcome.bind_success, assert_apply]
      split
      · rename_i hsize
        simp only [bind_apply, get_apply, modify_apply, pure_apply, Outcome.bind_success]
        have hindex : Solo.next (beside h (-1) (c.goto (.create r .index)) s) =
            .goes (beside h (-1)
              (c.goto (.create r (.exchange (s.pager.createHead % s.pager.size))))
              { s with
                pager := { s.pager with createHead := (s.pager.createHead + 1) % 2 ^ 32 } }) := by
          refine next_to rfl rfl ?_
          have hsize' : (s.pager.share.setEntryLatch h (-1)).size ≠ 0 := hsize
          simp only [Client.step, Client.goto, Client.createStep, if_neg hsize']
          rfl
        refine Matches.resume ?_ (.one hindex)
        generalize s.pager.createHead % s.pager.size = f
        generalize hu : ({ s with
          pager := { s.pager with createHead := (s.pager.createHead + 1) % 2 ^ 32 } } : Sys) = u
        obtain ⟨hmask, hring⟩ : u.pager.mask = s.pager.mask ∧ u.pager.ring = s.pager.ring := by
          rw [← hu]
          exact ⟨rfl, rfl⟩
        rw [← hmask, ← hring]
        split
        · rename_i hfree
          have hzero : (u.pager.share.setEntryLatch h (-1)).ringId f = 0 := hfree
          refine ⟨1, _, .one (next_to
            (u := { u with pager := u.pager.setRingId f r.id }) rfl rfl ?_), rfl, rfl⟩
          simp only [Client.step, Client.goto, Client.createStep, hzero, and_self, if_true]
          rw [share_setRingId]
          rfl
        · rename_i hused
          have hne : (u.pager.share.setEntryLatch h (-1)).ringId f ≠ 0 := hused
          refine ih.resume (.one (next_to rfl rfl ?_))
          simp only [Client.step, Client.goto, Client.createStep, hne, and_false, if_false]
      · exact matches_unreturned

/-- A ring entry is let go. -/
theorem next_undo : Solo.next (beside h word (c.goto (.create r (.undo f))) s) =
    .goes (beside h word (c.goto (.fix r (.subCount none)))
      { s with pager := s.pager.setRingId f 0 }) := by
  refine next_to rfl rfl ?_
  rw [share_setRingId]
  rfl

/-- The header of a ring entry is allocated, if there is none, or the entry is let go. -/
theorem matches_allocateHeader : Matches Solo.next 0 (allocateHeader f s)
    (beside h (-1) (c.goto (.create r (.flags f))) s)
    (fun _ t x => t.pager.mask = s.pager.mask ∧ (t.pager.ring f).allocated = true ∧
      x.client = c.goto (.create r (.latch f)) ∧
      x.shared.setLatch f 0 = ((t.pager.share.setEntryLatch h (-1)).setFlags f 0).setLatch f 0 ∧
        x.heap = t.heap)
    (fun t x => t.pager.mask = s.pager.mask ∧
      x = beside h (-1) (c.goto (.fix r (.subCount none))) t) := by
  rw [allocateHeader, getPager, bind_apply, bind_apply, get_apply, Outcome.bind_success, pure_apply,
    Outcome.bind_success]
  split
  · rename_i hallocated
    have hshared : (s.pager.share.setEntryLatch h (-1)).allocated f = true := hallocated
    refine ⟨1, ⟨((s.pager.share.setEntryLatch h (-1)).setAllocated f).setFlags f 0,
      c.goto (.create r (.latch f)), s.heap⟩,
      .one (next_goes ?_ ?_), rfl, hallocated, rfl, ?_, rfl⟩
    · simp [allocates, beside, Client.goto, hshared]
    · simp [Client.step, Client.goto, Client.createStep, beside, hshared]
    · rw [setAllocated, ← hshared, Function.update_eq_self]
  · rename_i hnew
    have hshared : (s.pager.share.setEntryLatch h (-1)).allocated f = false :=
      Bool.not_eq_true _ ▸ hnew
    have hallocates : (beside h (-1) (c.goto (.create r (.flags f))) s).allocates = true := by
      simp [allocates, beside, Client.goto, hshared]
    simp only [bind_apply, malloc, get_apply, modify_apply, pure_apply, Outcome.bind_success]
    cases hrefuse : s.heap.refuse s.heap.mallocs with
    | false =>
        -- the process has a latch already, the client once it has made its next step
        refine ⟨1, ⟨((s.pager.share.setEntryLatch h (-1)).setAllocated f).setFlags f 0,
          c.goto (.create r (.latch f)), s.heap.count⟩, .one ?_, rfl, ?_, rfl, ?_, rfl⟩
        · have hok : (beside h (-1) (c.goto (.create r (.flags f))) s).ok = true := by
            simp [Solo.ok, beside, hrefuse]
          simp only [Solo.next, hok, hallocates, if_true]
          simp [Client.step, Client.goto, Client.createStep, beside]
        · simp [Pager.setRing]
        · rw [share_allocate]
          simp [setAllocated, setFlags, setLatch, setEntryLatch]
    | true =>
        simp only [bind_apply, modifyPager, modify_apply, Outcome.bind_success, if_true]
        have hflags : Solo.next (beside h (-1) (c.goto (.create r (.flags f))) s) =
            .goes (beside h (-1) (c.goto (.create r (.undo f)))
              { s with heap := s.heap.count }) := by
          have hok : (beside h (-1) (c.goto (.create r (.flags f))) s).ok = false := by
            rw [Solo.ok, hallocates]
            simp [beside, hrefuse]
          simp only [Solo.next, hok, hallocates, if_true]
          simp [Client.step, Client.goto, Client.createStep, beside, hshared]
        refine Matches.resume (matches_report fun e => ?_) (.step hflags (.one next_undo))
        exact ⟨rfl, rfl⟩

/-- The step that inserts a page allocates memory if there is no room. -/
theorem allocates_insert (hh : pagerHash s.pager.mask r.id = h) :
    (beside h word (c.goto (.create r (.insert f))) s).allocates =
    decide (s.pager.directory h).full := by
  change decide ((s.pager.share.setEntryLatch h word).entry
    ((s.pager.share.setEntryLatch h word).hash r.id)).full = _
  rw [hash_beside hh]
  rfl

/-- A step that inserts a page in the hash entry. -/
theorem next_insert {u : Sys} (hh : pagerHash s.pager.mask r.id = h)
    (hroom : (s.pager.directory h).full → s.heap.refuse s.heap.mallocs = false)
    (hpager : u.pager = s.pager.setEntry h ((s.pager.directory h).insert ⟨r.id, f⟩))
    (hheap : u.heap = if (s.pager.directory h).full then s.heap.count else s.heap) :
    Solo.next (beside h (-1) (c.goto (.create r (.insert f))) s) =
      .goes (beside h (-1) (c.goto (.fix r (.pageLatch .create f))) u) := by
  have hallocates : (beside h (-1) (c.goto (.create r (.insert f))) s).allocates =
      decide (s.pager.directory h).full :=
    allocates_insert hh
  have hok : (beside h (-1) (c.goto (.create r (.insert f))) s).ok = true := by
    rw [Solo.ok, hallocates]
    by_cases hfull : (s.pager.directory h).full
    · simp [beside, hroom hfull]
    · simp [hfull]
  have hstep : (c.goto (.create r (.insert f))).step (s.pager.share.setEntryLatch h (-1)) true =
      some (u.pager.share.setEntryLatch h (-1), c.goto (.fix r (.pageLatch .create f))) := by
    rw [hpager, share_setEntry]
    simp only [Client.step, Client.goto, Client.createStep, hash_beside hh,
      entryLatch_setEntryLatch, show ¬ (0 : Int) ≤
        -1 by decide, if_false, Bool.true_eq_false, and_false]
    rfl
  rw [next_step hok hstep, hallocates]
  simp [beside, hheap]

/-- A step that finds no room in the hash entry, and no memory. -/
theorem next_insertRefused (hh : pagerHash s.pager.mask r.id = h)
    (hfull : (s.pager.directory h).full)
    (hrefuse : s.heap.refuse s.heap.mallocs = true) :
    Solo.next (beside h (-1) (c.goto (.create r (.insert f))) s) =
      .goes (beside h (-1) (c.goto (.create r (.undo f))) { s with heap := s.heap.count }) := by
  have hallocates : (beside h (-1) (c.goto (.create r (.insert f))) s).allocates = true := by
    rw [allocates_insert hh, decide_eq_true_iff]
    exact hfull
  have hok : (beside h (-1) (c.goto (.create r (.insert f))) s).ok = false := by
    rw [Solo.ok, hallocates]
    simp [beside, hrefuse]
  have hstep : (c.goto (.create r (.insert f))).step (s.pager.share.setEntryLatch h (-1)) false =
      some (s.pager.share.setEntryLatch h (-1), c.goto (.create r (.undo f))) := by
    have hentry : ((s.pager.share.setEntryLatch h (-1)).entry h).full := hfull
    simp only [Client.step, Client.goto, Client.createStep, hash_beside hh,
      entryLatch_setEntryLatch, hentry, and_self,
      show ¬ (0 : Int) ≤ -1 by decide, if_true, if_false]
  rw [next_step hok hstep, hallocates]
  rfl

/-- A hash entry without room gets a new bucket. -/
theorem matches_newBucket (hh : pagerHash s.pager.mask r.id = h)
    (hfull : (s.pager.directory h).full) {site : Site}
    {ptr size : String} {bytes : Nat} {k : Nat → Call Unit}
    (hk : ∀ object t, k object t = .success () { t with
      pager := t.pager.setEntry h ((s.pager.directory h).insert ⟨r.id, f⟩) }) :
    Matches Solo.next 0 ((tryAlloc site ptr size bytes s).bind k)
      (beside h (-1) (c.goto (.create r (.insert f))) s)
      (fun _ t x => t.pager.mask = s.pager.mask ∧
        x = beside h (-1) (c.goto (.fix r (.pageLatch .create f))) t)
      (fun t x => t.pager.mask = s.pager.mask ∧
        x = beside h (-1) (c.goto (.create r (.undo f))) t) := by
  simp only [tryAlloc, malloc, bind_apply, get_apply, modify_apply, pure_apply,
    Outcome.bind_success]
  cases hrefuse : s.heap.refuse s.heap.mallocs with
  | false =>
      simp only [Bool.false_eq_true, if_false, pure_apply, Outcome.bind_success, hk]
      exact ⟨1, _, .one (next_insert hh (fun _ => hrefuse) rfl (if_pos hfull).symm), rfl, rfl⟩
  | true =>
      simp only [if_true]
      refine Matches.resume
        (matches_bind (R := fun _ _ _ => False) (matches_report fun e => ?_)
          fun _ _ _ hno => hno.elim)
        (.one (next_insertRefused hh hfull hrefuse))
      exact ⟨rfl, rfl⟩

/-- `pager_directory_insert`. -/
theorem matches_pagerDirectoryInsert (hh : pagerHash s.pager.mask r.id = h) :
    Matches Solo.next 0 (pagerDirectoryInsert h ⟨r.id, f⟩ s)
      (beside h (-1) (c.goto (.create r (.insert f))) s)
      (fun _ t x => t.pager.mask = s.pager.mask ∧
        x = beside h (-1) (c.goto (.fix r (.pageLatch .create f))) t)
      (fun t x => t.pager.mask = s.pager.mask ∧
        x = beside h (-1) (c.goto (.create r (.undo f))) t) := by
  have hinsert {entry : HashEntry} (hroom : ¬ (s.pager.directory h).full)
      (hentry : entry = (s.pager.directory h).insert ⟨r.id, f⟩) :
      Matches Solo.next 0 (modifyPager (fun p => p.setEntry h entry) s)
        (beside h (-1) (c.goto (.create r (.insert f))) s)
        (fun _ t x => t.pager.mask = s.pager.mask ∧
          x = beside h (-1) (c.goto (.fix r (.pageLatch .create f))) t)
        (fun t x => t.pager.mask = s.pager.mask ∧
          x = beside h (-1) (c.goto (.create r (.undo f))) t) := by
    rw [modifyPager, modify_apply, hentry]
    refine ⟨1, _, .one (next_insert hh (fun hfull => absurd hfull hroom)
      (u := { s with pager := s.pager.setEntry h ((s.pager.directory h).insert ⟨r.id, f⟩) }) rfl
        ?_), rfl, rfl⟩
    rw [if_neg hroom]
  simp only [pagerDirectoryInsert, getPager, bind_apply, get_apply, pure_apply,
    Outcome.bind_success]
  split
  · rename_i hfirst
    exact hinsert (fun hfull => hfull.1 hfirst) (by rw [HashEntry.insert, if_pos hfirst])
  · rename_i hfirst
    split
    · rename_i hsecond
      exact hinsert (fun hfull => hfull.2.1 hsecond)
        (by rw [HashEntry.insert, if_neg hfirst, if_pos hsecond])
    · rename_i hsecond
      cases hfill : HashEntry.fillBucket ⟨r.id, f⟩ (s.pager.directory h).overflow with
      | some buckets =>
          refine hinsert (fun hfull => ?_) ?_
          · rw [fillBucket_eq_none.mpr hfull.2.2] at hfill
            cases hfill
          · rw [HashEntry.insert, if_neg hfirst, if_neg hsecond, HashEntry.fill_of_fillBucket hfill]
      | none =>
          -- only here does the process allocate, and the client needs a new bucket
          have hfull : (s.pager.directory h).full := ⟨hfirst, hsecond, fillBucket_eq_none.mp hfill⟩
          have hentry :
              { s.pager.directory h with
                overflow := (s.pager.directory h).overflow ++ [⟨r.id, f⟩] } =
                (s.pager.directory h).insert ⟨r.id, f⟩ := by
            rw [HashEntry.insert, if_neg hfirst, if_neg hsecond, HashEntry.fill_of_full hfill]
          dsimp only
          split
          · refine matches_newBucket hh hfull fun object t => ?_
            rw [hentry]
            rfl
          · refine matches_newBucket hh hfull fun object t => ?_
            rw [hentry]
            rfl

/-- `pager_create`. -/
theorem matches_pagerCreate (hh : pagerHash s.pager.mask r.id = h) :
    Matches Solo.next 0 (pagerCreate h r.id s) (beside h (-1) (c.goto (.create r .assert)) s)
      (fun f t x => t.pager.mask = s.pager.mask ∧
        x = beside h (-1) (c.goto (.fix r (.pageLatch .create f))) t)
      (fun t x => t.pager.mask = s.pager.mask ∧
        x = beside h (-1) (c.goto (.fix r (.subCount none))) t) := by
  have hassert : Solo.next (beside h (-1) (c.goto (.create r .assert)) s) =
      .goes (beside h (-1) (c.goto (.create r .index)) s) := by
    refine next_to rfl rfl ?_
    simp only [Client.step, Client.goto, Client.createStep, hash_beside hh,
      entryLatch_setEntryLatch]
    rfl
  simp only [pagerCreate, getPager, bind_apply, get_apply, pure_apply, Outcome.bind_success]
  refine Matches.resume (matches_bind matches_acquireRingEntry fun f t x ht => ?_) (.one hassert)
  obtain ⟨hmask, rfl⟩ := ht
  have hheader := matches_allocateHeader (s := t) (c := c) (r := r) (h := h) (f := f)
  refine matches_bind (hheader.mono (fun _ u x hu => hu) fun u x hu =>
    ⟨hu.1.trans hmask, hu.2⟩) fun _ u x hu => ?_
  obtain ⟨hmask', hallocated, hclient, hshared, hheap⟩ := hu
  simp only [bind_apply, modifyPager, modify_apply, Outcome.bind_success]
  generalize hv : ({ u with
      pager := u.pager.setHeader f { u.pager.header f with id := r.id, flags := 0, latch := 0 } } :
        Sys) = v
  have hsame : v.pager.mask = s.pager.mask := by
    rw [← hv]
    exact hmask'.trans hmask
  have hlatch : x.next = .goes (beside h (-1) (c.goto (.create r (.insert f))) v) := by
    have hno : x.allocates = false := by simp [allocates, hclient, Client.goto]
    have hstep : x.client.step x.shared true =
        some (x.shared.setLatch f 0, c.goto (.create r (.insert f))) := by
      rw [hclient]
      rfl
    rw [next_goes hno hstep, hshared, hheap, ← hv, beside, share_setHeader]
    rfl
  have hinsert := matches_pagerDirectoryInsert (s := v) (c := c) (f := f) (hsame ▸ hh)
  refine Matches.resume (matches_bind (R := fun _ t x => t.pager.mask = v.pager.mask ∧
    x = beside h (-1) (c.goto (.fix r (.pageLatch .create f))) t)
    (matches_handled (fun e t x ht => ht) hinsert fun t x ht => ?_) fun _ t x ht => ?_)
      (.one hlatch)
  · obtain ⟨hmask, rfl⟩ := ht
    exact ⟨1, _, .one next_undo, hmask.trans hsame, rfl⟩
  · exact ⟨0, x, .here x, ht.1.trans hsame, ht.2⟩

/-- The lookup under the write latch of the hash entry. -/
theorem matches_relookup (hh : pagerHash s.pager.mask r.id = h) {E : Sys → Solo → Prop} :
    Matches Solo.next 0 (pagerLookup h r.id r.exclusive s)
      (beside h 0 (c.goto (.fix r .writeEntry)) s)
      (fun page t x => t.pager.mask = s.pager.mask ∧ match page with
        | some page =>
            page.id = r.id ∧ x = beside h (-1) (c.goto (.fix r (.subCount (some page.frame)))) t
        | none => t = s ∧ x = beside h (-1) (c.goto (.create r .assert)) s) E := by
  have hwrite : Solo.next (beside h 0 (c.goto (.fix r .writeEntry)) s) =
      .goes (beside h (-1) (c.goto (.fix r .relookup)) s) := by
    refine next_latch ?_
    simp only [Client.fixStep, hash_beside hh, entryLatch_setEntryLatch]
    rfl
  have hlookup : Matches Solo.next 0 (pagerLookup h r.id r.exclusive s)
      (beside h (-1) (c.goto (.fix r .relookup)) s) _ E :=
    matches_pagerLookup .relookup .retry (.create r .assert) (fun shared => by rfl) (by decide) hh
  exact hlookup.resume (.one hwrite)

/-- `pager_fix` of a page that was not found. -/
theorem matches_fixMissing (hh : pagerHash s.pager.mask r.id = h) :
    Matches Solo.next 0 ((do
        ensureCapacity
        match ← pagerLookup h r.id r.exclusive with
        | some page => do
            subPageCount
            pure page
        | none => do
            let frame ← handleForward ⟨"src/pager.c", "pager_fix", 410⟩
              "pager_create(pager, hash_entry, id, &header)" (pagerCreate h r.id) subPageCount
            latchPage frame r.exclusive
            pure ⟨r.id, frame⟩ : Call PageRef) s) (beside h 0 (c.goto (.fix r .loadCount)) s)
      (fun page t x => page.id = r.id ∧ x = beside h 0 (c.ret r (some page.frame)) t)
      (fun t x => x = beside h 0 (c.ret r none) t) := by
  rw [bind_apply]
  have hcapacity := matches_ensureCapacity (s := s) (c := c) (r := r) (h := h)
  refine matches_bind (hcapacity.mono (fun _ t x ht => ht) fun t x ht => ht.2) fun _ t x ht => ?_
  obtain ⟨hmask, rfl⟩ := ht
  have hht : pagerHash t.pager.mask r.id = h := hmask ▸ hh
  rw [bind_apply]
  refine matches_bind (matches_relookup hht) fun page u x hu => ?_
  obtain ⟨hmask', hu⟩ := hu
  have hhu : pagerHash u.pager.mask r.id = h := hmask' ▸ hht
  cases page with
  | some page =>
      obtain ⟨hid, rfl⟩ := hu
      refine matches_bind (matches_subPageCount hhu (some page.frame)) fun _ v x hv => ?_
      exact ⟨0, x, .here x, hid, hv.2⟩
  | none =>
      obtain ⟨rfl, rfl⟩ := hu
      refine matches_bind (matches_handled (fun e t x ht => ht)
        (matches_pagerCreate hht) fun v x hv => ?_) fun f v x hv => ?_
      · obtain ⟨hmask, rfl⟩ := hv
        exact (matches_subPageCount (hmask ▸ hht) none).mono (fun _ _ _ hw => hw.2) fun _ _ hw => hw
      · obtain ⟨hmask, rfl⟩ := hv
        refine matches_bind (matches_latchPage .create (f := f)) fun _ w x hw => ?_
        obtain ⟨hmask', rfl⟩ := hw
        exact ⟨2, _, goes_writeDrop (hmask' ▸ hmask ▸ hht) (some f), rfl, rfl⟩

/-- `pager_fix`. -/
theorem matches_pagerFix (hid : r.id ≠ 0) :
    Matches Solo.next 0 (pagerFix r.id r.exclusive s) (beside 0 0 (c.goto (.fix r .readEntry)) s)
      (fun page t x => page.id = r.id ∧ x = beside 0 0 (c.ret r (some page.frame)) t)
      (fun t x => x = beside 0 0 (c.ret r none) t) := by
  obtain ⟨h, hh⟩ : ∃ h, pagerHash s.pager.mask r.id = h := ⟨_, rfl⟩
  -- nobody is in a hash entry yet, so it may be the one of the page
  rw [beside_free 0 h]
  simp only [pagerFix, if_neg hid, getPager, bind_apply, get_apply, pure_apply,
    Outcome.bind_success, hh]
  refine matches_bind (matches_readLookup hh) fun page t x ht => ?_
  obtain ⟨hmask, ht⟩ := ht
  cases page with
  | some page =>
      obtain ⟨hid, rfl⟩ := ht
      exact ⟨0, _, .here _, hid, beside_free h 0⟩
  | none =>
      obtain ⟨rfl, rfl⟩ := ht
      refine (matches_fixMissing hh).mono (fun page u x hu => ⟨hu.1, ?_⟩) fun u x hu => ?_
      · rw [hu.2, beside_free h 0]
      · rw [hu, beside_free h 0]

theorem beside_zero : beside h 0 c s = settled c s := by
  rw [beside, setEntryLatch_share, settled]

/-! ### Unfixing a page -/

section

variable {page : PageRef} {exclusive : Bool} {heap : Heap} {shared : SharedPager}

/-- A step of an unfix. -/
theorem next_unfix {p : UnfixPoint} {c' : Client} {shared' : SharedPager}
    (hstep : (c.goto (.unfix page exclusive p)).unfixStep shared page exclusive p =
      some (shared', c')) :
    Solo.next ⟨shared, c.goto (.unfix page exclusive p), heap⟩ = .goes ⟨shared', c', heap⟩ :=
      next_goes rfl hstep

/-- A page is let go by its writer. -/
theorem goes_unfixWrite (hflags : shared.flags page.frame &&& PAGE_FLAG_EXCLUSIVE ≠ 0)
    (hlatch : shared.latch page.frame = -1) :
    Goes Solo.next 4 ⟨shared, c.goto (.unfix page exclusive .load), heap⟩
      ⟨(shared.setLatch page.frame 0).setFlags page.frame (PAGE_FLAG_DIRTY ||| PAGE_FLAG_REF),
        c.goto .idle, heap⟩ := by
  let stored := shared.setFlags page.frame (PAGE_FLAG_DIRTY ||| PAGE_FLAG_REF)
  have hload : Solo.next ⟨shared, c.goto (.unfix page exclusive .load), heap⟩ =
      .goes ⟨shared, c.goto (.unfix page exclusive .store), heap⟩ := next_unfix (if_pos hflags)
  have hassert : Solo.next ⟨stored, c.goto (.unfix page exclusive .writeAssert), heap⟩ =
      .goes ⟨stored, c.goto (.unfix page exclusive .write), heap⟩ := next_unfix (if_pos hlatch)
  exact .step hload (.step rfl (.step hassert (.one rfl)))

/-- A page is let go by a reader. -/
theorem goes_unfixRead (hflags : ¬ shared.flags page.frame &&& PAGE_FLAG_EXCLUSIVE ≠ 0)
    (hlatch : 0 < shared.latch page.frame) :
    Goes Solo.next 4 ⟨shared, c.goto (.unfix page exclusive .load), heap⟩
      ⟨(shared.setLatch page.frame (dropWord (shared.latch page.frame))).setFlags page.frame
        (shared.flags page.frame ||| PAGE_FLAG_REF), c.goto .idle, heap⟩ := by
  let used := shared.setFlags page.frame (shared.flags page.frame ||| PAGE_FLAG_REF)
  have hload : Solo.next ⟨shared, c.goto (.unfix page exclusive .load), heap⟩ =
      .goes ⟨shared, c.goto (.unfix page exclusive .setRef), heap⟩ := next_unfix (if_neg hflags)
  have hassert : Solo.next ⟨used, c.goto (.unfix page exclusive .readAssert), heap⟩ =
      .goes ⟨used, c.goto (.unfix page exclusive .read), heap⟩ := next_unfix (if_pos hlatch)
  exact .step hload (.step rfl (.step hassert (.one rfl)))

/-- `pager_unfix`. -/
theorem goes_unfix (hok : LatchOk (s.pager.header page.frame))
    (hrun : pagerUnfix page s = .success () t) :
    Goes Solo.next 4 (settled (c.goto (.unfix page exclusive .load)) s)
      (settled (c.goto .idle) t) := by
  rw [pagerUnfix_apply page s hok] at hrun
  split at hrun
  · rename_i hheld
    obtain rfl := (Outcome.success.inj hrun).2
    rw [settled, settled, share_setHeader]
    by_cases hlatch : (s.pager.header page.frame).latch = -1
    · have hreleased : released (s.pager.header page.frame) = { s.pager.header page.frame with
          flags := PAGE_FLAG_DIRTY ||| PAGE_FLAG_REF, latch := 0 } := if_pos hlatch
      rw [hreleased]
      exact goes_unfixWrite (hok.exclusive.mpr hlatch) hlatch
    · have hpos : 0 < (s.pager.header page.frame).latch := hheld.resolve_left hlatch
      have hhigh := hok.high
      have hdrop : dropWord (s.pager.header page.frame).latch =
          (s.pager.header page.frame).latch - 1 := by
        rw [dropWord, Int.bmod_def, if_pos (by omega)]
        omega
      have hreleased : released (s.pager.header page.frame) = { s.pager.header page.frame with
          flags := (s.pager.header page.frame).flags ||| PAGE_FLAG_REF,
          latch := dropWord (s.pager.header page.frame).latch } := by
        rw [hdrop]
        exact if_neg hlatch
      rw [hreleased]
      exact goes_unfixRead (fun hflags => hlatch (hok.exclusive.mp hflags)) hpos
  · cases hrun

end

/-! ### Calls that do not return -/

/-- The client comes to a point where it makes no step, whatever the exchanges and the memory do. -/
def Waits (x : Solo) : Prop :=
  ∃ n y, Goes Solo.next n x y ∧ y.client.point ≠ .idle ∧ y.client.point ≠ .aborted ∧
    ∀ ok, y.client.step y.shared ok = none

/-- The latch of a page in use is waited for. -/
theorem waits_pageLatch (hf : s.pager.locate r.id = some f)
    (hlatch : ¬ CanLatch r.exclusive (s.pager.header f)) :
    Waits (settled (c.goto (.fix r .readEntry)) s) := by
  obtain ⟨h, hh⟩ : ∃ h, pagerHash s.pager.mask r.id = h := ⟨_, rfl⟩
  have hfound : (s.pager.directory h).lookup r.id = some f := by
    rw [HashEntry.lookup_eq, ← hh]
    exact hf
  have hread : Solo.next (beside h 0 (c.goto (.fix r .readEntry)) s) =
      .goes (beside h 1 (c.goto (.fix r .lookup)) s) := by
    refine next_latch ?_
    simp only [Client.fixStep, hash_beside hh, entryLatch_setEntryLatch]
    rfl
  have hlookup : Solo.next (beside h 1 (c.goto (.fix r .lookup)) s) =
      .goes (beside h 1 (c.goto (.fix r (.pageLatch .lookup f))) s) := by
    have hentry : ((s.pager.share.setEntryLatch h 1).entry h).lookup r.id = some f := hfound
    refine next_goes rfl ?_
    simp only [Client.step, Client.goto, beside, Client.fixStep, hash_beside hh,
      entryLatch_setEntryLatch, hentry]
    rfl
  rw [← beside_zero (h := h)]
  refine ⟨2, _, .step hread (.one hlookup), ?_, ?_, fun ok => ?_⟩
  · rintro ⟨⟩
  · rintro ⟨⟩
  have hword : acquireWord (s.pager.header f).latch r.exclusive = none := by
    cases hexclusive : r.exclusive with
    | true =>
        rw [hexclusive] at hlatch
        exact if_neg hlatch
    | false =>
        rw [hexclusive] at hlatch
        exact if_neg hlatch
  exact (congrArg (Option.map _) hword).trans rfl

/-- There is no ring entry for a page. -/
theorem waits_ringEmpty (hframes : NoFrames s.pager) (hid : r.id ≠ 0) :
    Waits (settled (c.goto (.fix r .readEntry)) s) := by
  obtain ⟨h, hh⟩ : ∃ h, pagerHash s.pager.mask r.id = h := ⟨_, rfl⟩
  have hmissing (u : Sys) (hdirectory : u.pager.directory = s.pager.directory) :
      pagerLookup h r.id r.exclusive u = .success none u := by
    refine pagerLookup_none ?_
    rw [hdirectory, HashEntry.lookup_eq, ← hh]
    exact hframes.locate hid
  generalize hu : ({ s with pager := { s.pager with pageCount := u32 (s.pager.pageCount + 1) } } :
    Sys) = u
  obtain ⟨hmask, hsize, hdirectory⟩ : u.pager.mask = s.pager.mask ∧ u.pager.size = s.pager.size ∧
      u.pager.directory = s.pager.directory := by
    rw [← hu]
    exact ⟨rfl, rfl, rfl⟩
  have hcapacity : ensureCapacity s = .success () u := by
    have hguard : ¬ u32 (-1) = 0 := by decide
    simp [ensureCapacity, hframes.size, hframes.pageCount, hguard, addPageCount, ← hu]
  have hhu : pagerHash u.pager.mask r.id = h := hmask ▸ hh
  have hread := matches_readLookup (c := c) (E := fun _ _ => False) hh
  rw [hmissing s rfl] at hread
  obtain ⟨n, x, hgoes, -, -, rfl⟩ := hread
  have hcount := matches_ensureCapacity (r := r) (c := c) (h := h) (s := s)
  rw [hcapacity] at hcount
  obtain ⟨m, x, hgoes', -, rfl⟩ := hcount
  have hretry := matches_relookup (c := c) (E := fun _ _ => False) hhu
  rw [hmissing u hdirectory] at hretry
  obtain ⟨k, x, hgoes'', -, -, rfl⟩ := hretry
  have hassert : Solo.next (beside h (-1) (c.goto (.create r .assert)) u) =
      .goes (beside h (-1) (c.goto (.create r .index)) u) := by
    refine next_to rfl rfl ?_
    simp only [Client.step, Client.goto, Client.createStep, hash_beside hhu,
      entryLatch_setEntryLatch]
    rfl
  rw [← beside_zero (h := h)]
  refine ⟨_, _, hgoes.trans (hgoes'.trans (hgoes''.trans (.one hassert))), ?_, ?_, fun ok => ?_⟩
  · rintro ⟨⟩
  · rintro ⟨⟩
  exact if_pos (hsize.trans hframes.size)

/-- A fix that does not return is waited for. -/
theorem waits_pagerFix {fault : Fault} (hpager : Ok 0 s.pager ∨ NoFrames s.pager) (hid : r.id ≠ 0)
    (hrun : pagerFix r.id r.exclusive s = .fault fault) :
    Waits (settled (c.goto (.fix r .readEntry)) s) := by
  rcases hpager with hok | hframes
  · rcases pagerFix_cases r.id r.exclusive s hok with
      ⟨_, _, _, hrun', -⟩ | ⟨_, _, _, hrun', -⟩ | ⟨-, f, hf, hlatch⟩
    · cases hrun'.symm.trans hrun
    · cases hrun'.symm.trans hrun
    · exact waits_pageLatch hf hlatch
  · exact waits_ringEmpty hframes hid

end

end Wednesday
