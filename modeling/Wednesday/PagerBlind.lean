import Wednesday.Lib.Agree
import Wednesday.TreeAnswers

/-!
The pager does not look at the pages. Its calls ignore what stands in the
frames, in uninitialised memory and on the stack: they report the same and
leave the same pager behind, whatever these hold.
-/

namespace Wednesday

open Lib Prog Pager

/-! ### What is left of the process without its memory -/

def Frame.bare (header : Frame) : Frame := { header with data := fun _ => 0 }

def RingEntry.bare (entry : RingEntry) : RingEntry := { entry with header := entry.header.bare }

def Pager.bare (p : Pager) : Pager := { p with ring := fun f => (p.ring f).bare }

def Heap.bare (heap : Heap) : Heap := { heap with garbage := fun _ _ => 0 }

/-- The process without the bytes of its frames, of new memory and of the stack. -/
def Sys.bare (s : Sys) : Sys :=
  { s with heap := s.heap.bare, stack := fun _ => 0, pager := s.pager.bare }

section

variable (p : Pager) (s : Sys)

@[simp] theorem Pager.header_bare (f : Nat) : p.bare.header f = (p.header f).bare := rfl

@[simp] theorem Pager.ring_bare (f : Nat) : p.bare.ring f = (p.ring f).bare := rfl

@[simp] theorem Pager.setRing_bare (i : Nat) (entry : RingEntry) :
    p.bare.setRing i entry.bare = (p.setRing i entry).bare := by
  simp only [Pager.bare, setRing, Pager.mk.injEq, true_and]
  ext f : 1
  by_cases hf : f = i
  · rw [hf, Function.update_self, Function.update_self]
  · rw [Function.update_of_ne hf, Function.update_of_ne hf]

@[simp] theorem Pager.setHeader_bare (f : Nat) (header : Frame) :
    p.bare.setHeader f header.bare = (p.setHeader f header).bare :=
  setRing_bare p f { p.ring f with header := header }

@[simp] theorem Pager.setRingId_bare (i : Nat) (id : PageId) :
    p.bare.setRingId i id = (p.setRingId i id).bare :=
  setRing_bare p i { p.ring i with pageId := id }

@[simp] theorem Pager.setEntry_bare (h : Nat) (entry : HashEntry) :
    p.bare.setEntry h entry = (p.setEntry h entry).bare := rfl

theorem Pager.bare_writeData (f : Nat) (data : Mem) : (p.writeData f data).bare = p.bare := by
  rw [writeData, ← setHeader_bare]
  change p.bare.setRing f (p.ring f).bare = p.bare
  rw [setRing, ← ring_bare, Function.update_eq_self]

@[simp] theorem Sys.bare_err : s.bare.err = s.err := rfl
@[simp] theorem Sys.bare_pager : s.bare.pager = s.pager.bare := rfl
@[simp] theorem Sys.bare_tree : s.bare.tree = s.tree := rfl
@[simp] theorem Sys.bare_outage : s.bare.outage = s.outage := rfl
@[simp] theorem Sys.bare_pagerCalls : s.bare.pagerCalls = s.pagerCalls := rfl

end

section

variable {p : Pager} {s : Sys}

theorem Pager.clockVictim_bare (n : Nat) (p : Pager) : clockVictim n p.bare = clockVictim n p := by
  induction n generalizing p with
  | zero => rfl
  | succ n ih =>
      have hmove := ih { p with evictHead := (p.evictHead + 1) % 2 ^ 32 }
      have hflag := ih (setHeader { p with evictHead := (p.evictHead + 1) % 2 ^ 32 }
          (p.evictHead % p.size)
        { (p.ring (p.evictHead % p.size)).header with
          flags := (p.ring (p.evictHead % p.size)).header.flags &&& (255 - PAGE_FLAG_REF) })
      rw [← setHeader_bare] at hflag
      rw [clockVictim, clockVictim, ← hmove, ← hflag]
      rfl

theorem Pager.evictsFor_bare (p : Pager) (id : PageId) : p.bare.evictsFor id = p.evictsFor id := by
  simp only [evictsFor, victim, clockVictim_bare]
  rfl

theorem Pager.Ok.bare_iff {k : Nat} : p.bare.Ok k ↔ p.Ok k := by
  have hlatch (f : Nat) : LatchOk (p.header f).bare ↔ LatchOk (p.header f) :=
    ⟨fun h => ⟨h.low, h.high, h.exclusive⟩, fun h => ⟨h.low, h.high, h.exclusive⟩⟩
  constructor
  · exact fun h => ⟨h.sizePos, h.sizeLt, h.distinct, h.hashed, h.mapped, h.located,
      fun f hf hused => (hlatch f).mp (h.latched f hf hused), h.named, h.reserved, h.capacity⟩
  · exact fun h => ⟨h.sizePos, h.sizeLt, h.distinct, h.hashed, h.mapped, h.located,
      fun f hf hused => (hlatch f).mpr (h.latched f hf hused), h.named, h.reserved, h.capacity⟩

theorem Holding.bare_iff {held : List PageRef} : Holding held s.bare ↔ Holding held s :=
  ⟨fun h => ⟨Pager.Ok.bare_iff.mp h.ok, h.nodup, h.there, h.latch⟩,
    fun h => ⟨Pager.Ok.bare_iff.mpr h.ok, h.nodup, h.there, h.latch⟩⟩

end

/-! ### The macros -/

section

variable {α : Type}

theorem ignores_modifyPager {g : Pager → Pager} (hg : ∀ p, g p.bare = (g p).bare) :
    Ignores Sys.bare (modifyPager g) := by
  refine ignores_modify fun s => ?_
  change { s.bare with pager := g s.pager.bare } = _
  rw [hg]
  rfl

theorem ignores_getPager {k : Pager → Call α} (hk : ∀ p, k p.bare = k p)
    (hm : ∀ p, Ignores Sys.bare (k p)) :
    Ignores Sys.bare (getPager >>= k) :=
  ignores_get (fun s => hk s.pager) fun s => hm s.pager

theorem ignores_failure (site : Site) (code : Int) (texts : List String) :
    Ignores Sys.bare (failure site code texts : Call α) :=
  ignores_get (fun _ => rfl) fun _ => (ignores_ofExcept _).bind fun _ =>
    Ignores.bind (fun _ => rfl) fun _ => ignores_fail

theorem ignores_tryCall {site : Site} {text : String} {m : Call α} (hm : Ignores Sys.bare m) :
    Ignores Sys.bare (tryCall site text m) :=
  hm.recover (ignores_get (fun _ => rfl) fun _ => ignores_failure _ _ _)

theorem ignores_handleForward {site : Site} {text : String} {m : Call α} {body : Call Unit}
    (hm : Ignores Sys.bare m) (hbody : Ignores Sys.bare body) :
    Ignores Sys.bare (handleForward site text m body) :=
  hm.recover (hbody.bind fun _ => ignores_get (fun _ => rfl) fun _ => ignores_failure _ _ _)

theorem ignores_ensure (c : Prop) [Decidable c] (site : Site) (text : String) :
    Ignores Sys.bare (ensure c site text) :=
  (ignores_pure _).ite (ignores_failure _ _ _)

theorem ignores_malloc : Ignores Sys.bare malloc := fun _ => rfl

theorem ignores_free (ptr : Nat) : Ignores Sys.bare (free ptr) := fun _ => rfl

theorem ignores_tryAlloc (site : Site) (ptr size : String) (bytes : Nat) :
    Ignores Sys.bare (tryAlloc site ptr size bytes) := by
  refine ignores_malloc.bind fun object => ?_
  cases object with
  | none => exact ignores_failure _ _ _
  | some object => exact ignores_pure object

theorem ignores_deferGuard {cleanup : Call Unit} (hcleanup : Ignores Sys.bare cleanup) :
    Ignores Sys.bare (deferGuard cleanup) :=
  ignores_get (fun _ => rfl) fun _ => (ignores_pure _).ite
    (Ignores.bind (fun _ => rfl) fun _ => hcleanup)

theorem ignores_registerCleanup : Ignores Sys.bare registerCleanup := fun _ => rfl

theorem ignores_errdefer {cleanup : Call Unit} {m : Call α} (hcleanup : Ignores Sys.bare cleanup)
    (hm : Ignores Sys.bare m) : Ignores Sys.bare (errdefer cleanup m) :=
  ignores_registerCleanup.bind fun _ => (ignores_deferGuard hcleanup).deferred hm

end

/-! ### The pager -/

section

variable (frame index h : Nat) (id : PageId) (exclusive : Bool)

/-- A change of a header after a check of it. -/
theorem ignores_checkHeader {c : Frame → Prop} [DecidablePred c] {r : Fault} {g : Frame → Frame}
    (hc : ∀ header, c header.bare ↔ c header) (hg : ∀ header, g header.bare = (g header).bare) :
    Ignores Sys.bare (do
      let p ← getPager
      assert (c (p.header frame)) r
      modifyPager fun q => q.setHeader frame (g (p.header frame))) := by
  intro s
  have hset :
      { s.bare with pager := s.pager.bare.setHeader frame (g (s.pager.header frame).bare) } =
      Sys.bare { s with pager := s.pager.setHeader frame (g (s.pager.header frame)) } := by
    rw [hg, setHeader_bare]
    rfl
  by_cases hcheck : c (s.pager.header frame)
  · have hbare : c (s.bare.pager.header frame) := (hc _).mpr hcheck
    simp only [bind_apply, getPager, get_apply, Outcome.bind_success,
      pure_apply, assert_true hcheck, assert_true hbare, modifyPager, modify_apply,
        Outcome.mapState_success]
    exact congrArg (Outcome.success ()) hset
  · have hbare : ¬ c (s.bare.pager.header frame) := hcheck ∘ (hc _).mp
    simp only [bind_apply, getPager, get_apply, Outcome.bind_success, pure_apply,
      assert_false hcheck, assert_false hbare, Outcome.bind_fault, Outcome.mapState_fault]

theorem ignores_latchAcquire : Ignores Sys.bare (latchAcquire frame exclusive) := by
  cases exclusive with
  | true =>
      exact ignores_checkHeader frame (c := fun header => header.latch = 0)
        (g := fun header => { header with latch := -1 }) (fun _ => Iff.rfl) fun _ => rfl
  | false =>
      exact ignores_checkHeader frame (c := fun header => 0 ≤ header.latch)
        (g := fun header => { header with latch := Int.bmod (header.latch + 1) (2 ^ 32) })
        (fun _ => Iff.rfl) fun _ => rfl

theorem ignores_latchReleaseRead : Ignores Sys.bare (latchReleaseRead frame) :=
  ignores_checkHeader frame (c := fun header => 0 < header.latch)
    (g := fun header => { header with latch := header.latch - 1 }) (fun _ => Iff.rfl) fun _ => rfl

theorem ignores_latchReleaseWrite : Ignores Sys.bare (latchReleaseWrite frame) :=
  ignores_checkHeader frame (c := fun header => header.latch = -1)
    (g := fun header => { header with latch := 0 }) (fun _ => Iff.rfl) fun _ => rfl

/-- A header is replaced by what was read of it. -/
theorem bare_setHeader (s : Sys) {g : Frame → Frame}
    (hg : ∀ header, g header.bare = (g header).bare) :
    { s.bare with pager := s.bare.pager.setHeader frame (g (s.bare.pager.header frame)) } =
      Sys.bare { s with pager := s.pager.setHeader frame (g (s.pager.header frame)) } := by
  rw [Sys.bare_pager, header_bare, hg, setHeader_bare]
  rfl

theorem ignores_setHeader {g : Frame → Frame} (hg : ∀ header, g header.bare = (g header).bare) :
    Ignores Sys.bare (modifyPager fun p => p.setHeader frame (g (p.header frame))) := fun s =>
  congrArg (Outcome.success ()) (bare_setHeader frame s hg)

theorem ignores_latchPage : Ignores Sys.bare (latchPage frame exclusive) :=
  (ignores_latchAcquire frame exclusive).bind fun _ =>
    (ignores_setHeader frame (g := fun header =>
      { header with flags := header.flags ||| PAGE_FLAG_EXCLUSIVE })
      fun _ => rfl).ite (ignores_pure _)

theorem ignores_pagerUnfix (page : PageRef) : Ignores Sys.bare (pagerUnfix page) := by
  intro s
  have hwrite := congrArg (latchReleaseWrite page.frame) (bare_setHeader page.frame s
    (g := fun header => { header with flags := PAGE_FLAG_DIRTY ||| PAGE_FLAG_REF }) fun _ => rfl)
  have hread := congrArg (latchReleaseRead page.frame) (bare_setHeader page.frame s
    (g := fun header => { header with flags := header.flags ||| PAGE_FLAG_REF }) fun _ => rfl)
  rw [ignores_latchReleaseWrite] at hwrite
  rw [ignores_latchReleaseRead] at hread
  have hflags : (s.bare.pager.header page.frame).flags = (s.pager.header page.frame).flags := rfl
  simp only [pagerUnfix, bind_apply, getPager, get_apply, Outcome.bind_success, pure_apply, hflags]
  split
  · exact hwrite
  · exact hread

theorem ignores_nextCreateIndex : Ignores Sys.bare nextCreateIndex :=
  ignores_getPager (fun _ => rfl) fun _ => (ignores_assert _ _).bind fun _ =>
    Ignores.bind (fun _ => rfl) fun _ => ignores_pure _

theorem ignores_nextEvictIndex : Ignores Sys.bare nextEvictIndex :=
  ignores_getPager (fun _ => rfl) fun _ => Ignores.bind (fun _ => rfl) fun _ => ignores_pure _

theorem ignores_pagerDirectoryInsert (m : Mapping) :
    Ignores Sys.bare (pagerDirectoryInsert h m) := by
  refine ignores_getPager (fun _ => rfl) fun p => Ignores.ite (fun _ => rfl)
    (Ignores.ite (fun _ => rfl) ?_)
  split
  · exact fun _ => rfl
  · exact Ignores.ite ((ignores_tryAlloc _ _ _ _).bind fun _ => fun _ => rfl)
      ((ignores_tryAlloc _ _ _ _).bind fun _ => fun _ => rfl)

theorem ignores_acquireRingEntry (n : Nat) : Ignores Sys.bare (acquireRingEntry id n) := by
  induction n with
  | zero => exact ignores_abort _
  | succ n ih =>
      refine ignores_nextCreateIndex.bind fun index => ignores_getPager (fun _ => rfl)
        fun p => Ignores.ite ?_ ih
      exact (ignores_modifyPager fun p => setRingId_bare p index id).bind fun _ => ignores_pure _

theorem ignores_allocateHeader : Ignores Sys.bare (allocateHeader index) := by
  refine ignores_getPager (fun _ => rfl) fun p => Ignores.ite (ignores_pure _)
    (ignores_malloc.bind fun object => ?_)
  cases object with
  | none =>
      exact (ignores_modifyPager fun p => setRingId_bare p index 0).bind fun _ =>
        ignores_failure _ _ _
  | some object =>
      -- The bytes of the new frame are those that are ignored.
      intro s
      refine congrArg (Outcome.success ()) ?_
      have hentry := setRing_bare s.pager index { s.pager.ring index with
        allocated := true, header := ⟨0, 0, 0, s.heap.garbage object⟩ }
      exact congrArg (fun p => { s.bare with pager := p }) hentry

theorem ignores_pagerCreate : Ignores Sys.bare (pagerCreate h id) := by
  refine ignores_getPager (fun _ => rfl) fun p => (ignores_acquireRingEntry id _).bind fun index =>
    (ignores_allocateHeader index).bind fun _ => (ignores_setHeader index
      (g := fun header => { header with id := id, flags := 0, latch := 0 }) fun _ => rfl).bind
          fun _ =>
    Ignores.bind (ignores_handleForward (ignores_pagerDirectoryInsert h _) ?_)
      fun _ => ignores_pure _
  exact ignores_modifyPager fun p => setRingId_bare p index 0

theorem ignores_pagerEvictLoop (n : Nat) : Ignores Sys.bare (pagerEvictLoop n) := by
  induction n with
  | zero => exact ignores_failure _ _ _
  | succ n ih =>
      refine ignores_nextEvictIndex.bind fun index s => ?_
      have hpage : (s.bare.pager.ring index).pageId = (s.pager.ring index).pageId := rfl
      have hlatch : (s.bare.pager.ring index).header.latch = (s.pager.ring index).header.latch :=
        rfl
      have hflags : (s.bare.pager.ring index).header.flags = (s.pager.ring index).header.flags :=
        rfl
      have href := congrArg (pagerEvictLoop n) (bare_setHeader index s
        (g := fun header => { header with flags := header.flags &&& (255 - PAGE_FLAG_REF) })
        fun _ => rfl)
      rw [ih] at href
      simp only [bind_apply, getPager, get_apply, Outcome.bind_success, pure_apply,
        hpage, hlatch, hflags]
      split
      · exact ih s
      · split
        · exact ih s
        · split
          · exact href
          · exact Ignores.bind (fun _ => rfl) (fun _ => ignores_modifyPager fun p =>
              setRingId_bare p index 0) s

theorem ignores_pagerEvict : Ignores Sys.bare pagerEvict :=
  ignores_getPager (fun _ => rfl) fun _ => ignores_pagerEvictLoop _

theorem ignores_pagerLookup : Ignores Sys.bare (pagerLookup h id exclusive) := by
  refine ignores_getPager (fun _ => rfl) fun p => ?_
  split
  · exact ignores_pure _
  · exact (ignores_latchPage _ _).bind fun _ => ignores_pure _

theorem ignores_ensureCapacity : Ignores Sys.bare ensureCapacity :=
  ignores_getPager (fun _ => rfl) fun _ => Ignores.ite (ignores_tryCall ignores_pagerEvict) fun _ =>
    rfl

/-- A check that reports a failure before the rest of a call. -/
theorem Ignores.unless {β : Type} {c : Prop} [Decidable c] {site : Site} {code : Int}
    {texts : List String}
    {rest : Call β} (hrest : Ignores Sys.bare rest) :
    Ignores Sys.bare (if c then (failure site code texts : Call α) >>= fun _ => rest else rest) :=
  ((ignores_failure _ _ _).bind fun _ => hrest).ite hrest

theorem ignores_pagerFix : Ignores Sys.bare (pagerFix id exclusive) := by
  unfold pagerFix
  refine Ignores.unless ?_
  refine ignores_getPager (fun _ => rfl) fun p => (ignores_pagerLookup _ id exclusive).bind
    fun found => ?_
  cases found with
  | some page => exact ignores_pure page
  | none =>
      refine ignores_ensureCapacity.bind fun _ => (ignores_pagerLookup _ id exclusive).bind
        fun found => ?_
      cases found with
      | some page => exact Ignores.bind (fun _ => rfl) fun _ => ignores_pure page
      | none =>
          exact (ignores_handleForward (ignores_pagerCreate _ id) fun _ => rfl).bind fun _ =>
            (ignores_latchPage _ _).bind fun _ => ignores_pure _

theorem ignores_pagerNext : Ignores Sys.bare pagerNext :=
  ignores_getPager (fun _ => rfl) fun _ => Ignores.bind (fun _ => rfl) fun _ => ignores_pagerFix _ _

end

/-! ### The pager as the tree calls it -/

theorem ignores_pagerRefuse {α : Type} : Ignores Sys.bare (pagerRefuse : Call α) :=
  ignores_tryCall (ignores_failure _ _ _)

theorem ignores_treeFix (id : PageId) : Ignores Sys.bare (treeFix id) :=
  ignores_get (fun _ => rfl) fun _ => Ignores.bind (fun _ => rfl) fun _ =>
    ignores_pagerRefuse.ite (ignores_pagerFix _ _)

theorem ignores_treeNext : Ignores Sys.bare treeNext :=
  ignores_get (fun _ => rfl) fun _ => Ignores.bind (fun _ => rfl) fun _ =>
    Ignores.ite (Ignores.bind (fun _ => rfl) fun _ => ignores_pagerRefuse) ignores_pagerNext

theorem ignores_btreeOpen (out : Bool) (root : PageId) : Ignores Sys.bare (btreeOpen out root) :=
  (ignores_ensure _ _ _).bind fun _ => (ignores_tryAlloc _ _ _ _).bind fun object =>
    ignores_errdefer (ignores_free object)
      (Ignores.bind (fun _ => rfl) fun _ => ignores_pure _)

end Wednesday
