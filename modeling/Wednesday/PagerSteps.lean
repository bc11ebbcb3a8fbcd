import Mathlib.Data.Nat.Bitwise
import Wednesday.PagerInvariant

/-!
The steps of the pager: latching a page, evicting one, creating one. Each
keeps the invariant and is described by the pager it leaves behind.
-/

namespace Wednesday

open Lib Prog

/-! ### Reports -/

section

variable {α : Type} {site : Site} {text : String} {s s' : Sys}

/-- A reported failure only changes the error state, and sets its code. -/
theorem failure_apply (site : Site) {code : Int} (hcode : code ≠ 0) (texts : List String)
    (s : Sys) :
    ∃ e, (failure site code texts : Call α) s = .failure { s with err := e } ∧ e.code = code := by
  obtain ⟨e, he, hec⟩ := reportFailure_ok s.err site texts hcode
  exact ⟨e, by simp [failure, he], hec⟩

theorem tryCall_success {call : Call α} {a : α} (h : call s = .success a s') :
    tryCall site text call s = .success a s' :=
  recover_success h

theorem tryCall_failure (site : Site) (text : String) {call : Call α} (h : call s = .failure s')
    (hcode : s'.err.code ≠ 0) :
    ∃ e, tryCall site text call s = .failure { s' with err := e } ∧ e.code = s'.err.code := by
  obtain ⟨e, he, hec⟩ := failure_apply (α := α) site hcode ["try " ++ text] s'
  refine ⟨e, ?_, hec⟩
  rw [tryCall, recover_failure h]
  simpa [errorGetCode] using he

theorem tryCall_fault {call : Call α} {r : Fault} (h : call s = .fault r) :
    tryCall site text call s = .fault r :=
  recover_fault h

end

namespace Pager

/-! ### Latches -/

/-- The latch can be taken in this mode. -/
def CanLatch (exclusive : Bool) (header : Frame) : Prop :=
  if exclusive then header.latch = 0 else 0 ≤ header.latch

instance (exclusive : Bool) (header : Frame) : Decidable (CanLatch exclusive header) := by
  unfold CanLatch
  infer_instance

/-- The header once its latch is taken. -/
def latched (exclusive : Bool) (header : Frame) : Frame :=
  if exclusive then { header with latch := -1, flags := header.flags ||| PAGE_FLAG_EXCLUSIVE }
  else { header with latch := Int.bmod (header.latch + 1) (2 ^ 32) }

/-- The header once a holder has released it. -/
def released (header : Frame) : Frame :=
  if header.latch = -1 then { header with flags := PAGE_FLAG_DIRTY ||| PAGE_FLAG_REF, latch := 0 }
  else { header with flags := header.flags ||| PAGE_FLAG_REF, latch := header.latch - 1 }

@[simp] theorem data_latched (exclusive : Bool) (header : Frame) :
    (latched exclusive header).data = header.data := by
  cases exclusive <;> rfl

@[simp] theorem id_latched (exclusive : Bool) (header : Frame) :
    (latched exclusive header).id = header.id := by
  cases exclusive <;> rfl

@[simp] theorem id_released (header : Frame) : (released header).id = header.id := by
  unfold released
  split <;> rfl

@[simp] theorem data_released (header : Frame) : (released header).data = header.data := by
  unfold released
  split <;> rfl

theorem LatchOk.latched {header : Frame} (h : LatchOk header) {exclusive : Bool}
    (hc : CanLatch exclusive header) : LatchOk (latched exclusive header) := by
  cases exclusive with
  | true => exact ⟨by simp [Pager.latched], by simp [Pager.latched],
        by simp [Pager.latched, exclusive_or_exclusive]⟩
  | false =>
      simp only [CanLatch, Bool.false_eq_true, if_false] at hc
      have hflag : ¬ header.flags &&& PAGE_FLAG_EXCLUSIVE ≠ 0 := by
        rw [h.exclusive]
        omega
      have hhigh := h.high
      have hne : Int.bmod (header.latch + 1) (2 ^ 32) ≠ -1 := by
        rw [Int.bmod_def]
        split <;> omega
      refine ⟨?_, ?_, ?_⟩
      · simp only [Pager.latched, Bool.false_eq_true, if_false]
        exact Int.le_bmod (by decide)
      · simp only [Pager.latched, Bool.false_eq_true, if_false]
        exact Int.bmod_lt (by decide)
      · simp only [Pager.latched, Bool.false_eq_true, if_false]
        exact ⟨fun hf => absurd hf hflag, fun hl => absurd hl hne⟩

theorem LatchOk.released {header : Frame} (h : LatchOk header)
    (hheld : header.latch = -1 ∨ 0 < header.latch) : LatchOk (released header) := by
  unfold Pager.released
  split
  · exact ⟨by simp, by simp, by simp [PAGE_FLAG_DIRTY, PAGE_FLAG_REF, PAGE_FLAG_EXCLUSIVE]⟩
  · rename_i hne
    have hhigh := h.high
    have hpos : 0 < header.latch := hheld.resolve_left hne
    refine ⟨by dsimp only; omega, by dsimp only; omega, ?_⟩
    dsimp only
    rw [exclusive_or_ref, h.exclusive]
    omega

end Pager

open Pager

@[simp] theorem Pager.setHeader_setHeader (p : Pager) (f : Nat) (a b : Frame) :
    (p.setHeader f a).setHeader f b = p.setHeader f b := by
  simp [Pager.setHeader, Pager.setRing]

theorem latchPage_apply (f : Nat) (exclusive : Bool) (s : Sys) :
    latchPage f exclusive s = if CanLatch exclusive (s.pager.header f) then
      .success () { s with
        pager := s.pager.setHeader f (latched exclusive (s.pager.header f)) }
    else .fault .hang := by
  cases exclusive <;> simp only [latchPage, latchAcquire, CanLatch, latched, Bool.false_eq_true,
    if_false, if_true, bind_apply, getPager_apply, Outcome.bind_success, assert_apply]
  · split <;> simp
  · split <;> simp

/-- Releasing a page nobody holds takes the branch for shared holders and stops
there. -/
theorem pagerUnfix_apply (page : PageRef) (s : Sys) (h : LatchOk (s.pager.header page.frame)) :
    pagerUnfix page s =
      if (s.pager.header page.frame).latch = -1 ∨ 0 < (s.pager.header page.frame).latch then
        .success () { s with
          pager := s.pager.setHeader page.frame (released (s.pager.header page.frame)) }
      else .fault .latchReleaseRead := by
  have hflag := h.exclusive
  simp only [pagerUnfix, bind_apply, getPager_apply, Outcome.bind_success]
  split
  · rename_i hset
    have hlatch := hflag.mp hset
    simp [latchReleaseWrite, hlatch, released]
  · rename_i hclear
    have hne : (s.pager.header page.frame).latch ≠ -1 := fun hl => hclear (hflag.mpr hl)
    simp only [latchReleaseRead, bind_apply, modifyPager_apply, getPager_apply,
      Outcome.bind_success, header_setHeader_self, assert_apply, hne, false_or]
    split <;> simp [released, hne]

/-! ### Eviction -/

namespace Pager

/-- The page the scan of `pager_evict` settles on within `n` steps. -/
def clockVictim : Nat → Pager → Option PageId
  | 0, _ => none
  | n + 1, p =>
      let index := p.evictHead % p.size
      let entry := p.ring index
      let p := { p with evictHead := (p.evictHead + 1) % 2 ^ 32 }
      if entry.pageId = 0 then clockVictim n p
      else if entry.header.latch ≠ 0 then clockVictim n p
      else if entry.header.flags &&& PAGE_FLAG_REF ≠ 0 then
        clockVictim n (p.setHeader index
          { entry.header with flags := entry.header.flags &&& (255 - PAGE_FLAG_REF) })
      else some entry.pageId

/-- The page `pager_evict` removes. -/
def victim (p : Pager) : Option PageId := clockVictim (2 * p.size % 2 ^ 32) p

/-- The frame `f` is taken from its page. -/
def evicted (p : Pager) (f : Nat) : Pager :=
  (p.setEntry (pagerHash p.mask (p.ring f).pageId)
    ((p.directory (pagerHash p.mask (p.ring f).pageId)).remove (p.ring f).pageId)).setRingId f 0

/-- A scan of the ring that leaves every page where it is. -/
structure Scanned (k : Nat) (p p' : Pager) : Prop where
  ok : Ok k p'
  shape : SameShape p p'
  pageCount : p'.pageCount = p.pageCount
  nextPage : p'.nextPage = p.nextPage
  same : ∀ j, j ≠ 0 → Same p p' j

/-- The page `v` was evicted. -/
structure Evicts (k : Nat) (p p' : Pager) (v : PageId) : Prop where
  ok : Ok (k + 1) p'
  shape : SameShape p p'
  pageCount : p'.pageCount = p.pageCount
  nextPage : p'.nextPage = p.nextPage
  ne_zero : v ≠ 0
  gone : Gone p p' v
  same : ∀ j, j ≠ 0 → j ≠ v → Same p p' j

variable {k : Nat} {p : Pager} {f : Nat}

theorem locate_evicted_ne {j : PageId} (hj : j ≠ (p.ring f).pageId) (hj0 : j ≠ 0) :
    (p.evicted f).locate j = p.locate j := by
  simp only [locate, evicted, setRingId, directory_setRing, mask_setRing, setEntry,
    Function.update_apply]
  split
  · rename_i h
    rw [HashEntry.slots_remove, HashEntry.find_removeBucket_ne hj hj0, h]
  · rfl

theorem locate_evicted_self (h : Ok k p) (hne : (p.ring f).pageId ≠ 0) :
    (p.evicted f).locate (p.ring f).pageId = none := by
  simp only [locate, evicted, setRingId, directory_setRing, mask_setRing, setEntry,
    Function.update_self, HashEntry.slots_remove]
  exact HashEntry.find_removeBucket_self (h.distinct _) hne

theorem ring_evicted (p : Pager) (f : Nat) :
    (p.evicted f).ring = Function.update p.ring f { p.ring f with pageId := 0 } := rfl

theorem header_evicted (p : Pager) (f g : Nat) : (p.evicted f).header g = p.header g := by
  simp only [header, ring_evicted, Function.update_apply]
  split
  · rename_i h
    rw [h]
  · rfl

theorem occupied_evicted (hf : f < p.size) (hne : (p.ring f).pageId ≠ 0) :
    (p.evicted f).occupied.card + 1 = p.occupied.card := by
  have hmem : f ∈ p.occupied := by simp [occupied, hf, hne]
  have hset : (p.evicted f).occupied = p.occupied.erase f := by
    ext g
    simp only [occupied, Finset.mem_filter, Finset.mem_range, Finset.mem_erase, ring_evicted,
      Function.update_apply]
    change g < p.size ∧ _ ↔ _
    by_cases hg : g = f <;> simp [hg]
  rw [hset, Finset.card_erase_add_one hmem]

theorem Ok.evicts (h : Ok k p) (hf : f < p.size) (hne : (p.ring f).pageId ≠ 0)
    (hlatch : (p.header f).latch = 0) : Evicts k p (p.evicted f) (p.ring f).pageId where
  ok :=
    { sizePos := h.sizePos
      sizeLt := h.sizeLt
      distinct i := by
        simp only [evicted, setRingId, directory_setRing, setEntry, Function.update_apply]
        split
        · rw [HashEntry.slots_remove]
          exact (h.distinct _).removeBucket
        · exact h.distinct i
      hashed i m hm hne' := by
        simp only [evicted, setRingId, directory_setRing, setEntry, Function.update_apply] at hm
        split at hm
        · rename_i hi
          rw [HashEntry.slots_remove] at hm
          rw [hi]
          exact h.hashed _ m ((HashEntry.mem_removeBucket hm).resolve_left hne') hne'
        · exact h.hashed i m hm hne'
      mapped id g hid hg := by
        have hidv : id ≠ (p.ring f).pageId := by
          rintro rfl
          simp [locate_evicted_self h hne] at hg
        rw [locate_evicted_ne hidv hid] at hg
        obtain ⟨hlt, hpage, halloc⟩ := h.mapped id g hid hg
        have hgf : g ≠ f := by
          rintro rfl
          exact hidv hpage.symm
        rw [ring_evicted, Function.update_of_ne hgf]
        exact ⟨hlt, hpage, halloc⟩
      located g hg hgne := by
        rw [ring_evicted] at hgne ⊢
        by_cases hgf : g = f
        · simp [hgf] at hgne
        · rw [Function.update_of_ne hgf] at hgne ⊢
          have hloc := h.located g hg hgne
          rw [locate_evicted_ne _ hgne, hloc]
          intro heq
          rw [heq, h.located f hf hne] at hloc
          exact hgf (Option.some.inj hloc).symm
      latched g hg hgne := by
        rw [header_evicted]
        refine h.latched g hg fun hz => hgne ?_
        rw [ring_evicted, Function.update_apply]
        split
        · rfl
        · exact hz
      named g hg hgne := by
        rw [header_evicted]
        rw [ring_evicted] at hgne ⊢
        by_cases hgf : g = f
        · simp [hgf] at hgne
        · rw [Function.update_of_ne hgf] at hgne ⊢
          exact h.named g hg hgne
      reserved := by
        have hcard := occupied_evicted hf hne
        have hres := h.reserved
        change _ = p.pageCount
        omega
      capacity := h.capacity }
  shape := ⟨rfl, rfl, rfl⟩
  pageCount := rfl
  nextPage := rfl
  ne_zero := hne
  gone := ⟨locate_evicted_self h hne, f, h.located f hf hne, hlatch⟩
  same j hj hjv := ⟨locate_evicted_ne hjv hj, fun g _ => by rw [header_evicted]; exact ⟨rfl, rfl⟩⟩

theorem Scanned.refl (h : Ok k p) : Scanned k p p :=
  ⟨h, .refl p, rfl, rfl, fun _ _ => .refl p _⟩

theorem Scanned.trans {q r : Pager} (h : Scanned k p q) (h' : Scanned k q r) : Scanned k p r :=
  ⟨h'.ok, h.shape.trans h'.shape, h'.pageCount.trans h.pageCount, h'.nextPage.trans h.nextPage,
    fun j hj => (h.same j hj).trans (h'.same j hj)⟩

theorem Scanned.evicts {q r : Pager} {v : PageId} (h : Scanned k p q) (h' : Evicts k q r v) :
    Evicts k p r v :=
  ⟨h'.ok, h.shape.trans h'.shape, h'.pageCount.trans h.pageCount, h'.nextPage.trans h.nextPage,
    h'.ne_zero, h'.gone.of_same (h.same v h'.ne_zero),
    fun j hj hjv => (h.same j hj).trans (h'.same j hj hjv)⟩

theorem Ok.moveEvictHead (h : Ok k p) (i : Nat) : Scanned k p { p with evictHead := i } :=
  ⟨⟨h.sizePos, h.sizeLt, h.distinct, h.hashed, h.mapped, h.located, h.latched, h.named,
    h.reserved, h.capacity⟩, ⟨rfl, rfl, rfl⟩, rfl, rfl, fun _ _ => ⟨rfl, fun _ _ => ⟨rfl, rfl⟩⟩⟩

/-- Taking the second chance from a page. -/
theorem Ok.clearRef (h : Ok k p) (hf : f < p.size) (hne : (p.ring f).pageId ≠ 0) :
    Scanned k p (p.setHeader f
      { p.header f with flags := (p.header f).flags &&& (255 - PAGE_FLAG_REF) }) := by
  have hl := h.latched f hf hne
  refine ⟨h.setHeader rfl fun _ _ => ⟨hl.low, hl.high, ?_⟩, ⟨rfl, rfl, rfl⟩,
    rfl, rfl, fun j _ => ?_⟩
  · dsimp only
    rw [exclusive_clear_ref]
    exact hl.exclusive
  · refine ⟨rfl, fun g _ => ?_⟩
    by_cases hgf : g = f
    · rw [hgf, header_setHeader_self]
      exact ⟨rfl, rfl⟩
    · rw [header_setHeader_ne _ _ _ _ hgf]
      exact ⟨rfl, rfl⟩

end Pager

theorem pagerEvictLoop_cases (n : Nat) (s : Sys) {k : Nat} (h : Ok k s.pager) :
    (∃ p v, pagerEvictLoop n s = .success () { s with pager := p } ∧
      clockVictim n s.pager = some v ∧ Evicts k s.pager p v) ∨
    (∃ p e, pagerEvictLoop n s = .failure { s with pager := p, err := e } ∧ e.code ≠ 0 ∧
      clockVictim n s.pager = none ∧ Scanned k s.pager p) := by
  induction n generalizing s with
  | zero =>
      obtain ⟨e, he, hcode⟩ := failure_apply (α := Unit) ⟨"src/pager.c", "pager_evict", 343⟩
        (show ENOMEM ≠ 0 by decide) ["no pages to evict"] s
      exact Or.inr ⟨s.pager, e, he, by rw [hcode]; decide, rfl, .refl h⟩
  | succ n ih =>
      have hmove := h.moveEvictHead ((s.pager.evictHead + 1) % 2 ^ 32)
      have hindex : s.pager.evictHead % s.pager.size < s.pager.size := Nat.mod_lt _ h.sizePos
      -- the scan goes on from `q`
      have hnext (q : Pager) (hq : Scanned k s.pager q)
          (hrun : pagerEvictLoop (n + 1) s = pagerEvictLoop n { s with pager := q })
          (hvictim : clockVictim (n + 1) s.pager = clockVictim n q) :
          (∃ p v, pagerEvictLoop (n + 1) s = .success () { s with pager := p } ∧
            clockVictim (n + 1) s.pager = some v ∧ Evicts k s.pager p v) ∨
          (∃ p e, pagerEvictLoop (n + 1) s = .failure { s with pager := p, err := e } ∧
            e.code ≠ 0 ∧ clockVictim (n + 1) s.pager = none ∧ Scanned k s.pager p) := by
        rw [hrun, hvictim]
        rcases ih { s with pager := q } hq.ok with ⟨p, v, hp, hv, hev⟩ | ⟨p, e, hp, hcode, hv, hsc⟩
        · exact Or.inl ⟨p, v, hp, hv, hq.evicts hev⟩
        · exact Or.inr ⟨p, e, hp, hcode, hv, hq.trans hsc⟩
      by_cases hfree : (s.pager.ring (s.pager.evictHead % s.pager.size)).pageId = 0
      · refine hnext _ hmove ?_ ?_
        · simp [pagerEvictLoop, nextEvictIndex, hfree]
        · simp [clockVictim, hfree]
      by_cases hheld : (s.pager.ring (s.pager.evictHead % s.pager.size)).header.latch ≠ 0
      · refine hnext _ hmove ?_ ?_
        · simp [pagerEvictLoop, nextEvictIndex, hfree, hheld]
        · simp [clockVictim, hfree, hheld]
      rw [not_not] at hheld
      by_cases href : (s.pager.ring (s.pager.evictHead % s.pager.size)).header.flags &&&
          PAGE_FLAG_REF ≠ 0
      · refine hnext _ (hmove.trans (hmove.ok.clearRef hindex hfree)) ?_ ?_
        · simp [pagerEvictLoop, nextEvictIndex, hfree, hheld, href, Pager.header]
        · simp [clockVictim, hfree, hheld, href, Pager.header]
      rw [not_not] at href
      have hevict := hmove.evicts (hmove.ok.evicts hindex hfree hheld)
      refine Or.inl ⟨_, _, ?_, ?_, hevict⟩
      · simp [pagerEvictLoop, nextEvictIndex, hfree, hheld, href, Pager.evicted, Pager.setEntry]
      · simp [clockVictim, hfree, hheld, href]

end Wednesday
