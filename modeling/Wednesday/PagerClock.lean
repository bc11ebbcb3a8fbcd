import Wednesday.Lib.Clock
import Wednesday.PagerConfig

/-!
The two hands of the ring. `pager_create` looks for a free entry and finds one
in two rounds; `pager_evict` looks for a victim and gives a page whose REF bit
is set a second chance. Both hands are 32-bit counters reduced modulo the size
of the ring, so the order in which entries come under them jumps when they wrap.
-/

namespace Wednesday

open Lib Lib.Clock Prog Pager

namespace Pager

variable {p : Pager} {k i f : Nat}

/-! ### The scan of `pager_evict` -/

/-- The entry under the hand at step `i` of the scan. -/
def evictIndex (p : Pager) (i : Nat) : Nat := counter (2 ^ 32) p.size p.evictHead i

/-- The entry holds a page that nobody has fixed. -/
def Idle (p : Pager) (f : Nat) : Prop :=
  f < p.size ∧ (p.ring f).pageId ≠ 0 ∧ (p.header f).latch = 0

/-- The REF bit of the page is set. -/
def Referenced (p : Pager) (f : Nat) : Prop := (p.header f).flags &&& PAGE_FLAG_REF ≠ 0

instance (p : Pager) (f : Nat) : Decidable (p.Idle f) := by
  unfold Idle
  infer_instance

instance (p : Pager) (f : Nat) : Decidable (p.Referenced f) := by
  unfold Referenced
  infer_instance

def clearRef (header : Frame) : Frame :=
  { header with flags := header.flags &&& (255 - PAGE_FLAG_REF) }

/-- The header after `i` steps: an idle page that came under the hand has lost
its REF bit. -/
def passedHeader (p : Pager) (i f : Nat) : Frame :=
  if p.Idle f ∧ Passed p.evictIndex i f then clearRef (p.header f) else p.header f

/-- The pager after `i` steps that found no victim. -/
def passed (p : Pager) (i : Nat) : Pager :=
  { p with
    evictHead := (p.evictHead + i) % 2 ^ 32
    ring := fun f => { p.ring f with header := p.passedHeader i f } }

/-- At step `i` the hand reaches an idle page whose REF bit is clear by then. -/
def EvictsAt (p : Pager) (i : Nat) : Prop :=
  p.Idle (p.evictIndex i) ∧
    (p.passedHeader i (p.evictIndex i)).flags &&& PAGE_FLAG_REF = 0

/-- The pager once the page under the hand at step `i` is evicted. -/
def takenAt (p : Pager) (i : Nat) : Pager :=
  evicted { p.passed i with evictHead := ((p.passed i).evictHead + 1) % 2 ^ 32 } (p.evictIndex i)

theorem clearRef_clears (header : Frame) : (clearRef header).flags &&& PAGE_FLAG_REF = 0 := by
  rw [clearRef, Nat.and_assoc]
  exact Nat.and_zero _

theorem clearRef_clearRef (header : Frame) : clearRef (clearRef header) = clearRef header := by
  simp only [clearRef, Nat.and_assoc, Nat.and_self]

/-- The REF bit is clear by then if it was clear at the start, or the hand has
been there before. -/
theorem evictsAt_iff : p.EvictsAt i ↔ Takes p.evictIndex p.Idle p.Referenced i := by
  simp only [EvictsAt, Takes, Referenced, passedHeader]
  refine and_congr_right fun hidle => ?_
  by_cases hpass : Passed p.evictIndex i (p.evictIndex i)
  · simp [hidle, hpass, clearRef_clears]
  · simp [hpass]

instance (p : Pager) (i : Nat) : Decidable (p.EvictsAt i) := by
  unfold EvictsAt
  infer_instance

theorem latch_passedHeader (p : Pager) (i f : Nat) :
    (p.passedHeader i f).latch = (p.header f).latch := by
  unfold passedHeader
  split <;> rfl

theorem passed_zero (hhead : p.evictHead < 2 ^ 32) : p.passed 0 = p := by
  have hring : (fun f => { p.ring f with header := p.passedHeader 0 f }) = p.ring := by
    ext f : 1
    rw [passedHeader, if_neg fun h => not_passed_zero h.2]
    rfl
  rw [passed, hring, Nat.add_zero, Nat.mod_eq_of_lt hhead]

/-- Past an entry without an idle page the headers stay. -/
theorem passed_skip (hidle : ¬ p.Idle (p.evictIndex i)) :
    { p.passed i with evictHead := ((p.passed i).evictHead + 1) % 2 ^ 32 } = p.passed (i + 1) := by
  have hheader (g : Nat) : p.passedHeader (i + 1) g = p.passedHeader i g := by
    unfold passedHeader
    congr 1
    rw [passed_succ, eq_iff_iff]
    refine and_congr_right fun hg => ⟨fun h => h.resolve_right ?_, Or.inl⟩
    rintro rfl
    exact hidle hg
  simp only [passed, hheader]
  congr 1
  omega

/-- An idle page loses its REF bit. -/
theorem passed_clear (hidle : p.Idle (p.evictIndex i)) :
    setHeader { p.passed i with evictHead := ((p.passed i).evictHead + 1) % 2 ^ 32 }
      (p.evictIndex i) (clearRef (p.passedHeader i (p.evictIndex i))) = p.passed (i + 1) := by
  have hring (g : Nat) : Function.update (p.passed i).ring (p.evictIndex i)
      { (p.passed i).ring (p.evictIndex i) with
        header := clearRef (p.passedHeader i (p.evictIndex i)) } g =
      (p.passed (i + 1)).ring g := by
    by_cases hg : g = p.evictIndex i
    · subst hg
      rw [Function.update_self]
      simp only [passed, passedHeader, passed_succ, hidle, or_true, and_self, if_true, true_and]
      split
      · rw [clearRef_clearRef]
      · rfl
    · rw [Function.update_of_ne hg]
      simp only [passed, passedHeader, passed_succ, Ne.symm hg, or_false]
  rw [setHeader, setRing, show _ = (p.passed (i + 1)).ring from funext hring]
  simp only [passed]
  congr 1
  omega

/-- Where no page is idle only the hand moves. -/
theorem passed_of_none_idle (hnone : ∀ f, ¬ p.Idle f) :
    p.passed i = { p with evictHead := (p.evictHead + i) % 2 ^ 32 } := by
  have hring : (fun f => { p.ring f with header := p.passedHeader i f }) = p.ring := by
    ext f : 1
    rw [passedHeader, if_neg fun h => hnone f h.1]
    rfl
  rw [passed, hring]

end Pager

/-- The scan from step `i` on: it stops at the first step at which the hand
evicts, or has only moved the hand and taken second chances. -/
theorem pagerEvictLoop_scan {p : Pager} (hsize : 0 < p.size) (n i : Nat) (s : Sys) :
    (∃ j, i ≤ j ∧ j < i + n ∧ p.EvictsAt j ∧ (∀ l, i ≤ l → l < j → ¬ p.EvictsAt l) ∧
      pagerEvictLoop n { s with pager := p.passed i } = .success () { s with
        pager := p.takenAt j }) ∨
    ((∀ l, i ≤ l → l < i + n → ¬ p.EvictsAt l) ∧
      ∃ e, pagerEvictLoop n { s with pager := p.passed i } = .failure { s with
        pager := p.passed (i + n), err := e } ∧ e.code = ENOMEM) := by
  induction n generalizing i with
  | zero =>
      obtain ⟨e, he, hcode⟩ := failure_apply (α := Unit) ⟨"src/pager.c", "pager_evict", 343⟩
        (show ENOMEM ≠ 0 by decide) ["no pages to evict"] { s with pager := p.passed i }
      exact Or.inr ⟨fun l h₁ h₂ => by omega, e, he, hcode⟩
  | succ n ih =>
      -- a step that does not evict leaves the rest of the scan
      have hnext (hnot : ¬ p.EvictsAt i)
          (hrun : pagerEvictLoop (n + 1) { s with pager := p.passed i } =
            pagerEvictLoop n { s with pager := p.passed (i + 1) }) :
          (∃ j, i ≤ j ∧ j < i + (n + 1) ∧ p.EvictsAt j ∧
            (∀ l, i ≤ l → l < j → ¬ p.EvictsAt l) ∧
            pagerEvictLoop (n + 1) { s with pager := p.passed i } = .success () { s with
              pager := p.takenAt j }) ∨
          ((∀ l, i ≤ l → l < i + (n + 1) → ¬ p.EvictsAt l) ∧
            ∃ e, pagerEvictLoop (n + 1) { s with pager := p.passed i } = .failure { s with
              pager := p.passed (i + (n + 1)), err := e } ∧ e.code = ENOMEM) := by
        have hfirst (l : Nat) (hl : i ≤ l) (h : i + 1 ≤ l → ¬ p.EvictsAt l) : ¬ p.EvictsAt l := by
          rcases Nat.eq_or_lt_of_le hl with rfl | hlt
          · exact hnot
          · exact h hlt
        rw [hrun]
        rcases ih (i + 1) with ⟨j, hij, hj, hat, hbefore, hjrun⟩ | ⟨hnone, e, hfail, hcode⟩
        · exact Or.inl ⟨j, by omega, by omega, hat,
            fun l hl hlj => hfirst l hl fun h => hbefore l h hlj, hjrun⟩
        · refine Or.inr ⟨fun l hl hln => hfirst l hl fun h => hnone l h (by omega), e, ?_, hcode⟩
          rw [hfail, Nat.add_assoc, Nat.add_comm 1 n]
      have hindex : (p.passed i).evictHead % (p.passed i).size = p.evictIndex i := rfl
      have hid : ((p.passed i).ring (p.evictIndex i)).pageId = (p.ring (p.evictIndex i)).pageId :=
        rfl
      have hheader : ((p.passed i).ring (p.evictIndex i)).header =
          p.passedHeader i (p.evictIndex i) := rfl
      by_cases hidle : p.Idle (p.evictIndex i)
      swap
      · refine hnext (fun h => hidle h.1) ?_
        rw [← passed_skip hidle]
        by_cases hfree : (p.ring (p.evictIndex i)).pageId = 0
        · simp [pagerEvictLoop, nextEvictIndex, hindex, hid, hfree]
        · have hheld : (p.header (p.evictIndex i)).latch ≠ 0 :=
            fun h => hidle ⟨counter_lt i hsize, hfree, h⟩
          simp [pagerEvictLoop, nextEvictIndex, hindex, hid, hfree, hheader, latch_passedHeader,
            hheld]
      by_cases href : (p.passedHeader i (p.evictIndex i)).flags &&& PAGE_FLAG_REF = 0
      · refine Or.inl ⟨i, le_rfl, by omega, ⟨hidle, href⟩, fun l h₁ h₂ => by omega, ?_⟩
        simp [pagerEvictLoop, nextEvictIndex, hindex, hid, hidle.2.1, hheader, latch_passedHeader,
          hidle.2.2, href, takenAt, evicted, setEntry]
      · refine hnext (fun h => href h.2) ?_
        rw [← passed_clear hidle]
        simp [pagerEvictLoop, nextEvictIndex, hindex, hid, hidle.2.1, hheader, latch_passedHeader,
          hidle.2.2, href, clearRef]

namespace Pager

variable {p : Pager} {k i f : Nat}

/-! ### What a second-chance eviction is -/

/-- The scan of `p` ended at its step `i`: that step is the first in at most two
rounds at which the hand reached an idle page without its REF bit. Only this
page is gone, from ring and directory, and only idle pages before it lost
their REF bit. -/
structure ClockEvicts (p p' : Pager) (i : Nat) : Prop where
  rounds : i < 2 * p.size
  victim : p.EvictsAt i
  first : ∀ j < i, ¬ p.EvictsAt j
  ring : ∀ f, (p'.ring f).pageId = if f = p.evictIndex i then 0 else (p.ring f).pageId
  located : ∀ id, id ≠ 0 → p'.locate id =
    if id = (p.ring (p.evictIndex i)).pageId then none else p.locate id
  header : ∀ f, p'.header f = p.passedHeader i f
  allocated : ∀ f, (p'.ring f).allocated = (p.ring f).allocated
  evictHead : p'.evictHead = (p.evictHead + (i + 1)) % 2 ^ 32
  rest : p' = { p with directory := p'.directory, ring := p'.ring, evictHead := p'.evictHead }

/-- All idle pages have their REF bit set, and the hand, because it wraps on the
way, comes to each of them only once in its two rounds. -/
def HandSkips (p : Pager) : Prop :=
  (∃ f, p.Idle f) ∧ ∀ f, p.Idle f → p.Referenced f ∧ ¬ Twice p.evictIndex (2 * p.size) f

theorem Ok.takenAt (h : Ok k p) (hi : i < 2 * p.size) (hat : p.EvictsAt i)
    (hfirst : ∀ j < i, ¬ p.EvictsAt j) : ClockEvicts p (p.takenAt i) i where
  rounds := hi
  victim := hat
  first := hfirst
  ring f := by
    rw [Pager.takenAt, ring_evicted]
    by_cases hf : f = p.evictIndex i
    · simp [hf]
    · rw [Function.update_of_ne hf, if_neg hf]
      rfl
  located id hid := by
    have hne : (p.ring (p.evictIndex i)).pageId ≠ 0 := hat.1.2.1
    split
    · rename_i heq
      subst heq
      simp only [locate, Pager.takenAt, evicted, setRingId, directory_setRing, mask_setRing,
        setEntry, passed, Function.update_self, HashEntry.slots_remove]
      exact HashEntry.find_removeBucket_self (h.distinct _) hne
    · rename_i hj
      exact locate_evicted_ne hj hid
  header f := by
    rw [Pager.takenAt, header_evicted]
    rfl
  allocated f := by
    rw [Pager.takenAt, ring_evicted, Function.update_apply]
    split
    · rename_i hf
      rw [hf]
      rfl
    · rfl
  evictHead := by
    change ((p.evictHead + i) % 2 ^ 32 + 1) % 2 ^ 32 = (p.evictHead + (i + 1)) % 2 ^ 32
    omega
  rest := rfl

/-- In two rounds the hand takes a page, unless it skips all that are idle. -/
theorem exists_evictsAt (hsize : p.size < 2 ^ 32) :
    (∃ i < 2 * p.size, p.EvictsAt i) ↔ (∃ f, p.Idle f) ∧ ¬ p.HandSkips := by
  simp only [evictsAt_iff]
  have hpass (f : Nat) (hf : p.Idle f) : Passed p.evictIndex (2 * p.size) f :=
    counter_passes hf.1 hsize.le
  rw [exists_takes hpass]
  constructor
  · rintro ⟨f, hidle, htwice⟩
    exact ⟨⟨f, hidle⟩, fun h => (h.2 f hidle).2 (htwice (h.2 f hidle).1)⟩
  · rintro ⟨hidle, hskip⟩
    by_contra hnone
    refine hskip ⟨hidle, fun f hf => ?_⟩
    by_contra h
    exact hnone ⟨f, hf, fun hm => by_contra fun htwice => h ⟨hm, htwice⟩⟩

/-- Away from its wrap the hand skips nothing. -/
theorem not_handSkips (h : p.evictHead % 2 ^ 32 + 2 * p.size ≤ 2 ^ 32 ∨ 2 ^ 32 % p.size = 0) :
    ¬ p.HandSkips := by
  rintro ⟨⟨f, hf⟩, hskip⟩
  exact (hskip f hf).2 (counter_twice hf.1 h)

end Pager

/-- There is no room for the page: the capacity check of `pager_fix` fails, and
this is what the call reports. -/
def LacksRoom (id : PageId) (exclusive : Bool) (s : Sys) : Prop :=
  ∃ t, ensureCapacity s = .failure t ∧ pagerFix id exclusive s = .failure t ∧
    t.err.code = ENOMEM

/-- `pager_evict` is second chance and finds a victim whenever there is one. -/
structure SecondChance (s : Sys) : Prop where
  finds : (∃ t, pagerEvict s = .success () t) ↔ ∃ f, s.pager.Idle f
  victim : ∀ t, pagerEvict s = .success () t →
    ∃ i, ClockEvicts s.pager t.pager i ∧ t = { s with pager := t.pager }
  otherwise : (∃ t, pagerEvict s = .success () t) ∨ ∃ e, pagerEvict s = .failure { s with
    pager := s.pager.passed (2 * s.pager.size), err := e } ∧ e.code = ENOMEM
  room : ∀ id exclusive, id ≠ 0 → s.pager.locate id = none →
    (LacksRoom id exclusive s ↔ s.pager.occupied.card = s.pager.size - 1 ∧
      ∀ f ∈ s.pager.occupied, (s.pager.header f).latch ≠ 0)

/-- All of it but that the scan finds a victim whenever there is one. -/
theorem pagerEvict_scan (s : Sys) {k : Nat} (h : Ok k s.pager) (htwo : 2 * s.pager.size < 2 ^ 32)
    (hhead : s.pager.evictHead < 2 ^ 32) :
    (∃ i, ClockEvicts s.pager (s.pager.takenAt i) i ∧
      pagerEvict s = .success () { s with pager := s.pager.takenAt i }) ∨
    ((∀ i < 2 * s.pager.size, ¬ s.pager.EvictsAt i) ∧ ∃ e, pagerEvict s = .failure { s with
      pager := s.pager.passed (2 * s.pager.size), err := e } ∧ e.code = ENOMEM) := by
  have hrun : pagerEvict s = pagerEvictLoop (2 * s.pager.size)
      { s with pager := s.pager.passed 0 } := by
    rw [passed_zero hhead]
    simp only [pagerEvict, bind_apply, getPager_apply, Outcome.bind_success,
      Nat.mod_eq_of_lt htwo]
  rw [hrun]
  rcases pagerEvictLoop_scan h.sizePos (2 * s.pager.size) 0 s with
    ⟨i, -, hi, hat, hfirst, htaken⟩ | ⟨hnone, e, hfail, hcode⟩
  · exact Or.inl ⟨i, h.takenAt (by omega) hat fun j hj => hfirst j (Nat.zero_le j) hj, htaken⟩
  · refine Or.inr ⟨fun i hi => hnone i (Nat.zero_le i) (by omega), e, ?_, hcode⟩
    rw [hfail, Nat.zero_add]

/-- With the capacity used up, a failure of `pager_evict` is what `pager_fix`
reports. -/
theorem pagerFix_full {s t : Sys} {id : PageId} (exclusive : Bool) (hsize : 0 < s.pager.size)
    (hlt : s.pager.size < 2 ^ 32) (hid : id ≠ 0) (hnew : s.pager.locate id = none)
    (hfull : s.pager.size - 1 ≤ s.pager.pageCount) (hevict : pagerEvict s = .failure t)
    (hcode : t.err.code ≠ 0) :
    ∃ e, ensureCapacity s = .failure { t with err := e } ∧
      pagerFix id exclusive s = .failure { t with err := e } ∧ e.code = t.err.code := by
  have hlookup : (s.pager.directory (pagerHash s.pager.mask id)).lookup id = none := by
    rw [HashEntry.lookup_eq]
    exact hnew
  have hguard : u32 (s.pager.size - 1) = s.pager.size - 1 := by
    rw [u32_of_bounds] <;> omega
  obtain ⟨e, he, hcode'⟩ := tryCall_failure ⟨"src/pager.c", "pager_fix", 389⟩
    "pager_evict(pager)" hevict hcode
  have hcheck : ensureCapacity s = .failure { t with err := e } := by
    rw [← he]
    simp [ensureCapacity, hguard, hfull]
  refine ⟨e, hcheck, ?_, hcode'⟩
  simp [pagerFix, pagerLookup, hid, hlookup, hcheck]

/-- Room is lacking if the capacity is used up and no page can be evicted. -/
theorem lacksRoom_iff {s : Sys} {id : PageId} (exclusive : Bool) (h : Ok 0 s.pager) (hid : id ≠ 0)
    (hnew : s.pager.locate id = none)
    (hevict : (∃ t, pagerEvict s = .success () t) ∨
      ∃ t, pagerEvict s = .failure t ∧ t.err.code = ENOMEM) :
    LacksRoom id exclusive s ↔ s.pager.occupied.card = s.pager.size - 1 ∧
      ¬ ∃ t, pagerEvict s = .success () t := by
  have hres := h.reserved
  have hcap := h.capacity
  have hlt := h.sizeLt
  have hguard : u32 (s.pager.size - 1) = s.pager.size - 1 := by
    rw [u32_of_bounds] <;> omega
  by_cases hfull : s.pager.size - 1 ≤ s.pager.pageCount
  swap
  · have hcheck : ensureCapacity s = .success () { s with
        pager := { s.pager with pageCount := u32 (s.pager.pageCount + 1) } } := by
      simp [ensureCapacity, hguard, hfull, addPageCount]
    constructor
    · rintro ⟨t, ht, -⟩
      cases hcheck.symm.trans ht
    · rintro ⟨hcard, -⟩
      omega
  rcases hevict with ⟨t, ht⟩ | ⟨t, ht, hcode⟩
  · have hcheck : ensureCapacity s = .success () t := by
      simp [ensureCapacity, hguard, hfull, tryCall_success ht]
    constructor
    · rintro ⟨t', ht', -⟩
      cases hcheck.symm.trans ht'
    · exact fun hlack => absurd ⟨t, ht⟩ hlack.2
  · obtain ⟨e, hcheck, hfix, hcode'⟩ := pagerFix_full exclusive h.sizePos hlt hid hnew hfull ht
      (by rw [hcode]; decide)
    constructor
    · refine fun _ => ⟨by omega, ?_⟩
      rintro ⟨t', ht'⟩
      cases ht.symm.trans ht'
    · exact fun _ => ⟨_, hcheck, hfix, hcode'.trans hcode⟩

/-- The scan is second chance whatever the hand does; it finds a victim as long
as the hand does not skip the idle pages. -/
theorem secondChance_iff {s : Sys} (h : Ok 0 s.pager) (htwo : 2 * s.pager.size < 2 ^ 32)
    (hhead : s.pager.evictHead < 2 ^ 32) : SecondChance s ↔ ¬ s.pager.HandSkips := by
  have hsuccess : (∃ t, pagerEvict s = .success () t) ↔
      (∃ f, s.pager.Idle f) ∧ ¬ s.pager.HandSkips := by
    rw [← exists_evictsAt h.sizeLt]
    rcases pagerEvict_scan s h htwo hhead with ⟨i, hev, hrun⟩ | ⟨hnone, e, hrun, -⟩
    · exact ⟨fun _ => ⟨i, hev.rounds, hev.victim⟩, fun _ => ⟨_, hrun⟩⟩
    · constructor
      · rintro ⟨t, ht⟩
        cases hrun.symm.trans ht
      · rintro ⟨i, hi, hat⟩
        exact absurd hat (hnone i hi)
  constructor
  · exact fun hclock hskip => (hsuccess.mp (hclock.finds.mpr hskip.1)).2 hskip
  · intro hskip
    have hfinds : (∃ t, pagerEvict s = .success () t) ↔ ∃ f, s.pager.Idle f :=
      hsuccess.trans (and_iff_left hskip)
    have hotherwise : (∃ t, pagerEvict s = .success () t) ∨ ∃ e, pagerEvict s = .failure { s with
        pager := s.pager.passed (2 * s.pager.size), err := e } ∧ e.code = ENOMEM := by
      rcases pagerEvict_scan s h htwo hhead with ⟨i, -, hrun⟩ | ⟨-, hrun⟩
      · exact Or.inl ⟨_, hrun⟩
      · exact Or.inr hrun
    refine ⟨hfinds, fun t ht => ?_, hotherwise, fun id exclusive hid hnew => ?_⟩
    · rcases pagerEvict_scan s h htwo hhead with ⟨i, hev, hrun⟩ | ⟨-, e, hrun, -⟩
      · cases hrun.symm.trans ht
        exact ⟨i, hev, rfl⟩
      · cases hrun.symm.trans ht
    · rw [lacksRoom_iff exclusive h hid hnew (hotherwise.imp_right fun ⟨e, he, hc⟩ => ⟨_, he, hc⟩),
        hfinds]
      refine and_congr_right fun _ => ?_
      simp only [Idle, occupied, Finset.mem_filter, Finset.mem_range, not_exists, not_and,
        and_imp]

/-- Put the hand of `pager_evict` somewhere else. -/
def CacheState.atEvictHead (u : CacheState) (head : Nat) : Sys :=
  { u.sys with pager := { u.sys.pager with evictHead := head } }

/-- In every state of a run, and wherever the hand is, `pager_evict` is second
chance and finds a victim whenever there is one, unless the hand skips the idle
pages; and it does not as long as it does not wrap in two rounds. -/
theorem evicts_by_second_chance {s : Sys} (hopen : PagerOpened s) {es : List CacheEvent}
    {u : CacheState} (hrun : Run CacheStep (cacheStart s) es u) (hsize : 0 < u.sys.pager.size)
    {head : Nat} (hhead : head < 2 ^ 32) :
    (SecondChance (u.atEvictHead head) ↔ ¬ (u.atEvictHead head).pager.HandSkips) ∧
      (head + 2 * u.sys.pager.size ≤ 2 ^ 32 ∨ 2 ^ 32 % u.sys.pager.size = 0 →
        ¬ (u.atEvictHead head).pager.HandSkips) := by
  obtain ⟨pageSize, directorySize, hwith⟩ := hopen.openedWith
  obtain ⟨hu, hshape⟩ := hwith.reached (size_pos_of_run hopen hrun hsize) hrun
  have hok : Ok 0 (u.atEvictHead head).pager := (hu.ok.moveEvictHead head).ok
  have htwo : 2 * (u.atEvictHead head).pager.size < 2 ^ 32 := by
    change 2 * u.sys.pager.size < 2 ^ 32
    rw [hshape.size]
    exact hwith.size_lt
  refine ⟨secondChance_iff hok htwo hhead, fun h => not_handSkips ?_⟩
  rw [show (u.atEvictHead head).pager.evictHead = head from rfl, Nat.mod_eq_of_lt hhead]
  exact h

theorem openedWith_five : OpenedWith 16 8 (freshSys 16 8) :=
  ⟨by decide, ⟨0, 1, 2⟩, freshSys 16 8, _, rfl⟩

theorem evicts_by_second_chance_once :
    ∃ es u, Run CacheStep (cacheStart (freshSys 16 8)) es u ∧ (u.sys.pager.ring 0).pageId = 1 ∧
      SecondChance (u.atEvictHead 4) := by
  have hrun : ∃ u, Run CacheStep (cacheStart (freshSys 16 8))
      [.next (some ⟨1, 0⟩), .unfix ⟨1, 0⟩ true] u ∧ u.sys.pager.size = 5 ∧
      (u.sys.pager.ring 0).pageId = 1 :=
    ⟨_, .cons (.next rfl) (.cons (.unfix Nat.one_pos rfl) (.nil _)), rfl, rfl⟩
  obtain ⟨u, hrun, hsize, hpage⟩ := hrun
  have hclock := evicts_by_second_chance openedWith_five.opened hrun (by omega)
    (show 4 < 2 ^ 32 by decide)
  exact ⟨_, u, hrun, hpage, hclock.1.mpr (hclock.2 (Or.inl (by omega)))⟩

/-- Four of five entries hold pages, and only the third page is not fixed. From
`2 ^ 32 - 3` the hand goes over the entries 3, 4, 0, 0, 1, 2, 3, 4, 0, 1: it takes
the second chance of the free page and does not come back to it. -/
theorem hand_skips_free_page :
    ∃ s es u head, PagerOpened s ∧ Run CacheStep (cacheStart s) es u ∧ 0 < u.sys.pager.size ∧
      head < 2 ^ 32 ∧ ¬ SecondChance (u.atEvictHead head) := by
  have hfails : (((cacheStart (freshSys 16 8)).calls [.next, .next, .next, .next,
      .unfix ⟨3, 2⟩ true]).bind fun r => match pagerEvict (r.2.atEvictHead (2 ^ 32 - 3)) with
        | .failure _ => some (decide ((r.2.atEvictHead (2 ^ 32 - 3)).pager.Idle 2))
        | _ => none) = some true := by
    decide +kernel
  obtain ⟨⟨es, u⟩, hcalls, hevict⟩ := Option.bind_eq_some_iff.mp hfails
  dsimp only at hevict
  split at hevict
  · rename_i t ht
    have hidle := of_decide_eq_true (Option.some.inj hevict)
    refine ⟨_, es, u, 2 ^ 32 - 3, openedWith_five.opened, CacheState.calls_run hcalls,
      Nat.zero_lt_of_lt hidle.1, by decide, fun hclock => ?_⟩
    obtain ⟨t', ht'⟩ := hclock.finds.mpr ⟨2, hidle⟩
    cases ht.symm.trans ht'
  · simp at hevict

/-! ### The search of `pager_create` -/

/-- The hand of `pager_create` stops at the latest where it meets a free entry. -/
theorem acquireRingEntry_finds {id : PageId} {n i : Nat} {s : Sys} (hsize : 0 < s.pager.size)
    (hhead : s.pager.createHead < 2 ^ 32) (hi : i < n)
    (hfree : (s.pager.ring (counter (2 ^ 32) s.pager.size s.pager.createHead i)).pageId = 0) :
    ∃ f c, acquireRingEntry id n s = .success f { s with
        pager := (s.pager.setRingId f id).setCreateHead c } ∧
      f < s.pager.size ∧ (s.pager.ring f).pageId = 0 := by
  rcases acquireRingEntry_cases id n s hsize with hfound | hfault
  · exact hfound
  · exfalso
    rcases Nat.eq_zero_or_pos i with rfl | hpos
    · obtain ⟨m, rfl⟩ := Nat.exists_eq_add_one.mpr hi
      rw [counter, Nat.add_zero, Nat.mod_eq_of_lt hhead] at hfree
      have hne : s.pager.size ≠ 0 := by omega
      simp [acquireRingEntry, nextCreateIndex, hne, hfree] at hfault
    · exact acquireRingEntry_hang hsize hfault hi hpos hfree

/-- `pager_fix` of the page `id` comes to call `pager_create` in the state `t`. -/
def EntersCreate (id : PageId) (s t : Sys) : Prop :=
  id ≠ 0 ∧ (s.pager.directory (pagerHash s.pager.mask id)).lookup id = none ∧
    ensureCapacity s = .success () t ∧
    (t.pager.directory (pagerHash s.pager.mask id)).lookup id = none

theorem EntersCreate.pagerFix {id : PageId} {s t : Sys} (h : EntersCreate id s t)
    (exclusive : Bool) : pagerFix id exclusive s = (do
      let frame ← handleForward ⟨"src/pager.c", "pager_fix", 410⟩
        "pager_create(pager, hash_entry, id, &header)"
        (pagerCreate (pagerHash s.pager.mask id) id) subPageCount
      latchPage frame exclusive
      pure (⟨id, frame⟩ : PageRef)) t := by
  obtain ⟨hid, hmiss, hcap, hmiss'⟩ := h
  simp [Wednesday.pagerFix, pagerLookup, hid, hmiss, hcap, hmiss']

/-- Before each call of `pager_fix`, also of the one in `pager_next`, which has
already moved `next_page`. -/
def CacheState.atNextPage (u : CacheState) (next : PageId) : Sys :=
  { u.sys with pager := { u.sys.pager with nextPage := next } }

/-- When `pager_create` is entered, its loop claims a free entry in at most two
rounds, wherever its hand is. -/
theorem create_claims_entry {s : Sys} (hopen : PagerOpened s) {es : List CacheEvent}
    {u : CacheState} (hrun : Run CacheStep (cacheStart s) es u) (hsize : 0 < u.sys.pager.size)
    {next id : PageId} {t : Sys} (henter : EntersCreate id (u.atNextPage next) t) {head : Nat}
    (hhead : head < 2 ^ 32) :
    ∃ f c, acquireRingEntry id (2 * t.pager.size)
        { t with pager := t.pager.setCreateHead head } = .success f { t with
          pager := (t.pager.setRingId f id).setCreateHead c } ∧
      f < t.pager.size ∧ (t.pager.ring f).pageId = 0 := by
  obtain ⟨pageSize, directorySize, hwith⟩ := hopen.openedWith
  have hu := (hwith.reached (size_pos_of_run hopen hrun hsize) hrun).1.moveNextPage next
  obtain ⟨hid, hmiss, hcap, -⟩ := henter
  rw [HashEntry.lookup_eq] at hmiss
  have hok : Ok 1 t.pager := by
    rcases ensureCapacity_cases (u.atNextPage next) hu.ok hid hmiss with
      ⟨p, hroom, hmoved⟩ | ⟨p, e, hfail, -⟩
    · cases hroom.symm.trans hcap
      exact hmoved.ok
    · cases hfail.symm.trans hcap
  obtain ⟨g, hg, hfree⟩ := hok.exists_free
  obtain ⟨i, hi, hvisit⟩ := counter_passes (c := head) hg hok.sizeLt.le
  subst hvisit
  exact acquireRingEntry_finds (s := { t with pager := t.pager.setCreateHead head }) hok.sizePos
    hhead hi hfree

theorem create_claims_entry_once :
    ∃ es u t f c, Run CacheStep (cacheStart (freshSys 16 8)) es u ∧
      EntersCreate 2 (u.atNextPage 2) t ∧
      acquireRingEntry 2 (2 * t.pager.size)
        { t with pager := t.pager.setCreateHead (2 ^ 32 - 1) } = .success f { t with
          pager := (t.pager.setRingId f 2).setCreateHead c } := by
  have hrun : ∃ u t, Run CacheStep (cacheStart (freshSys 16 8)) [.next (some ⟨1, 0⟩)] u ∧
      u.sys.pager.size = 5 ∧ EntersCreate 2 (u.atNextPage 2) t :=
    ⟨_, _, .cons (.next rfl) (.nil _), rfl, by decide, by decide, rfl, by decide⟩
  obtain ⟨u, t, hrun, hsize, henter⟩ := hrun
  obtain ⟨f, c, hclaim, -⟩ := create_claims_entry openedWith_five.opened hrun (by omega) henter
    (show 2 ^ 32 - 1 < 2 ^ 32 by decide)
  exact ⟨_, u, t, f, c, hrun, henter, hclaim⟩

end Wednesday
