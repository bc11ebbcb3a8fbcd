import Wednesday.PagerMaps

/-!
The numbers `pager_open` derives from the size of the directory, and where the
calls use them: as the mask of a hash, as the modulus of a ring index, less one
as the capacity, and as the bound of a loop in `pager_close`.
-/

namespace Wednesday

open Lib Prog Pager

/-! ### Closing a pager -/

/-- What `pager_close` frees. -/
inductive PagerPart where
  | header (index : Nat)
  | ring
  | bucket (h index : Nat)
  | directory
  | pager
deriving DecidableEq, Repr

namespace Pager

/-- `for (uint32_t i = 0; i <= pager->mask; ++i)` of `pager_close`: the entries
it visits from `i` on, if it ends within `n` iterations. -/
def closeDirectory (mask : Nat) : Nat → Nat → Option (List Nat)
  | 0, i => if i ≤ mask then none else some []
  | n + 1, i =>
      if i ≤ mask then (closeDirectory mask n ((i + 1) % 2 ^ 32)).map (i :: ·) else some []

/-- `pager_close`: the parts it frees, in order, if the loop over the directory
ends within `n` iterations. -/
def pagerClose (p : Pager) (n : Nat) : Option (List PagerPart) := do
  let headers := (List.range p.size).filter fun i => (p.ring i).allocated
  let entries ← closeDirectory p.mask n 0
  let buckets := entries.flatMap fun h =>
    (List.range (p.directory h).overflow.length).map (PagerPart.bucket h)
  pure (headers.map .header ++ [.ring] ++ buckets ++ [.directory, .pager])

theorem closeDirectory_from {mask : Nat} (hmask : mask + 1 < 2 ^ 32) (n : Nat) {i : Nat}
    (hi : i + n = mask + 1) : closeDirectory mask n i = some (List.range' i n) := by
  induction n generalizing i with
  | zero => rw [closeDirectory, if_neg (by omega), List.range'_zero]
  | succ n ih =>
      rw [closeDirectory, if_pos (by omega), Nat.mod_eq_of_lt (by omega), ih (by omega),
        List.range'_succ]
      rfl

/-- Under a mask that covers all words the counter never passes it. -/
theorem closeDirectory_endless (n : Nat) {i : Nat} (hi : i < 2 ^ 32) :
    closeDirectory (2 ^ 32 - 1) n i = none := by
  induction n generalizing i with
  | zero => rw [closeDirectory, if_pos (by omega)]
  | succ n ih =>
      rw [closeDirectory, if_pos (by omega), ih (Nat.mod_lt _ (by decide)), Option.map_none]

end Pager

/-! ### The sizes of an opened pager -/

/-- A pager right after `pager_open` with these sizes. -/
def OpenedWith (pageSize directorySize : Nat) (s : Sys) : Prop :=
  directorySize < 2 ^ 32 ∧ ∃ objects s₀ s₁,
    pagerOpen true pageSize directorySize s₀ = .success (objects, s.pager) s₁

variable {pageSize directorySize : Nat} {s : Sys}

theorem OpenedWith.opened (h : OpenedWith pageSize directorySize s) : PagerOpened s := by
  obtain ⟨hlt, objects, s₀, s₁, hval⟩ := h
  exact ⟨pageSize, directorySize, objects, s₀, s₁, hlt, hval⟩

theorem PagerOpened.openedWith (h : PagerOpened s) :
    ∃ pageSize directorySize, OpenedWith pageSize directorySize s := by
  obtain ⟨pageSize, directorySize, objects, s₀, s₁, hlt, hval⟩ := h
  exact ⟨pageSize, directorySize, hlt, objects, s₀, s₁, hval⟩

theorem OpenedWith.pager (h : OpenedWith pageSize directorySize s) :
    s.pager = pagerInit pageSize directorySize := by
  obtain ⟨-, objects, s₀, s₁, hval⟩ := h
  exact pagerOpen_value hval

/-- The bit trick only admits zero and powers of two. -/
theorem OpenedWith.bit_trick (h : OpenedWith pageSize directorySize s) :
    directorySize &&& u32 (directorySize - 1) = 0 := by
  obtain ⟨-, objects, s₀, s₁, hval⟩ := h
  by_contra hne
  obtain ⟨_, _, hguard, -⟩ := Outcome.bind_eq_success.mp hval
  obtain ⟨e, hfail, -⟩ := failure_apply (α := Unit) ⟨"src/pager.c", "pager_open", 116⟩
    (show EINVAL ≠ 0 by decide) ["ensure(directory_size & (directory_size - 1)) == 0"] s₀
  simp [ensure, hne, hfail] at hguard

/-- No word above the largest power of two passes the trick. -/
theorem OpenedWith.directorySize_le (h : OpenedWith pageSize directorySize s) :
    directorySize ≤ 2 ^ 31 := by
  by_contra hgt
  have hlt := h.1
  have htrick := h.bit_trick
  rw [u32_of_bounds (by omega) (by omega)] at htrick
  have hhigh (n : Nat) (hn : 2 ^ 31 ≤ n) (hn' : n < 2 ^ 32) : n.testBit 31 = true := by
    rw [Nat.testBit_eq_decide_div_mod_eq, decide_eq_true_iff]
    omega
  have hbit := congrArg (fun n => Nat.testBit n 31) htrick
  simp only [Nat.testBit_and, hhigh directorySize (by omega) hlt,
    hhigh _ (by omega : 2 ^ 31 ≤ ((directorySize : Int) - 1).toNat) (by omega),
    Nat.zero_testBit] at hbit
  exact absurd hbit (by decide)

theorem OpenedWith.size_lt (h : OpenedWith pageSize directorySize s) :
    2 * s.pager.size < 2 ^ 32 := by
  have hle := h.directorySize_le
  rw [h.pager]
  change 2 * (7 * directorySize / 10) < 2 ^ 32
  omega

/-! ### Calls keep the sizes -/

/-- What an event does to a pager: a page is fixed or refused, after `next_page`
was moved if `pager_next` did it, or a header is written. -/
inductive PagerMove (p : Pager) : CacheEvent → Pager → Prop where
  | fixed {id : PageId} {exclusive : Bool} {f : Nat} {p' : Pager}
      (h : Fixed p p' id exclusive f) : PagerMove p (.fix id exclusive (some ⟨id, f⟩)) p'
  | refused {id : PageId} {exclusive : Bool} {p' : Pager} (h : Refused p p' id) :
      PagerMove p (.fix id exclusive none) p'
  | next {f : Nat} {p' : Pager}
      (h : Fixed { p with nextPage := (p.nextPage + 1) % 2 ^ 32 } p' p.nextPage true f) :
      PagerMove p (.next (some ⟨p.nextPage, f⟩)) p'
  | nextRefused {p' : Pager}
      (h : Refused { p with nextPage := (p.nextPage + 1) % 2 ^ 32 } p' p.nextPage) :
      PagerMove p (.next none) p'
  | unfix {page : PageRef} {exclusive : Bool} (header : Frame) :
      PagerMove p (.unfix page exclusive) (p.setHeader page.frame header)
  | write {page : PageRef} {data : Mem} (header : Frame) :
      PagerMove p (.write page data) (p.setHeader page.frame header)

theorem CacheOk.moves {id : PageId} {s t : CacheState} {e : CacheEvent} (h : CacheOk id s)
    (hstep : CacheStep s e t) : PagerMove s.sys.pager e t.sys.pager := by
  have hmove := h.moveNextPage ((s.sys.pager.nextPage + 1) % 2 ^ 32)
  cases hstep with
  | fix hrun =>
      rename_i j exclusive page sys
      rcases pagerFix_cases j exclusive s.sys h.ok with
        ⟨f, p, heap, hrun', hfix⟩ | ⟨p, err, heap, hrun', -⟩ | ⟨hrun', -⟩ <;>
        cases hrun'.symm.trans hrun
      exact .fixed hfix
  | fixRefused hrun =>
      rename_i j exclusive sys
      rcases pagerFix_cases j exclusive s.sys h.ok with
        ⟨f, p, heap, hrun', -⟩ | ⟨p, err, heap, hrun', -, href⟩ | ⟨hrun', -⟩ <;>
        cases hrun'.symm.trans hrun
      exact .refused href
  | next hrun =>
      rename_i page sys
      rw [pagerNext_apply] at hrun
      rcases pagerFix_cases s.sys.pager.nextPage true _ hmove.ok with
        ⟨f, p, heap, hrun', hfix⟩ | ⟨p, err, heap, hrun', -⟩ | ⟨hrun', -⟩ <;>
        cases hrun'.symm.trans hrun
      exact .next hfix
  | nextRefused hrun =>
      rename_i sys
      rw [pagerNext_apply] at hrun
      rcases pagerFix_cases s.sys.pager.nextPage true _ hmove.ok with
        ⟨f, p, heap, hrun', -⟩ | ⟨p, err, heap, hrun', -, href⟩ | ⟨hrun', -⟩ <;>
        cases hrun'.symm.trans hrun
      exact .nextRefused href
  | unfix hheld hrun =>
      rename_i page exclusive sys
      obtain ⟨hpid, hloc⟩ := h.held.there page exclusive hheld
      rw [pagerUnfix_apply page s.sys (h.ok.latchOk hpid hloc)] at hrun
      split at hrun
      · obtain rfl : _ = sys := by simpa using hrun
        exact .unfix _
      · simp at hrun
  | write data hheld => exact .write _

theorem PagerMove.sameShape {p p' : Pager} {e : CacheEvent} (h : PagerMove p e p') :
    SameShape p p' := by
  cases h with
  | fixed h => exact h.shape
  | refused h => exact h.shape
  | next h => exact ⟨h.shape.pageSize, h.shape.size, h.shape.mask⟩
  | nextRefused h => exact ⟨h.shape.pageSize, h.shape.size, h.shape.mask⟩
  | unfix header => exact ⟨rfl, rfl, rfl⟩
  | write header => exact ⟨rfl, rfl, rfl⟩

/-- Page ids stay page ids. -/
theorem PagerMove.nextPage_lt {p p' : Pager} {e : CacheEvent} (h : PagerMove p e p')
    (hlt : p.nextPage < 2 ^ 32) : p'.nextPage < 2 ^ 32 := by
  have hround : (p.nextPage + 1) % 2 ^ 32 < 2 ^ 32 := Nat.mod_lt _ (by decide)
  cases h with
  | fixed h => exact h.nextPage ▸ hlt
  | refused h => exact h.nextPage ▸ hlt
  | next h => exact h.nextPage ▸ hround
  | nextRefused h => exact h.nextPage ▸ hround
  | unfix header => exact hlt
  | write header => exact hlt

/-- A pager opened without frames never gets one. -/
theorem size_pos_of_run (h : PagerOpened s) {es : List CacheEvent} {u : CacheState}
    (hrun : Run CacheStep (cacheStart s) es u) (hpos : 0 < u.sys.pager.size) :
    0 < s.pager.size := by
  rcases cacheRun_ok_all h (.nil _) with hs | hs
  · exact hs.ok.sizePos
  · have hzero : u.sys.pager.size = 0 :=
      (hrun.invariant (I := Unused) (fun _ _ _ hs hstep => hs.step hstep) hs).frames.size
    omega

/-- A pager with frames stays well formed, and as large as it was opened. -/
theorem OpenedWith.reached (h : OpenedWith pageSize directorySize s) (hpos : 0 < s.pager.size)
    {es : List CacheEvent} {u : CacheState} (hrun : Run CacheStep (cacheStart s) es u) :
    CacheOk 0 u ∧ SameShape s.pager u.sys.pager := by
  have hstart : CacheOk 0 (cacheStart s) := by
    rcases cacheRun_ok_all h.opened (.nil _) with hu | hu
    · exact hu
    · have hzero : s.pager.size = 0 := hu.frames.size
      omega
  apply hrun.invariant (I := fun u => CacheOk 0 u ∧ SameShape s.pager u.sys.pager)
    (fun s' e t hs hstep => ?_) ⟨hstart, .refl _⟩
  exact ⟨hs.1.step_all hstep, hs.2.trans (hs.1.moves hstep).sameShape⟩

/-! ### Safe configurations -/

/-- The indices, moduli and bounds the calls derive from the sizes are what
they are meant to be: an entry of the directory, an entry of the ring, a
capacity below the size, a loop over the directory that ends. -/
structure ConfigSafe (directorySize : Nat) (s : Sys) : Prop where
  hashIndex : ∀ id, pagerHash s.pager.mask id < directorySize
  ringIndex : ∀ head, head % s.pager.size < s.pager.size
  modulus : s.pager.size ≠ 0
  noZeroModulo : (∀ id exclusive, pagerFix id exclusive s ≠ .fault .ringEmpty) ∧
    pagerNext s ≠ .fault .ringEmpty
  capacity : (u32 (s.pager.size - 1) : Int) = s.pager.size - 1
  closes : closeDirectory s.pager.mask directorySize 0 = some (List.range directorySize) ∧
    (s.pager.pagerClose directorySize).isSome

theorem pagerHash_le (mask : Nat) (id : PageId) : pagerHash mask id ≤ mask := Nat.and_le_right

theorem CacheOk.ne_ringEmpty {id : PageId} {u : CacheState} (h : CacheOk id u) (j : PageId)
    (exclusive : Bool) : pagerFix j exclusive u.sys ≠ .fault .ringEmpty := by
  intro hfault
  rcases pagerFix_cases j exclusive u.sys h.ok with
    ⟨f, p, heap, hrun, -⟩ | ⟨p, err, heap, hrun, -⟩ | ⟨hrun, -⟩ <;>
    cases hrun.symm.trans hfault

theorem OpenedWith.safe (h : OpenedWith pageSize directorySize s) (htwo : 2 ≤ directorySize)
    {es : List CacheEvent} {u : CacheState} (hrun : Run CacheStep (cacheStart s) es u) :
    ConfigSafe directorySize u.sys := by
  have hlt := h.1
  have hsize : s.pager.size = 7 * directorySize / 10 := by
    rw [h.pager]
    rfl
  have hmask : s.pager.mask = directorySize - 1 := by
    rw [h.pager]
    change u32 (directorySize - 1) = directorySize - 1
    rw [u32_of_bounds] <;> omega
  obtain ⟨hu, hshape⟩ := h.reached (by omega) hrun
  have hsize' := hshape.size.trans hsize
  have hmask' := hshape.mask.trans hmask
  have hpos : 0 < u.sys.pager.size := by omega
  have hloop : closeDirectory u.sys.pager.mask directorySize 0 =
      some (List.range directorySize) := by
    rw [closeDirectory_from (by omega) directorySize (by omega), List.range_eq_range']
  constructor
  · intro id
    have := pagerHash_le u.sys.pager.mask id
    omega
  · exact fun head => Nat.mod_lt head hpos
  · exact Nat.pos_iff_ne_zero.mp hpos
  · refine ⟨hu.ne_ringEmpty, ?_⟩
    rw [pagerNext_apply]
    exact (hu.moveNextPage _).ne_ringEmpty _ true
  · rw [u32_of_bounds (by omega) (by omega)]
    omega
  · exact ⟨hloop, by simp [pagerClose, hloop]⟩

/-- The sizes are safe in every run if there are at least two directory
entries, and otherwise not even at its start. -/
theorem opened_config_safe (h : OpenedWith pageSize directorySize s) :
    (∀ es u, Run CacheStep (cacheStart s) es u → ConfigSafe directorySize u.sys) ↔
      2 ≤ directorySize := by
  constructor
  · intro hsafe
    have hnil := (hsafe [] _ (.nil _)).modulus
    change s.pager.size ≠ 0 at hnil
    rw [h.pager] at hnil
    change 7 * directorySize / 10 ≠ 0 at hnil
    omega
  · exact fun htwo es u hrun => h.safe htwo hrun

theorem openedWith_freshSys : OpenedWith 16 4 (freshSys 16 4) :=
  ⟨by decide, ⟨0, 1, 2⟩, freshSys 16 4, _, rfl⟩

theorem opened_config_safe_once :
    (∀ es u, Run CacheStep (cacheStart (freshSys 16 4)) es u → ConfigSafe 4 u.sys) ↔ 2 ≤ 4 :=
  opened_config_safe openedWith_freshSys

/-- One directory entry gives a ring without entries: `pager_open` succeeds,
and the first page fixed is looked for modulo zero. -/
theorem single_entry_divides_by_zero :
    OpenedWith 16 1 (freshSys 16 1) ∧
      ¬ ∀ es u, Run CacheStep (cacheStart (freshSys 16 1)) es u → ConfigSafe 1 u.sys := by
  refine ⟨⟨by decide, ⟨0, 1, 2⟩, freshSys 16 1, _, rfl⟩, fun hsafe => ?_⟩
  exact (hsafe [] _ (.nil _)).noZeroModulo.1 1 false (by rfl)

/-- Without directory entries the loop of `pager_close` does not end. -/
theorem empty_directory_never_closes (n : Nat) : (pagerInit pageSize 0).pagerClose n = none := by
  have hmask : (pagerInit pageSize 0).mask = 2 ^ 32 - 1 := by
    change u32 (0 - 1) = 2 ^ 32 - 1
    decide
  have hloop : closeDirectory (pagerInit pageSize 0).mask n 0 = none := by
    rw [hmask]
    exact closeDirectory_endless n (by decide)
  simp [pagerClose, hloop]

end Wednesday
