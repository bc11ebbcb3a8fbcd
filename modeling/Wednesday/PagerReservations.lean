import Mathlib.Algebra.BigOperators.Group.Finset.Piecewise
import Wednesday.PagerFrames

/-!
What `page_count` counts: the ring entries in use, and the clients that reserved
one, by the counter or by an eviction, and have neither filled nor given it back.
-/

namespace Wednesday

open Lib SharedPager

/-- The ring entries that carry a page. -/
def SharedPager.occupied (s : SharedPager) : Nat :=
  ((Finset.range s.size).filter fun f => s.ringId f ≠ 0).card

/-- The client reserved a ring entry that it has not filled and not given back. -/
def Point.reserved : Point → Bool
  | .fix _ p =>
      match p with
      | .writeEntry | .relookup | .pageLatch .retry _ | .pageFlag .retry _ | .subCount _ => true
      | _ => false
  | .create _ p =>
      match p with
      | .assert | .index | .exchange _ => true
      | _ => false
  | .evict _ _ p =>
      match p with
      | .assert _ _ .done | .drop _ _ .done => true
      | _ => false
  | _ => false

def Client.reservation (c : Client) : Nat := if c.point.reserved then 1 else 0

/-- The client looks for a free ring entry in `pager_create`. -/
def Point.searching : Point → Bool
  | .create _ p =>
      match p with
      | .assert | .index | .exchange _ => true
      | _ => false
  | _ => false

variable {κ : Type} [Fintype κ]

def Threads.reservations (s : Threads κ) : Nat :=
  (Finset.univ.filter fun c => (s.client c).point.reserved = true).card

/-- The counter is right, and there is a free ring entry for everybody who looks
for one. -/
structure Accounted (s : Threads κ) : Prop where
  count : s.shared.pageCount = s.shared.occupied + s.reservations
  bound : s.shared.pageCount ≤ s.shared.size - 1
  free : ∀ c, (s.client c).point.searching = true → ∃ f < s.shared.size, s.shared.ringId f = 0

/-- A step of `pager_fix`, `pager_next` or `pager_unfix`: nobody calls
`pager_evict` directly. An assertion that fails ends the process. -/
def FixStep [DecidableEq κ] (s : Threads κ) (e : ThreadEvent κ) (t : Threads κ) : Prop :=
  ThreadStep s e t ∧ (∀ c, e ≠ .start c .evict) ∧ ∀ c, (s.client c).point ≠ .aborted

/-! ### The ring -/

section Ring

variable {s : SharedPager} {f : Nat} {id : PageId}

/-- A free entry is taken. -/
theorem occupied_take (hf : f < s.size) (hfree : s.ringId f = 0) (hid : id ≠ 0) :
    (s.setRingId f id).occupied = s.occupied + 1 := by
  have hset : ((Finset.range s.size).filter fun g => (s.setRingId f id).ringId g ≠ 0) =
      insert f ((Finset.range s.size).filter fun g => s.ringId g ≠ 0) := by
    ext g
    rw [Finset.mem_insert, Finset.mem_filter, Finset.mem_filter, Finset.mem_range]
    by_cases hg : g = f
    · subst hg
      simp [setRingId, hid, hf]
    · simp [setRingId, hg]
  rw [occupied, occupied]
  change ((Finset.range s.size).filter fun g => (s.setRingId f id).ringId g ≠ 0).card = _
  rw [hset, Finset.card_insert_of_notMem (by simp [hfree])]

/-- An entry in use is freed. -/
theorem occupied_clear (hf : f < s.size) (hused : s.ringId f ≠ 0) :
    (s.setRingId f 0).occupied + 1 = s.occupied := by
  have hset : ((Finset.range s.size).filter fun g => (s.setRingId f 0).ringId g ≠ 0) =
      ((Finset.range s.size).filter fun g => s.ringId g ≠ 0).erase f := by
    ext g
    rw [Finset.mem_erase, Finset.mem_filter, Finset.mem_filter, Finset.mem_range]
    by_cases hg : g = f
    · subst hg
      simp [setRingId]
    · simp [setRingId, hg]
  have hmem : f ∈ (Finset.range s.size).filter fun g => s.ringId g ≠ 0 := by
    simp [hf, hused]
  rw [occupied, occupied]
  change ((Finset.range s.size).filter fun g => (s.setRingId f 0).ringId g ≠ 0).card + 1 = _
  rw [hset, Finset.card_erase_add_one hmem]

theorem ringId_setRingId_ne {g : Nat} (hg : g ≠ f) : (s.setRingId f id).ringId g = s.ringId g :=
  Function.update_of_ne hg ..

theorem exists_free (h : s.occupied < s.size) : ∃ f < s.size, s.ringId f = 0 := by
  by_contra hnone
  push Not at hnone
  have hall : ((Finset.range s.size).filter fun f => s.ringId f ≠ 0) = Finset.range s.size :=
    Finset.filter_true_of_mem fun f hf => hnone f (Finset.mem_range.mp hf)
  rw [occupied, hall, Finset.card_range] at h
  exact lt_irrefl _ h

end Ring

/-! ### One step -/

/-- What a client knows at its point about the size of the ring. -/
def Point.Within (size : Nat) : Point → Prop
  | .fix _ (.exchangeCount count) => count < size - 1
  | .create _ (.exchange f) => f < size
  | .evict caller _ _ => caller ≠ none
  | _ => True

/-- What the steps of the clients need of the shared memory. -/
structure Countable (s : SharedPager) : Prop where
  size : 1 ≤ s.size
  small : s.size < 2 ^ 32
  bound : s.pageCount ≤ s.size - 1
  inside : ∀ f, s.ringId f ≠ 0 → f < s.size

/-- The counter changes by as much as the entries in use and the reservation of
the client. -/
structure Balances (s : SharedPager) (cl : Client) (next : SharedPager × Client) : Prop where
  size : next.1.size = s.size
  balance : next.1.pageCount + s.occupied + cl.reservation =
    s.pageCount + next.1.occupied + next.2.reservation
  bound : next.1.pageCount ≤ s.size - 1
  inside : ∀ f, next.1.ringId f ≠ 0 → f < s.size
  within : next.2.point.Within s.size

section Step

variable {s s' : SharedPager} {cl cl' : Client} {held : List (PageRef × Bool)} {ok : Bool}
  {next : SharedPager × Client}

/-- A step that touches neither the counter nor the ring, of a client that keeps
its reservation. -/
theorem Balances.same (hs : Countable s) (hcount : s'.pageCount = s.pageCount)
    (hsize : s'.size = s.size) (hring : s'.ringId = s.ringId)
    (hreserved : cl'.point.reserved = cl.point.reserved) (hwithin : cl'.point.Within s.size) :
    Balances s cl (s', cl') where
  size := hsize
  balance := by
    rw [Client.reservation, Client.reservation, hreserved, occupied, occupied, hsize, hring, hcount]
  bound := hcount.trans_le hs.bound
  inside f hf := hs.inside f (hring ▸ hf)
  within := hwithin

/-- A ring entry in use is freed, and becomes the reservation of the client. -/
theorem Balances.clear {f : Nat} {id : PageId} (hs : Countable s) (hring : s.ringId f = id)
    (hid : id ≠ 0) (hold : cl.point.reserved = false) (hnew : cl'.point.reserved = true)
    (hwithin : cl'.point.Within s.size) : Balances s cl (s.setRingId f 0, cl') where
  size := rfl
  balance := by
    have hused : s.ringId f ≠ 0 := hring.trans_ne hid
    have hclear := occupied_clear (hs.inside f hused) hused
    rw [Client.reservation, Client.reservation, hold, hnew]
    change s.pageCount + s.occupied + 0 = s.pageCount + (s.setRingId f 0).occupied + 1
    omega
  bound := hs.bound
  inside g hg := by
    by_cases hgf : g = f
    · subst hgf
      exact absurd (Function.update_self ..) hg
    · exact hs.inside g fun hzero => hg ((ringId_setRingId_ne hgf).trans hzero)
  within := hwithin

theorem reserved_afterCount (r : FixCall) (count : Nat) :
    (cl.afterCount s r count).point.reserved = false := by
  rw [Client.afterCount]
  split <;> rfl

theorem within_afterCount (hs : Countable s) (r : FixCall) (count : Nat) :
    (cl.afterCount s r count).point.Within s.size := by
  have hsize := hs.size
  have hsmall := hs.small
  have hmod : u32 ((s.size : Int) - 1) = s.size - 1 := by
    simp only [u32]
    omega
  rw [Client.afterCount, hmod]
  split
  · exact Option.some_ne_none r
  · exact Nat.lt_of_not_le (by assumption)

theorem reserved_afterLatch (path : Path) (r : FixCall) (f : Nat) :
    (cl.afterLatch path r f).point.reserved = decide (path = .retry) := by
  cases path <;> rfl

theorem within_afterLatch (path : Path) (r : FixCall) (f size : Nat) :
    (cl.afterLatch path r f).point.Within size := by
  cases path <;> trivial

theorem balances_start {call : PagerCall} (hs : Countable s) (hidle : cl.point = .idle)
    (hcall : call ≠ .evict) (h : cl.start s call = some next) : Balances s cl next := by
  have hreserved : cl.point.reserved = false := by
    rw [hidle]
    rfl
  cases call with
  | evict => exact absurd rfl hcall
  | fix id exclusive =>
      rw [Client.start] at h
      split at h
      · cases h
        exact .same hs rfl rfl rfl rfl (by rw [hidle]; trivial)
      · cases h
        exact .same hs rfl rfl rfl hreserved.symm trivial
  | next =>
      rw [Client.start] at h
      split at h
      · cases h
        exact .same hs rfl rfl rfl rfl (by rw [hidle]; trivial)
      · cases h
        exact .same hs rfl rfl rfl hreserved.symm trivial
  | unfix i =>
      obtain ⟨p, -, rfl⟩ := Option.map_eq_some_iff.mp h
      exact .same hs rfl rfl rfl hreserved.symm trivial

theorem balances_fixStep {r : FixCall} {p : FixPoint} (hs : Countable s)
    (hword : ∀ h, Point.entry s.mask (.fix r p) = some (h, true) → s.entryLatch h = -1)
    (hreserved : (⟨.fix r p, held⟩ : Client).reservation ≤ s.pageCount)
    (hwithin : Point.Within s.size (.fix r p))
    (h : Client.fixStep s ⟨.fix r p, held⟩ ok r p = some next) :
    Balances s ⟨.fix r p, held⟩ next := by
  cases p with
  | readEntry =>
      obtain ⟨word, -, rfl⟩ := Option.map_eq_some_iff.mp h
      exact .same hs rfl rfl rfl rfl trivial
  | lookup =>
      rw [Client.fixStep] at h
      split at h
      · cases h
        exact .same hs rfl rfl rfl rfl trivial
      · split at h <;> cases h <;> exact .same hs rfl rfl rfl rfl trivial
  | pageLatch path f =>
      obtain ⟨word, -, rfl⟩ := Option.map_eq_some_iff.mp h
      cases hr : r.exclusive with
      | true =>
          refine .same hs rfl rfl rfl ?_ ?_
          · rw [if_pos rfl]
            cases path <;> rfl
          · rw [if_pos rfl]
            trivial
      | false =>
          refine .same hs rfl rfl rfl ?_ ?_
          · rw [if_neg Bool.false_ne_true, reserved_afterLatch]
            cases path <;> rfl
          · rw [if_neg Bool.false_ne_true]
            exact within_afterLatch ..
  | pageFlag path f =>
      cases h
      refine .same hs rfl rfl rfl ?_ (within_afterLatch ..)
      rw [reserved_afterLatch]
      cases path <;> rfl
  | readAssert result =>
      rw [Client.fixStep] at h
      split at h <;> cases h <;> exact .same hs rfl rfl rfl rfl trivial
  | readDrop result =>
      cases h
      cases result <;> exact .same hs rfl rfl rfl rfl trivial
  | loadCount =>
      cases h
      exact .same hs rfl rfl rfl (reserved_afterCount ..) (within_afterCount hs ..)
  | exchangeCount count =>
      rw [Client.fixStep] at h
      split at h
      · rename_i hx
        cases h
        -- the exchange succeeded, so the count is still the one compared with the size
        have hlt : count < s.size - 1 := hwithin
        have hsmall := hs.small
        have hmod : u32 ((count : Int) + 1) = count + 1 := by
          simp only [u32]
          omega
        refine ⟨rfl, ?_, ?_, hs.inside, trivial⟩
        · change u32 ((count : Int) + 1) + s.occupied + 0 = s.pageCount + s.occupied + 1
          rw [hmod, hx.2]
          omega
        · change u32 ((count : Int) + 1) ≤ s.size - 1
          rw [hmod]
          exact hlt
      · cases h
        exact .same hs rfl rfl rfl (reserved_afterCount ..) (within_afterCount hs ..)
  | writeEntry =>
      obtain ⟨word, -, rfl⟩ := Option.map_eq_some_iff.mp h
      exact .same hs rfl rfl rfl rfl trivial
  | relookup =>
      have hlatched : s.entryLatch (s.hash r.id) = -1 := hword _ rfl
      rw [Client.fixStep, hlatched, if_neg (by decide)] at h
      split at h <;> cases h <;> exact .same hs rfl rfl rfl rfl trivial
  | subCount result =>
      cases h
      -- the reservation is this client's own, so the counter is at least one
      have hpos : 1 ≤ s.pageCount := hreserved
      have hbound := hs.bound
      have hsmall := hs.small
      have hmod : u32 ((s.pageCount : Int) - 1) = s.pageCount - 1 := by
        simp only [u32]
        omega
      refine ⟨rfl, ?_, ?_, hs.inside, trivial⟩
      · change u32 ((s.pageCount : Int) - 1) + s.occupied + 1 = s.pageCount + s.occupied + 0
        rw [hmod]
        omega
      · change u32 ((s.pageCount : Int) - 1) ≤ s.size - 1
        rw [hmod]
        omega
  | writeAssert result =>
      rw [Client.fixStep] at h
      split at h <;> cases h <;> exact .same hs rfl rfl rfl rfl trivial
  | writeDrop result =>
      cases h
      cases result <;> exact .same hs rfl rfl rfl rfl trivial

theorem balances_createStep {r : FixCall} {p : CreatePoint} (hs : Countable s)
    (hword : s.entryLatch (s.hash r.id) = -1) (hfact : (p.fact r).Holds s) (hid : r.id ≠ 0)
    (hwithin : Point.Within s.size (.create r p))
    (h : Client.createStep s ⟨.create r p, held⟩ ok r p = some next) :
    Balances s ⟨.create r p, held⟩ next := by
  cases p with
  | assert =>
      rw [Client.createStep, hword, if_pos (by decide)] at h
      cases h
      exact .same hs rfl rfl rfl rfl trivial
  | index =>
      rw [Client.createStep, if_neg (Nat.one_le_iff_ne_zero.mp hs.size)] at h
      cases h
      exact .same hs rfl rfl rfl rfl (Nat.mod_lt _ hs.size)
  | exchange f =>
      rw [Client.createStep] at h
      split at h
      · rename_i hx
        cases h
        have hf : f < s.size := hwithin
        refine ⟨rfl, ?_, hs.bound, fun g hg => ?_, trivial⟩
        · change s.pageCount + s.occupied + 1 = s.pageCount + (s.setRingId f r.id).occupied + 0
          rw [occupied_take hf hx.2 hid]
          omega
        · by_cases hgf : g = f
          · exact hgf ▸ hf
          · exact hs.inside g fun hzero => hg ((ringId_setRingId_ne hgf).trans hzero)
      · cases h
        exact .same hs rfl rfl rfl rfl trivial
  | flags f =>
      rw [Client.createStep] at h
      split at h <;> cases h <;> exact .same hs rfl rfl rfl rfl trivial
  | latch f =>
      cases h
      exact .same hs rfl rfl rfl rfl trivial
  | insert f =>
      rw [Client.createStep, hword, if_neg (by decide)] at h
      split at h <;> cases h <;> exact .same hs rfl rfl rfl rfl trivial
  | undo f =>
      cases h
      exact .clear hs hfact.ring hfact.ne rfl rfl trivial

theorem balances_evictStep {caller : Option FixCall} {n : Nat} {p : EvictPoint} (hs : Countable s)
    (hword : ∀ id, p.latched = some id → s.entryLatch (s.hash id) = -1)
    (hfact : p.fact.Holds s) (hcaller : caller ≠ none)
    (h : Client.evictStep s ⟨.evict caller n p, held⟩ caller n p = some next) :
    Balances s ⟨.evict caller n p, held⟩ next := by
  cases p with
  | next =>
      cases n with
      | zero =>
          cases h
          exact .same hs rfl rfl rfl rfl trivial
      | succ n =>
          cases h
          exact .same hs rfl rfl rfl rfl hcaller
  | load f =>
      rw [Client.evictStep] at h
      split at h <;> cases h <;> exact .same hs rfl rfl rfl rfl hcaller
  | entry f id =>
      obtain ⟨word, -, rfl⟩ := Option.map_eq_some_iff.mp h
      exact .same hs rfl rfl rfl rfl hcaller
  | exchange f id =>
      rw [Client.evictStep] at h
      split at h <;> cases h <;> exact .same hs rfl rfl rfl rfl hcaller
  | available f id =>
      rw [Client.evictStep] at h
      split at h <;> cases h <;> exact .same hs rfl rfl rfl rfl hcaller
  | flags f id =>
      rw [Client.evictStep] at h
      split at h <;> cases h <;> exact .same hs rfl rfl rfl rfl hcaller
  | spend f id =>
      cases h
      exact .same hs rfl rfl rfl rfl hcaller
  | reload f id =>
      cases h
      exact .same hs rfl rfl rfl rfl hcaller
  | remove f id ringId =>
      rw [Client.evictStep, hword id rfl, if_neg (by decide)] at h
      cases h
      exact .same hs rfl rfl rfl rfl hcaller
  | store f id =>
      cases h
      -- the frame leaves the ring, and its reservation goes to the caller
      exact .clear hs hfact.ring hfact.ne rfl rfl hcaller
  | assert f id after =>
      rw [Client.evictStep, if_pos (hword id rfl)] at h
      cases h
      cases after <;> exact .same hs rfl rfl rfl rfl hcaller
  | drop f id after =>
      cases h
      cases after with
      | reload id =>
          rw [Client.afterDrop]
          split <;> exact .same hs rfl rfl rfl rfl hcaller
      | again => exact .same hs rfl rfl rfl rfl hcaller
      | done =>
          cases caller with
          | none => exact absurd rfl hcaller
          | some r => exact .same hs rfl rfl rfl rfl trivial

theorem balances_unfixStep {page : PageRef} {exclusive : Bool} {p : UnfixPoint} (hs : Countable s)
    (h : Client.unfixStep s ⟨.unfix page exclusive p, held⟩ page exclusive p = some next) :
    Balances s ⟨.unfix page exclusive p, held⟩ next := by
  cases p with
  | store =>
      cases h
      exact .same hs rfl rfl rfl rfl trivial
  | write =>
      cases h
      exact .same hs rfl rfl rfl rfl trivial
  | setRef =>
      cases h
      exact .same hs rfl rfl rfl rfl trivial
  | read =>
      cases h
      exact .same hs rfl rfl rfl rfl trivial
  | _ =>
      rw [Client.unfixStep] at h
      split at h <;> cases h <;> exact .same hs rfl rfl rfl rfl trivial

/-- A client that meets a jammed latch aborts. -/
theorem aborted_of_jams (hjam : cl.jams s = true) (h : cl.step s ok = some next) :
    next.2.point = .aborted := by
  obtain ⟨point, held⟩ := cl
  cases point with
  | fix r p =>
      cases p with
      | readAssert result =>
          have hword : s.entryLatch (s.hash r.id) = jammed := of_decide_eq_true hjam
          have hneg : ¬ 0 < s.entryLatch (s.hash r.id) := by
            rw [hword]
            decide
          cases (if_neg hneg).symm.trans h
          rfl
      | _ => cases hjam
  | unfix page exclusive p =>
      cases p with
      | readAssert =>
          have hword : s.latch page.frame = jammed := of_decide_eq_true hjam
          have hneg : ¬ 0 < s.latch page.frame := by
            rw [hword]
            decide
          cases (if_neg hneg).symm.trans h
          rfl
      | _ => cases hjam
  | _ => cases hjam

end Step

/-! ### Runs -/

/-- The invariant of the counter. -/
structure Threads.Ledger (s : Threads κ) : Prop where
  countable : Countable s.shared
  count : s.shared.pageCount = s.shared.occupied + s.reservations
  within : ∀ c, (s.client c).point.Within s.shared.size

namespace Threads

variable {s t : Threads κ} {c : κ}

theorem reservations_eq (s : Threads κ) : s.reservations = total Client.reservation s.client :=
  Finset.card_filter ..

theorem Ledger.accounted (hs : s.Ledger) : Accounted s where
  count := hs.count
  bound := hs.countable.bound
  free c hc := by
    refine exists_free ?_
    have hreserved : (s.client c).point.reserved = true := by
      revert hc
      cases (s.client c).point with
      | create r p => exact id
      | _ => simp [Point.searching]
    have hpos : 0 < s.reservations :=
      Finset.card_pos.mpr ⟨c, Finset.mem_filter.mpr ⟨Finset.mem_univ c, hreserved⟩⟩
    have hcount := hs.count
    have hbound := hs.countable.bound
    have hsize := hs.countable.size
    omega

section

variable [DecidableEq κ]

theorem Ledger.set (hs : s.Ledger) {next : SharedPager × Client}
    (hb : Balances s.shared (s.client c) next) : (s.set c next).Ledger := by
  obtain ⟨rest, hold, hnew⟩ := exists_total_update Client.reservation s.client c
  have hcount := hs.count
  have hbalance := hb.balance
  rw [reservations_eq, hold] at hcount
  have hs' : (s.set c next).shared = next.1 := rfl
  refine ⟨⟨?_, ?_, ?_, fun f hf => ?_⟩, ?_, fun d => ?_⟩
  · rw [hs', hb.size]
    exact hs.countable.size
  · rw [hs', hb.size]
    exact hs.countable.small
  · rw [hs', hb.size]
    exact hb.bound
  · rw [hs', hb.size]
    exact hb.inside f hf
  · have hreserved : (s.set c next).reservations = next.2.reservation + rest :=
      (reservations_eq _).trans (hnew next.2)
    rw [hs', hreserved]
    omega
  · rw [hs', hb.size]
    change ((Function.update s.client c next.2) d).point.Within s.shared.size
    by_cases hd : d = c
    · subst hd
      rw [Function.update_self]
      exact hb.within
    · rw [Function.update_of_ne hd]
      exact hs.within d

theorem Ledger.step {e : ThreadEvent κ} (hs : s.Ledger) (hinv : s.Inv) (h : ThreadStep s e t)
    (hcall : ∀ c, e ≠ .start c .evict) : t.Ledger := by
  cases h with
  | @start c call next hidle h =>
      exact hs.set (balances_start hs.countable hidle (fun heq => hcall c (heq ▸ rfl)) h)
  | @step c ok next h =>
      refine hs.set ?_
      have hc := hinv.consistent
      have hpoint := hinv.points c
      have hwithin := hs.within c
      have hle : (s.client c).reservation ≤ s.shared.pageCount := by
        obtain ⟨rest, hold, -⟩ := exists_total_update Client.reservation s.client c
        have hcount := hs.count
        rw [reservations_eq, hold] at hcount
        omega
      have hfact : (s.client c).point.fact.Holds s.shared := hc.facts.holds c
      have hword : ∀ h, (s.client c).point.entry s.shared.mask = some (h, true) →
          s.shared.entryLatch h = -1 := fun h hentry => hc.write_word (c := c) hentry
      generalize s.client c = cl at h hpoint hwithin hle hfact hword ⊢
      obtain ⟨p, held⟩ := cl
      cases p with
      | idle => cases h
      | aborted => cases h
      | fix r p => exact balances_fixStep hs.countable hword hle hwithin h
      | create r p => exact balances_createStep hs.countable (hword _ rfl) hfact hpoint hwithin h
      | evict caller n p =>
          refine balances_evictStep hs.countable (fun id hid => hword _ ?_) hfact hwithin h
          exact congrArg (Option.map fun id => (pagerHash s.shared.mask id, true)) hid
      | unfix page exclusive p => exact balances_unfixStep hs.countable h

/-- While no assertion has failed, the clients follow the protocol. -/
theorem inv_or_aborted {e : ThreadEvent κ} (hinv : s.Inv) (h : ThreadStep s e t) :
    t.Inv ∨ ∃ c, (t.client c).point = .aborted := by
  by_cases hjam : (s.client e.client).jams s.shared = true
  · right
    cases h with
    | @start c call next hidle h =>
        rw [ThreadEvent.client, Client.jams, hidle] at hjam
        cases hjam
    | @step c ok next h =>
        refine ⟨c, ?_⟩
        change (Function.update s.client c next.2 c).point = .aborted
        rw [Function.update_self]
        exact aborted_of_jams hjam h
  · exact Or.inl (hinv.step h hjam)

end

theorem ledger_init {directorySize : Nat} (hsize : 1 ≤ 7 * directorySize / 10)
    (hsmall : directorySize < 2 ^ 32) : (Threads.init κ directorySize).Ledger where
  countable := ⟨hsize, by change 7 * directorySize / 10 < 2 ^ 32; omega, Nat.zero_le _,
    fun f hf => absurd rfl hf⟩
  count := by
    have hoccupied : (Threads.init κ directorySize).shared.occupied = 0 :=
      Finset.card_eq_zero.mpr (Finset.filter_false_of_mem fun f _ hf => hf rfl)
    have hreserved : (Threads.init κ directorySize).reservations = 0 :=
      Finset.card_eq_zero.mpr (Finset.filter_false_of_mem fun c _ hc => by cases hc)
    rw [hoccupied, hreserved]
    rfl
  within _ := trivial

end Threads

/-- At every step of any number of clients `page_count` is the number of ring
entries in use and reserved, and there is one to spare. -/
theorem reservations_accounted [DecidableEq κ] {directorySize : Nat}
    (hsize : 1 ≤ 7 * directorySize / 10) (hsmall : directorySize < 2 ^ 32)
    {es : List (ThreadEvent κ)} {t : Threads κ}
    (hrun : Run FixStep (Threads.init κ directorySize) es t) : Accounted t := by
  have hledger := hrun.invariant
    (I := fun s => s.Ledger ∧ (s.Inv ∨ ∃ c, (s.client c).point = .aborted))
    (fun s e t hs h => by
      obtain ⟨hstep, hcall, halive⟩ := h
      have hinv : s.Inv := hs.2.resolve_right fun ⟨c, hc⟩ => halive c hc
      exact ⟨hs.1.step hinv hstep hcall, Threads.inv_or_aborted hinv hstep⟩)
    ⟨Threads.ledger_init hsize hsmall, Or.inl (Threads.inv_init directorySize)⟩
  exact hledger.1.accounted

/-- Clients that play without `pager_evict` make steps that are counted. -/
theorem fixRun_of_played [DecidableEq κ] {s t : Threads κ}
    {es : List (ThreadEvent κ)} {test : Threads κ → ThreadEvent κ → Threads κ → Bool}
    (htest : ∀ s c t, test s (.start c .evict) t = false) (hs : s.Inv ∧ s.Unjammed)
    (hplayed : Run (fun s e t => FitStep s e t ∧ test s e t = true) s es t) :
    Run FixStep s es t ∧ t.Inv ∧ t.Unjammed := by
  have hkept : ∀ (s : Threads κ) (e : ThreadEvent κ) (t : Threads κ), s.Inv ∧ s.Unjammed →
      FitStep s e t ∧ test s e t = true → t.Inv ∧ t.Unjammed := fun _ _ _ hs h =>
    ⟨hs.1.step h.1.1 (hs.2.not_jams _), hs.1.unjammed_step hs.2 h.1⟩
  refine ⟨(hplayed.strengthen hkept hs).mono fun s e t h => ⟨h.2.1.1, fun c heq => ?_,
    h.1.1.framesKept.unaborted⟩, hplayed.invariant (I := fun s => s.Inv ∧ s.Unjammed) hkept hs⟩
  have hcall := h.2.2
  rw [heq, htest] at hcall
  cases hcall

/-- The second client evicts the page that the first has unfixed and keeps its count
for the new page. The first finds no room meanwhile, and then the new page is there. -/
theorem reservations_accounted_once :
    ∃ es es' s t, Run FixStep (Threads.init Bool 4) es s ∧ Run FixStep s es' t ∧
      s.shared.pageCount = 1 ∧ s.shared.occupied = 0 ∧ Accounted s ∧
      t.shared.occupied = 1 ∧ (t.client false).held = [(⟨2, 1⟩, true)] ∧ Accounted t := by
  let test : Threads Bool → ThreadEvent Bool → Threads Bool → Bool := fun _ e _ => match e with
    | .start _ .evict => false
    | _ => true
  let es := enters true (.fix 1 true) 18 ++ enters true (.unfix 0) 4 ++
    enters false (.fix 2 true) 29 ++ enters true (.fix 3 true) 14
  let es' : List (ThreadEvent Bool) := List.replicate 10 (.step false true)
  have hplay : ((Threads.init Bool 4).play test es).any (fun s =>
      s.shared.pageCount = 1 ∧ s.shared.occupied = 0 ∧ (s.play test es').any fun t =>
        t.shared.occupied = 1 ∧ (t.client false).held = [(⟨2, 1⟩, true)]) = true := by
    decide +kernel
  obtain ⟨s, hs, hfirst⟩ := (Option.any_eq_true ..).mp hplay
  obtain ⟨hcount, hoccupied, hrest⟩ := of_decide_eq_true hfirst
  obtain ⟨t, ht, hlast⟩ := (Option.any_eq_true ..).mp hrest
  obtain ⟨hoccupied', hheld⟩ := of_decide_eq_true hlast
  obtain ⟨hrun, hinv⟩ := fixRun_of_played (fun _ _ _ => rfl)
    ⟨Threads.inv_init 4, Threads.unjammed_init 4⟩ (Threads.play_run hs)
  have hrun' := (fixRun_of_played (fun _ _ _ => rfl) hinv (Threads.play_run ht)).1
  exact ⟨es, es', s, t, hrun, hrun', hcount, hoccupied,
    reservations_accounted (by decide) (by decide) hrun, hoccupied', hheld,
    reservations_accounted (by decide) (by decide) (hrun.append hrun')⟩

end Wednesday
