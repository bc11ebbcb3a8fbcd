import Wednesday.Lib.Runs
import Wednesday.PagerFix

/-!
The pager as a cache: runs of one client that fixes, writes and unfixes pages.
A page keeps its data as long as it is not evicted; eviction does not write
the data back, so a page that was evicted comes back with whatever its new
frame holds.
-/

namespace Wednesday

open Lib Prog Pager

/-- The pager, the fixes the client has not undone yet, and for every page the
data it had at its last exclusive `pager_unfix`. -/
structure CacheState where
  sys : Sys
  held : PageRef → Bool → Nat
  saved : PageId → Option Mem

inductive CacheEvent where
  | fix (id : PageId) (exclusive : Bool) (result : Option PageRef)
  | next (result : Option PageRef)
  | unfix (page : PageRef) (exclusive : Bool)
  | write (page : PageRef) (data : Mem)

/-- One fix more, or one less. -/
def hold (held : PageRef → Bool → Nat) (page : PageRef) (exclusive : Bool) (n : Nat) :
    PageRef → Bool → Nat :=
  fun q e => if q = page ∧ e = exclusive then n else held q e

/-- A client writes a page only while it holds it exclusively, and only undoes
its own fixes. -/
inductive CacheStep : CacheState → CacheEvent → CacheState → Prop where
  | fix {s : CacheState} {id : PageId} {exclusive : Bool} {page : PageRef} {t : Sys}
      (h : pagerFix id exclusive s.sys = .success page t) :
      CacheStep s (.fix id exclusive (some page))
        { s with sys := t, held := hold s.held page exclusive (s.held page exclusive + 1) }
  | fixRefused {s : CacheState} {id : PageId} {exclusive : Bool} {t : Sys}
      (h : pagerFix id exclusive s.sys = .failure t) :
      CacheStep s (.fix id exclusive none) { s with sys := t }
  | next {s : CacheState} {page : PageRef} {t : Sys} (h : pagerNext s.sys = .success page t) :
      CacheStep s (.next (some page))
        { s with sys := t, held := hold s.held page true (s.held page true + 1) }
  | nextRefused {s : CacheState} {t : Sys} (h : pagerNext s.sys = .failure t) :
      CacheStep s (.next none) { s with sys := t }
  | unfix {s : CacheState} {page : PageRef} {exclusive : Bool} {t : Sys}
      (hheld : 0 < s.held page exclusive) (h : pagerUnfix page s.sys = .success () t) :
      CacheStep s (.unfix page exclusive)
        { sys := t
          held := hold s.held page exclusive (s.held page exclusive - 1)
          saved := if exclusive then
            Function.update s.saved page.id (some (s.sys.pager.header page.frame).data)
            else s.saved }
  | write {s : CacheState} {page : PageRef} (data : Mem) (hheld : 0 < s.held page true) :
      CacheStep s (.write page data)
        { s with sys := { s.sys with pager := s.sys.pager.writeData page.frame data } }

/-- The calls of a client. -/
inductive CacheCall where
  | fix (id : PageId) (exclusive : Bool)
  | next
  | unfix (page : PageRef) (exclusive : Bool)
  | write (page : PageRef) (data : Mem)

/-- Make a call, if the client may make it and it returns. -/
def CacheState.call (s : CacheState) : CacheCall → Option (CacheEvent × CacheState)
  | .fix id exclusive =>
      match pagerFix id exclusive s.sys with
      | .success page t => some (.fix id exclusive (some page),
          { s with sys := t, held := hold s.held page exclusive (s.held page exclusive + 1) })
      | .failure t => some (.fix id exclusive none, { s with sys := t })
      | .fault _ => none
  | .next =>
      match pagerNext s.sys with
      | .success page t => some (.next (some page),
          { s with sys := t, held := hold s.held page true (s.held page true + 1) })
      | .failure t => some (.next none, { s with sys := t })
      | .fault _ => none
  | .unfix page exclusive =>
      if s.held page exclusive = 0 then none
      else
        match pagerUnfix page s.sys with
        | .success _ t => some (.unfix page exclusive,
            { sys := t
              held := hold s.held page exclusive (s.held page exclusive - 1)
              saved := if exclusive then
                Function.update s.saved page.id (some (s.sys.pager.header page.frame).data)
                else s.saved })
        | _ => none
  | .write page data =>
      if s.held page true = 0 then none
      else some (.write page data,
        { s with sys := { s.sys with pager := s.sys.pager.writeData page.frame data } })

def CacheState.calls (s : CacheState) (cs : List CacheCall) :
    Option (List CacheEvent × CacheState) :=
  stepThrough CacheState.call s cs

theorem CacheState.call_step {s t : CacheState} {c : CacheCall} {e : CacheEvent}
    (h : s.call c = some (e, t)) : CacheStep s e t := by
  cases c with
  | fix id exclusive =>
      simp only [call] at h
      split at h
      · cases h
        exact .fix (by assumption)
      · cases h
        exact .fixRefused (by assumption)
      · cases h
  | next =>
      simp only [call] at h
      split at h
      · cases h
        exact .next (by assumption)
      · cases h
        exact .nextRefused (by assumption)
      · cases h
  | unfix page exclusive =>
      simp only [call] at h
      split at h
      · cases h
      · split at h
        · cases h
          exact .unfix (Nat.pos_of_ne_zero (by assumption)) (by assumption)
        · cases h
  | write page data =>
      simp only [call] at h
      split at h
      · cases h
      · cases h
        exact .write data (Nat.pos_of_ne_zero (by assumption))

theorem CacheState.calls_run {s t : CacheState} {cs : List CacheCall} {es : List CacheEvent}
    (h : s.calls cs = some (es, t)) : Run CacheStep s es t :=
  .of_stepThrough (fun _ _ _ _ => call_step) h

/-- The page a call is about. -/
def CacheState.target (s : CacheState) : CacheEvent → Option PageId
  | .fix id _ _ => some id
  | .next _ => some s.sys.pager.nextPage
  | .unfix .. => none
  | .write .. => none

/-- The call evicts the page although its data was saved. -/
def CacheState.Drops (s : CacheState) (e : CacheEvent) (id : PageId) : Prop :=
  s.saved id ≠ none ∧ ∃ j, s.target e = some j ∧ s.sys.pager.evictsFor j = some id

instance (s : CacheState) (e : CacheEvent) (id : PageId) : Decidable (s.Drops e id) :=
  decidable_of_iff (s.saved id ≠ none ∧ (s.target e).bind s.sys.pager.evictsFor = some id)
    (and_congr_right fun _ => Option.bind_eq_some_iff)

/-- Make calls that do not drop the page. -/
def CacheState.callsKeeping (s : CacheState) (id : PageId) (cs : List CacheCall) :
    Option (List CacheEvent × CacheState) :=
  stepThrough (fun s c => (s.call c).filter fun x => ¬ s.Drops x.1 id) s cs

theorem CacheState.callsKeeping_run {s t : CacheState} {id : PageId} {cs : List CacheCall}
    {es : List CacheEvent} (h : s.callsKeeping id cs = some (es, t)) :
    Run (fun s e t => CacheStep s e t ∧ ¬ s.Drops e id) s es t := by
  refine .of_stepThrough (fun s c e t hcall => ?_) h
  obtain ⟨hcall, hkeeps⟩ := Option.filter_eq_some_iff.mp hcall
  exact ⟨call_step hcall, of_decide_eq_true hkeeps⟩

/-- A pager right after `pager_open`. -/
def PagerOpened (s : Sys) : Prop :=
  ∃ pageSize directorySize objects s₀ s₁, directorySize < 2 ^ 32 ∧
    pagerOpen true pageSize directorySize s₀ = .success (objects, s.pager) s₁

/-! ### What the holders of a page and its latch have to do with each other -/

/-- The fixes of one page and its latch; the last case is a latch word that ran
over. -/
inductive HoldsMatch (latch : Int) (exclusive shared : Nat) : Prop where
  | exclusive (hl : latch = -1) (he : exclusive = 1) (hs : shared = 0)
  | shared (he : exclusive = 0) (hs : (shared : Int) = latch)
  | overrun (hl : latch < -1) (he : exclusive = 0)

theorem HoldsMatch.latched {header : Frame} {ne ns : Nat} (h : HoldsMatch header.latch ne ns)
    (hok : LatchOk header) {exclusive : Bool} (hc : CanLatch exclusive header) :
    HoldsMatch (latched exclusive header).latch (if exclusive then ne + 1 else ne)
      (if exclusive then ns else ns + 1) := by
  cases exclusive with
  | true =>
      simp only [CanLatch, if_true] at hc
      cases h with
      | exclusive hl => omega
      | shared he hs => exact .exclusive rfl (by simp [he]) (by simp; omega)
      | overrun hl => omega
  | false =>
      simp only [CanLatch, Bool.false_eq_true, if_false] at hc
      have hhigh := hok.high
      cases h with
      | exclusive hl => omega
      | shared he hs =>
          simp only [Pager.latched, Bool.false_eq_true, if_false]
          by_cases hlast : header.latch + 1 < 2 ^ 31
          · refine .shared he ?_
            rw [Int.bmod_def, if_pos (by omega)]
            omega
          · refine .overrun ?_ he
            rw [Int.bmod_def, if_neg (by omega)]
            omega
      | overrun hl => omega

theorem HoldsMatch.released {header : Frame} {ne ns : Nat} (h : HoldsMatch header.latch ne ns)
    (hl : header.latch = -1 ∨ 0 < header.latch) (exclusive : Bool)
    (hheld : 0 < if exclusive then ne else ns) :
    HoldsMatch (released header).latch (if exclusive then ne - 1 else ne)
      (if exclusive then ns else ns - 1) := by
  unfold Pager.released
  cases h with
  | exclusive hm he hs =>
      cases exclusive with
      | true => exact .shared (by simp [he]) (by simp [hm, hs])
      | false => simp [hs] at hheld
  | shared he hs =>
      cases exclusive with
      | true => simp [he] at hheld
      | false =>
          simp only [Bool.false_eq_true, if_false] at hheld ⊢
          rw [if_neg (by omega)]
          exact .shared he (by dsimp only; omega)
  | overrun hm => omega

/-- Every fix the client has not undone is of a page that is there. -/
structure HeldOk (p : Pager) (held : PageRef → Bool → Nat) : Prop where
  there : ∀ page e, 0 < held page e → page.id ≠ 0 ∧ p.locate page.id = some page.frame
  latch : ∀ id f, id ≠ 0 → p.locate id = some f →
    HoldsMatch (p.header f).latch (held ⟨id, f⟩ true) (held ⟨id, f⟩ false)

variable {p p' : Pager} {held : PageRef → Bool → Nat} {id : PageId} {f : Nat} {exclusive : Bool}

theorem hold_self (page : PageRef) (n : Nat) : hold held page exclusive n page exclusive = n := by
  simp [hold]

theorem hold_id_ne {page : PageRef} {n : Nat} {j : PageId} {g : Nat} {e : Bool} (h : j ≠ page.id) :
    hold held page exclusive n ⟨j, g⟩ e = held ⟨j, g⟩ e := by
  simp only [hold]
  rw [if_neg]
  rintro ⟨rfl, -⟩
  exact h rfl

theorem hold_mode_ne {page q : PageRef} {n : Nat} :
    hold held page exclusive n q (!exclusive) = held q (!exclusive) := by
  simp [hold]

/-- Nobody holds a page whose latch is free, so it may go. -/
theorem HeldOk.free (h : HeldOk p held) (hid : id ≠ 0) (hf : p.locate id = some f)
    (hlatch : (p.header f).latch = 0) (page : PageRef) (e : Bool) (hpage : page.id = id) :
    held page e = 0 := by
  by_contra hne
  obtain ⟨-, hloc⟩ := h.there page e (by omega)
  rw [hpage, hf] at hloc
  obtain rfl : page = ⟨id, f⟩ := by
    cases page
    simp only at hpage hloc
    rw [hpage, Option.some.inj hloc]
  have := h.latch id f hid hf
  rw [hlatch] at this
  cases this with
  | exclusive hl => omega
  | shared he hs => cases e <;> omega
  | overrun hl => omega

/-- Fixes of pages that did not move are still matched by their latches. -/
theorem HeldOk.frame (h : HeldOk p held) (hsame : ∀ j, j ≠ 0 → Same p p' j ∨ Gone p p' j) :
    HeldOk p' held where
  there page e hpos := by
    obtain ⟨hid, hloc⟩ := h.there page e hpos
    refine ⟨hid, ?_⟩
    rcases hsame page.id hid with hs | ⟨-, g, hg, hlatch⟩
    · rw [hs.1, hloc]
    · have := h.free hid hg hlatch page e rfl
      omega
  latch j g hj hg := by
    rcases hsame j hj with hs | ⟨hgone, -⟩
    · rw [hs.1] at hg
      rw [(hs.2 g hg).2]
      exact h.latch j g hj hg
    · rw [hgone] at hg
      simp at hg

/-- One page is latched or released, the others are where they were. -/
theorem HeldOk.change (h : HeldOk p held) (hid : id ≠ 0) (hf : p'.locate id = some f) {n : Nat}
    (hother : ∀ page e, page.id = id → page.frame ≠ f → held page e = 0)
    (hmatch : HoldsMatch (p'.header f).latch (hold held ⟨id, f⟩ exclusive n ⟨id, f⟩ true)
      (hold held ⟨id, f⟩ exclusive n ⟨id, f⟩ false))
    (hsame : ∀ j, j ≠ 0 → j ≠ id → Same p p' j ∨ Gone p p' j) :
    HeldOk p' (hold held ⟨id, f⟩ exclusive n) where
  there page e hpos := by
    by_cases hpage : page.id = id
    · rw [hpage]
      refine ⟨hid, ?_⟩
      by_cases hframe : page.frame = f
      · rw [hf, hframe]
      · have hzero := hother page e hpage hframe
        simp only [hold] at hpos
        rw [if_neg, hzero] at hpos
        · omega
        · rintro ⟨rfl, -⟩
          exact hframe rfl
    · have hkeep : hold held ⟨id, f⟩ exclusive n page e = held page e := hold_id_ne hpage
      have hpos' : 0 < held page e := by omega
      obtain ⟨hid', hloc⟩ := h.there page e hpos'
      refine ⟨hid', ?_⟩
      rcases hsame page.id hid' hpage with hs | ⟨-, g, hg, hlatch⟩
      · rw [hs.1, hloc]
      · have := h.free hid' hg hlatch page e rfl
        omega
  latch j g hj hg := by
    by_cases hji : j = id
    · subst hji
      obtain rfl := Option.some.inj (hf.symm.trans hg)
      exact hmatch
    · rw [hold_id_ne hji, hold_id_ne hji]
      rcases hsame j hj hji with hs | ⟨hgone, -⟩
      · rw [hs.1] at hg
        rw [(hs.2 g hg).2]
        exact h.latch j g hj hg
      · rw [hgone] at hg
        simp at hg

/-- A successful fix is one hold more. -/
theorem HeldOk.fixed {s : CacheState} {t : Sys} (hheld : HeldOk s.sys.pager s.held)
    (hok : Ok 0 s.sys.pager) (h : Fixed s.sys.pager t.pager id exclusive f) :
    HeldOk t.pager (hold s.held ⟨id, f⟩ exclusive (s.held ⟨id, f⟩ exclusive + 1)) := by
  have hother (page : PageRef) (e : Bool) (hp : page.id = id) (hf : page.frame ≠ f) :
      s.held page e = 0 := by
    by_contra hne
    obtain ⟨-, hloc⟩ := hheld.there page e (by omega)
    rw [hp] at hloc
    rcases h.page with ⟨hloc', -⟩ | ⟨hnone, -⟩
    · exact hf (Option.some.inj (hloc.symm.trans hloc'))
    · simp [hnone] at hloc
  refine hheld.change h.ne_zero h.located hother ?_ fun j hj hji => ?_
  · have hmode : hold s.held ⟨id, f⟩ exclusive (s.held ⟨id, f⟩ exclusive + 1) ⟨id, f⟩ (!exclusive) =
        s.held ⟨id, f⟩ (!exclusive) := hold_mode_ne
    have hself : hold s.held ⟨id, f⟩ exclusive (s.held ⟨id, f⟩ exclusive + 1) ⟨id, f⟩ exclusive =
        s.held ⟨id, f⟩ exclusive + 1 := hold_self _ _
    rcases h.page with ⟨hloc, hcan, heq⟩ | ⟨hnone, hlatch⟩
    · have hm := (hheld.latch id f h.ne_zero hloc).latched (hok.latchOk h.ne_zero hloc) hcan
      rw [heq]
      cases exclusive <;> simp_all
    · have hzero (e : Bool) : s.held ⟨id, f⟩ e = 0 := by
        by_contra hne
        have := (hheld.there ⟨id, f⟩ e (by omega)).2
        simp [hnone] at this
      rw [hlatch]
      cases exclusive with
      | true =>
          rw [hself]
          exact .exclusive rfl (by rw [hzero]) (by simpa [hzero] using hmode)
      | false =>
          rw [hself]
          exact .shared (by simpa [hzero] using hmode) (by rw [hzero]; rfl)
  · rcases h.others j hj hji with hs | ⟨-, hg⟩
    · exact Or.inl hs
    · exact Or.inr hg

/-- The invariant of a run for one page: its saved data is in its frame, unless
a holder is about to change it. -/
structure CacheOk (id : PageId) (s : CacheState) : Prop where
  ok : Ok 0 s.sys.pager
  held : HeldOk s.sys.pager s.held
  saved : ∀ m, s.saved id = some m → id ≠ 0 ∧ ∃ f, s.sys.pager.locate id = some f ∧
    (s.held ⟨id, f⟩ true = 0 → (s.sys.pager.header f).data = m)

namespace CacheOk

variable {s t : CacheState} {e : CacheEvent}

/-- The pager only moved on: pages are where they were, or evicted without
being saved. -/
theorem carry (h : CacheOk id s) {sys : Sys} (hok : Ok 0 sys.pager)
    (hheld : HeldOk sys.pager t.held) (hsys : t.sys = sys) (hsaved : t.saved = s.saved)
    (hkeep : ∀ f, id ≠ 0 → s.sys.pager.locate id = some f → s.saved id ≠ none →
      sys.pager.locate id = some f ∧ (sys.pager.header f).data = (s.sys.pager.header f).data ∧
        (t.held ⟨id, f⟩ true = 0 → s.held ⟨id, f⟩ true = 0)) : CacheOk id t := by
  subst hsys
  refine ⟨hok, hheld, fun m hm => ?_⟩
  rw [hsaved] at hm
  obtain ⟨hid, f, hf, hdata⟩ := h.saved m hm
  obtain ⟨hf', hsame, hzero⟩ := hkeep f hid hf (by simp [hm])
  exact ⟨hid, f, hf', fun h0 => hsame.trans (hdata (hzero h0))⟩

/-- A page that is fixed shows its saved data. -/
theorem exposes (h : CacheOk id s) {p : Pager} {f : Nat}
    (hfix : Fixed s.sys.pager p id exclusive f) {m : Mem} (hm : s.saved id = some m) :
    (p.header f).data = m := by
  obtain ⟨hid, g, hg, hdata⟩ := h.saved m hm
  rcases hfix.page with ⟨hloc, hcan, heq⟩ | ⟨hnone, -⟩
  · obtain rfl := Option.some.inj (hg.symm.trans hloc)
    have hzero : s.held ⟨id, g⟩ true = 0 := by
      have := h.held.latch id g hid hg
      cases this with
      | exclusive hl =>
          cases exclusive <;> simp [CanLatch, hl] at hcan
      | shared he => exact he
      | overrun hl he => exact he
    rw [heq, data_latched]
    exact hdata hzero
  · simp [hnone] at hg

theorem fixed (h : CacheOk id s) {sys : Sys} {j : PageId} {f : Nat}
    (hfix : Fixed s.sys.pager sys.pager j exclusive f)
    (hdrop : s.saved id ≠ none → s.sys.pager.evictsFor j ≠ some id) :
    CacheOk id { s with
      sys := sys, held := hold s.held ⟨j, f⟩ exclusive (s.held ⟨j, f⟩ exclusive + 1) } := by
  refine h.carry hfix.ok (h.held.fixed h.ok hfix) rfl rfl fun g hid hg hsaved => ?_
  by_cases hij : id = j
  · subst hij
    rcases hfix.page with ⟨hloc, -, heq⟩ | ⟨hnone, -⟩
    · obtain rfl := Option.some.inj (hg.symm.trans hloc)
      refine ⟨hfix.located, by rw [heq, data_latched], ?_⟩
      cases exclusive with
      | true => simp [hold]
      | false => simp [hold]
    · simp [hnone] at hg
  · rcases hfix.others id hid hij with hs | ⟨hev, -⟩
    · exact ⟨hs.1.trans hg, (hs.2 g hg).1, by simp [hold, hij]⟩
    · exact absurd hev (hdrop hsaved)

theorem refused (h : CacheOk id s) {sys : Sys} {j : PageId}
    (href : Refused s.sys.pager sys.pager j)
    (hdrop : s.saved id ≠ none → s.sys.pager.evictsFor j ≠ some id) :
    CacheOk id { s with sys := sys } := by
  refine h.carry href.ok (h.held.frame fun i hi => ?_) rfl rfl fun g hid hg hsaved => ?_
  · rcases href.others i hi with hs | ⟨-, hgone⟩
    · exact Or.inl hs
    · exact Or.inr hgone
  · rcases href.others id hid with hs | ⟨hev, -⟩
    · exact ⟨hs.1.trans hg, (hs.2 g hg).1, fun h0 => h0⟩
    · exact absurd hev (hdrop hsaved)

theorem unfix (h : CacheOk id s) {page : PageRef} (hheld : 0 < s.held page exclusive) {sys : Sys}
    (hrun : pagerUnfix page s.sys = .success () sys) :
    CacheOk id
      { sys := sys
        held := hold s.held page exclusive (s.held page exclusive - 1)
        saved := if exclusive then
          Function.update s.saved page.id (some (s.sys.pager.header page.frame).data)
          else s.saved } := by
  obtain ⟨hpid, hloc⟩ := h.held.there page exclusive hheld
  have hlok := h.ok.latchOk hpid hloc
  rw [pagerUnfix_apply page s.sys hlok] at hrun
  split at hrun
  swap
  · simp at hrun
  rename_i hl
  obtain rfl : _ = sys := by simpa using hrun
  have hmatch := h.held.latch page.id page.frame hpid hloc
  have hother (q : PageRef) (e : Bool) (hq : q.id = page.id) (hf : q.frame ≠ page.frame) :
      s.held q e = 0 := by
    by_contra hne
    have hq' := (h.held.there q e (by omega)).2
    rw [hq, hloc] at hq'
    exact hf (Option.some.inj hq').symm
  have hmode : hold s.held page exclusive (s.held page exclusive - 1) page (!exclusive) =
      s.held page (!exclusive) := hold_mode_ne
  have hself : hold s.held page exclusive (s.held page exclusive - 1) page exclusive =
      s.held page exclusive - 1 := hold_self _ _
  have hsame {j : PageId} (hj : j ≠ 0) (hji : j ≠ page.id) :
      Same s.sys.pager (s.sys.pager.setHeader page.frame
        (released (s.sys.pager.header page.frame))) j :=
    h.ok.same_setHeader hpid hj hloc hji
  refine ⟨h.ok.setHeader (id_released _) fun hf hpage => (h.ok.latched _ hf hpage).released hl,
    ?_, fun m hm => ?_⟩
  · have hloc' : (s.sys.pager.setHeader page.frame
        (released (s.sys.pager.header page.frame))).locate page.id = some page.frame := hloc
    refine h.held.change hpid hloc' hother ?_ fun j hj hji => Or.inl (hsame hj hji)
    have hrel := hmatch.released hl exclusive (by cases exclusive <;> simpa using hheld)
    simp only [header_setHeader_self]
    cases exclusive <;> simp_all
  · by_cases hid : page.id = id
    · subst hid
      refine ⟨hpid, page.frame, hloc, fun hzero => ?_⟩
      simp only [header_setHeader_self, data_released]
      cases exclusive with
      | true => simpa using hm
      | false =>
          obtain ⟨-, f, hf, hdata⟩ := h.saved m hm
          obtain rfl := Option.some.inj (hloc.symm.trans hf)
          refine hdata ?_
          simpa [hold] using hzero
    · have hm' : s.saved id = some m := by
        cases exclusive with
        | true => simpa [Function.update_of_ne (Ne.symm hid)] using hm
        | false => exact hm
      obtain ⟨hid0, f, hf, hdata⟩ := h.saved m hm'
      have hs := hsame hid0 (Ne.symm hid)
      refine ⟨hid0, f, hs.1.trans hf, fun hzero => (hs.2 f hf).1.trans (hdata ?_)⟩
      rw [← hzero]
      exact (hold_id_ne (Ne.symm hid)).symm

theorem write (h : CacheOk id s) {page : PageRef} (hheld : 0 < s.held page true) (data : Mem) :
    CacheOk id { s with
      sys := { s.sys with pager := s.sys.pager.writeData page.frame data } } := by
  obtain ⟨hpid, hloc⟩ := h.held.there page true hheld
  have hsame {j : PageId} (hj : j ≠ 0) (hji : j ≠ page.id) :
      Same s.sys.pager (s.sys.pager.writeData page.frame data) j :=
    h.ok.same_setHeader hpid hj hloc hji
  have hlatch (f : Nat) : ((s.sys.pager.writeData page.frame data).header f).latch =
      (s.sys.pager.header f).latch := by
    by_cases hf : f = page.frame
    · simp [writeData, hf]
    · rw [writeData, header_setHeader_ne _ _ _ _ hf]
  refine ⟨h.ok.setHeader rfl fun hf hpage => ?_, ⟨h.held.there, fun j f hj hf => ?_⟩,
    fun m hm => ?_⟩
  · have hl := h.ok.latched _ hf hpage
    exact ⟨hl.low, hl.high, hl.exclusive⟩
  · rw [hlatch]
    exact h.held.latch j f hj hf
  · obtain ⟨hid0, f, hf, hdata⟩ := h.saved m hm
    refine ⟨hid0, f, hf, fun hzero => ?_⟩
    by_cases hid : id = page.id
    · -- the page is being written, so somebody holds it exclusively
      subst hid
      obtain rfl := Option.some.inj (hloc.symm.trans hf)
      exact absurd hzero (Nat.ne_of_gt hheld)
    · exact ((hsame hid0 hid).2 f hf).1.trans (hdata hzero)

end CacheOk

namespace CacheOk

variable {s t : CacheState} {e : CacheEvent}

theorem clockVictim_nextPage (n : Nat) (p : Pager) (m : PageId) :
    clockVictim n { p with nextPage := m } = clockVictim n p := by
  induction n generalizing p with
  | zero => rfl
  | succ n ih =>
      have hmove := ih { p with evictHead := (p.evictHead + 1) % 2 ^ 32 }
      simp only [clockVictim]
      split
      · exact hmove
      · split
        · exact hmove
        · split
          · exact ih (setHeader { p with evictHead := (p.evictHead + 1) % 2 ^ 32 }
              (p.evictHead % p.size) { (p.ring (p.evictHead % p.size)).header with
                flags := (p.ring (p.evictHead % p.size)).header.flags &&& (255 - PAGE_FLAG_REF) })
          · rfl

theorem evictsFor_nextPage (p : Pager) (m j : PageId) :
    evictsFor { p with nextPage := m } j = p.evictsFor j := by
  simp only [evictsFor, victim, clockVictim_nextPage]
  rfl

/-- Moving `next_page` on is no change for any page. -/
theorem moveNextPage (h : CacheOk id s) (n : PageId) : CacheOk id { s with
    sys := { s.sys with pager := { s.sys.pager with nextPage := n } } } :=
  ⟨⟨h.ok.sizePos, h.ok.sizeLt, h.ok.distinct, h.ok.hashed, h.ok.mapped, h.ok.located,
    h.ok.latched, h.ok.named, h.ok.reserved, h.ok.capacity⟩, ⟨h.held.there, h.held.latch⟩, h.saved⟩

/-- No step loses the saved data of a page it does not evict. -/
theorem step (h : CacheOk id s) (hdrop : ¬ s.Drops e id) (hstep : CacheStep s e t) :
    CacheOk id t := by
  have hkeep {j : PageId} (hj : s.target e = some j) (hsaved : s.saved id ≠ none) :
      s.sys.pager.evictsFor j ≠ some id := fun hev => hdrop ⟨hsaved, j, hj, hev⟩
  cases hstep with
  | fix hrun =>
      rename_i j exclusive page sys
      rcases pagerFix_cases j exclusive s.sys h.ok with
        ⟨f, p, heap, hrun', hfix⟩ | ⟨p, err, heap, hrun', -⟩ | ⟨hrun', -⟩
      · rw [hrun'] at hrun
        obtain ⟨rfl, rfl⟩ := Outcome.success.inj hrun
        exact h.fixed hfix (hkeep rfl)
      · cases hrun'.symm.trans hrun
      · cases hrun'.symm.trans hrun
  | fixRefused hrun =>
      rename_i j exclusive sys
      rcases pagerFix_cases j exclusive s.sys h.ok with
        ⟨f, p, heap, hrun', -⟩ | ⟨p, err, heap, hrun', -, href⟩ | ⟨hrun', -⟩
      · cases hrun'.symm.trans hrun
      · rw [hrun'] at hrun
        obtain rfl := Outcome.failure.inj hrun
        exact h.refused href (hkeep rfl)
      · cases hrun'.symm.trans hrun
  | next hrun =>
      rename_i page sys
      have hmove := h.moveNextPage ((s.sys.pager.nextPage + 1) % 2 ^ 32)
      rw [pagerNext_apply] at hrun
      rcases pagerFix_cases s.sys.pager.nextPage true _ hmove.ok with
        ⟨f, p, heap, hrun', hfix⟩ | ⟨p, err, heap, hrun', -⟩ | ⟨hrun', -⟩
      · rw [hrun'] at hrun
        obtain ⟨rfl, rfl⟩ := Outcome.success.inj hrun
        refine hmove.fixed hfix ?_
        rw [evictsFor_nextPage]
        exact hkeep rfl
      · cases hrun'.symm.trans hrun
      · cases hrun'.symm.trans hrun
  | nextRefused hrun =>
      rename_i sys
      have hmove := h.moveNextPage ((s.sys.pager.nextPage + 1) % 2 ^ 32)
      rw [pagerNext_apply] at hrun
      rcases pagerFix_cases s.sys.pager.nextPage true _ hmove.ok with
        ⟨f, p, heap, hrun', -⟩ | ⟨p, err, heap, hrun', -, href⟩ | ⟨hrun', -⟩
      · cases hrun'.symm.trans hrun
      · rw [hrun'] at hrun
        obtain rfl := Outcome.failure.inj hrun
        refine hmove.refused href ?_
        rw [evictsFor_nextPage]
        exact hkeep rfl
      · cases hrun'.symm.trans hrun
  | unfix hheld hrun => exact h.unfix hheld hrun
  | write data hheld => exact h.write hheld data

end CacheOk

/-! ### Runs -/

theorem errdefer_value {α : Type} {cleanup : Call Unit} {body : Call α} {s t : Sys} {a : α}
    (h : errdefer cleanup body s = .success a t) : ∃ s₁ s₂, body s₁ = .success a s₂ := by
  simp only [errdefer, registerCleanup, bind_apply, modify_apply, Outcome.bind_success] at h
  obtain ⟨_, hbody, -⟩ := deferred_eq_success.mp h
  exact ⟨_, _, hbody⟩

theorem pagerOpen_value {out : Bool} {pageSize directorySize : Nat} {s t : Sys}
    {objects : PagerObjects} {p : Pager}
    (h : pagerOpen out pageSize directorySize s = .success (objects, p) t) :
    p = pagerInit pageSize directorySize := by
  simp only [pagerOpen, bind_apply] at h
  obtain ⟨_, _, _, h⟩ := Outcome.bind_eq_success.mp h
  obtain ⟨_, _, _, h⟩ := Outcome.bind_eq_success.mp h
  obtain ⟨_, _, _, h⟩ := Outcome.bind_eq_success.mp h
  obtain ⟨_, _, h⟩ := errdefer_value h
  obtain ⟨_, _, _, h⟩ := Outcome.bind_eq_success.mp h
  obtain ⟨_, _, h⟩ := errdefer_value h
  obtain ⟨_, _, _, h⟩ := Outcome.bind_eq_success.mp h
  obtain ⟨_, _, h⟩ := errdefer_value h
  exact (Prod.mk.inj (Outcome.success.inj h).1).2.symm

theorem pageId_pagerInit {pageSize directorySize h : Nat} {m : Mapping}
    (hm : m ∈ ((pagerInit pageSize directorySize).directory h).slots) : m.pageId = 0 := by
  simp only [pagerInit, emptyEntry, HashEntry.slots, List.mem_cons, List.not_mem_nil,
    or_false] at hm
  rcases hm with rfl | rfl <;> rfl

theorem locate_pagerInit (pageSize directorySize : Nat) {id : PageId} (hid : id ≠ 0) :
    (pagerInit pageSize directorySize).locate id = none :=
  HashEntry.find_eq_none.mpr fun _ hm => (pageId_pagerInit hm).trans_ne hid.symm

theorem pagerInit_ok {pageSize directorySize : Nat} (hlt : directorySize < 2 ^ 32)
    (hpos : 0 < 7 * directorySize / 10) : Ok 0 (pagerInit pageSize directorySize) where
  sizePos := hpos
  sizeLt := by
    change 7 * directorySize / 10 < 2 ^ 32
    omega
  distinct h := by
    simp [pagerInit, emptyEntry, HashEntry.slots, HashEntry.Distinct]
  hashed h m hm hne := absurd (pageId_pagerInit hm) hne
  mapped id f hid hf := by simp [locate_pagerInit _ _ hid] at hf
  located f _ hne := absurd rfl hne
  latched f _ hne := absurd rfl hne
  named f _ hne := absurd rfl hne
  reserved := by
    have : (pagerInit pageSize directorySize).occupied = ∅ :=
      Finset.filter_false_of_mem fun f _ => by simp [pagerInit, emptyRing]
    rw [this]
    rfl
  capacity := hpos

/-- A pager without frames. -/
structure NoFrames (p : Pager) : Prop where
  size : p.size = 0
  pageCount : p.pageCount = 0
  empty : ∀ h, ∀ m ∈ (p.directory h).slots, m.pageId = 0

theorem NoFrames.locate {p : Pager} (h : NoFrames p) {j : PageId} (hj : j ≠ 0) :
    p.locate j = none :=
  HashEntry.find_eq_none.mpr fun m hm => (h.empty _ m hm).trans_ne hj.symm

/-- It never fixes a page. -/
theorem NoFrames.pagerFix {s : Sys} (h : NoFrames s.pager) (id : PageId) (exclusive : Bool) :
    pagerFix id exclusive s = .fault .ringEmpty ∨
      ∃ e, Wednesday.pagerFix id exclusive s = .failure { s with err := e } := by
  by_cases hid : id = 0
  · obtain ⟨e, he, -⟩ := failure_apply (α := Unit) ⟨"src/pager.c", "pager_fix", 372⟩
      (show EINVAL ≠ 0 by decide) ["invalid page id"] s
    exact Or.inr ⟨e, by simp [Wednesday.pagerFix, hid, he]⟩
  · have hlookup : (s.pager.directory (pagerHash s.pager.mask id)).lookup id = none := by
      rw [HashEntry.lookup_eq]
      exact h.locate hid
    have hguard : ¬ u32 (-1) = 0 := by decide
    refine Or.inl ?_
    simp [Wednesday.pagerFix, pagerLookup, hid, hlookup, ensureCapacity, h.size, h.pageCount,
      hguard, addPageCount, pagerCreate, acquireRingEntry, nextCreateIndex, handleForward, recover]

/-- Without frames nothing is ever held or saved. -/
structure Unused (s : CacheState) : Prop where
  frames : NoFrames s.sys.pager
  held : ∀ page e, s.held page e = 0
  saved : ∀ id, s.saved id = none

theorem NoFrames.moveNextPage {p : Pager} (h : NoFrames p) (n : PageId) :
    NoFrames { p with nextPage := n } :=
  ⟨h.size, h.pageCount, h.empty⟩

theorem Unused.step {s t : CacheState} {e : CacheEvent} (h : Unused s) (hstep : CacheStep s e t) :
    Unused t := by
  cases hstep with
  | fix hrun =>
      rename_i id exclusive page sys
      rcases h.frames.pagerFix id exclusive with hrun' | ⟨e, hrun'⟩ <;> cases hrun'.symm.trans hrun
  | fixRefused hrun =>
      rename_i id exclusive sys
      rcases h.frames.pagerFix id exclusive with hrun' | ⟨e, hrun'⟩
      · cases hrun'.symm.trans hrun
      · cases hrun'.symm.trans hrun
        exact ⟨⟨h.frames.size, h.frames.pageCount, h.frames.empty⟩, h.held, h.saved⟩
  | next hrun =>
      rw [pagerNext_apply] at hrun
      have hmove := h.frames.moveNextPage ((s.sys.pager.nextPage + 1) % 2 ^ 32)
      rcases NoFrames.pagerFix (s := { s.sys with pager := _ }) hmove s.sys.pager.nextPage true with
        hrun' | ⟨e, hrun'⟩ <;> cases hrun'.symm.trans hrun
  | nextRefused hrun =>
      rw [pagerNext_apply] at hrun
      have hmove := h.frames.moveNextPage ((s.sys.pager.nextPage + 1) % 2 ^ 32)
      rcases NoFrames.pagerFix (s := { s.sys with pager := _ }) hmove s.sys.pager.nextPage true with
        hrun' | ⟨e, hrun'⟩
      · cases hrun'.symm.trans hrun
      · cases hrun'.symm.trans hrun
        exact ⟨hmove, h.held, h.saved⟩
  | unfix hheld hrun => simp [h.held] at hheld
  | write data hheld => simp [h.held] at hheld

/-- The client before its first call. -/
def cacheStart (s : Sys) : CacheState := ⟨s, fun _ _ => 0, fun _ => none⟩

/-- Every state of a run that does not drop the page keeps its saved data. -/
theorem cacheRun_ok {s : Sys} (hopen : PagerOpened s) {es : List CacheEvent} {u : CacheState}
    (hrun : Run (fun s e t => CacheStep s e t ∧ ¬ s.Drops e id) (cacheStart s) es u) :
    CacheOk id u ∨ Unused u := by
  obtain ⟨pageSize, directorySize, objects, s₀, s₁, hlt, hval⟩ := hopen
  have hpager := pagerOpen_value hval
  refine hrun.invariant (I := fun u => CacheOk id u ∨ Unused u) (fun s e t hs hstep => ?_) ?_
  · rcases hs with hs | hs
    · exact Or.inl (hs.step hstep.2 hstep.1)
    · exact Or.inr (hs.step hstep.1)
  · have hnone {j : PageId} (hj : j ≠ 0) : s.pager.locate j = none := by
      rw [hpager]
      exact locate_pagerInit _ _ hj
    by_cases hpos : 0 < 7 * directorySize / 10
    · refine Or.inl ⟨hpager ▸ pagerInit_ok hlt hpos,
        ⟨fun page e h => absurd h (by simp [cacheStart]), fun j f hj hf => ?_⟩,
          fun m hm => by simp [cacheStart] at hm⟩
      change s.pager.locate j = some f at hf
      simp [hnone hj] at hf
    · refine Or.inr ⟨⟨?_, ?_, fun h m hm => ?_⟩, fun _ _ => rfl, fun _ => rfl⟩
      · change s.pager.size = 0
        rw [hpager]
        exact Nat.eq_zero_of_not_pos hpos
      · change s.pager.pageCount = 0
        rw [hpager]
        rfl
      · change m ∈ (s.pager.directory h).slots at hm
        rw [hpager] at hm
        exact pageId_pagerInit hm

/-- A process that has just opened a pager: no error is set, `malloc` is never
refused, and uninitialised memory is zero. -/
def freshSys (pageSize directorySize : Nat) : Sys :=
  { err := ⟨fun _ => ⟨"", "", 0, 0, fun _ => 0⟩, 0, 0⟩
    heap := ⟨fun _ => false, fun _ _ => 0, 0, []⟩
    stack := fun _ => 0
    pager := pagerInit pageSize directorySize
    outage := fun _ => false
    pagerCalls := 0
    tree := ⟨0, 0⟩
    cleanups := ⟨0, 0⟩ }

theorem pagerOpened_freshSys : PagerOpened (freshSys 16 4) :=
  ⟨16, 4, ⟨0, 1, 2⟩, freshSys 16 4, _, by decide, rfl⟩

/-- In a run that does not drop the page, every fix of it shows the data of its
last exclusive `pager_unfix`. -/
theorem fix_shows_saved_data {s : Sys} (hopen : PagerOpened s) {id : PageId}
    {es : List CacheEvent} {u t : CacheState} {e : CacheEvent} {page : PageRef}
    (hrun : Run (fun s e t => CacheStep s e t ∧ ¬ s.Drops e id) (cacheStart s) es u)
    (hstep : CacheStep u e t) (hdrop : ¬ u.Drops e id)
    (hfix : (∃ exclusive, e = .fix id exclusive (some page)) ∨
      (e = .next (some page) ∧ u.sys.pager.nextPage = id))
    {m : Mem} (hsaved : u.saved id = some m) :
    page.id = id ∧ (t.sys.pager.header page.frame).data = m := by
  rcases cacheRun_ok hopen hrun with hu | hu
  swap
  · simp [hu.saved] at hsaved
  rcases hfix with ⟨exclusive, rfl⟩ | ⟨rfl, hnext⟩
  · cases hstep with
    | fix h =>
        rename_i sys
        rcases pagerFix_cases id exclusive u.sys hu.ok with
          ⟨f, p, heap, hrun', hfix⟩ | ⟨p, err, heap, hrun', -⟩ | ⟨hrun', -⟩
        · cases hrun'.symm.trans h
          exact ⟨rfl, hu.exposes hfix hsaved⟩
        · cases hrun'.symm.trans h
        · cases hrun'.symm.trans h
  · subst hnext
    cases hstep with
    | next h =>
        rename_i sys
        have hmove := hu.moveNextPage ((u.sys.pager.nextPage + 1) % 2 ^ 32)
        rw [pagerNext_apply] at h
        rcases pagerFix_cases u.sys.pager.nextPage true _ hmove.ok with
          ⟨f, p, heap, hrun', hfix⟩ | ⟨p, err, heap, hrun', -⟩ | ⟨hrun', -⟩
        · cases hrun'.symm.trans h
          exact ⟨rfl, hmove.exposes hfix hsaved⟩
        · cases hrun'.symm.trans h
        · cases hrun'.symm.trans h

/-- Two of four pages are saved. While the first is fixed again, room for a fifth page
is made by evicting the second; the next fix of the first shows what was saved. -/
theorem fix_shows_saved_data_once :
    ∃ es u t page m, Run (fun s e t => CacheStep s e t ∧ ¬ s.Drops e 1)
      (cacheStart (freshSys 16 8)) es u ∧ u.saved 2 ≠ none ∧ u.sys.pager.locate 2 = none ∧
      CacheStep u (.fix 1 false (some page)) t ∧ u.saved 1 = some m ∧ m 0 = 1 ∧
      page.id = 1 ∧ (t.sys.pager.header page.frame).data = m := by
  have hplay : (((cacheStart (freshSys 16 8)).callsKeeping 1 [.fix 1 true,
      .write ⟨1, 0⟩ fun _ => 1, .unfix ⟨1, 0⟩ true, .fix 2 true, .write ⟨2, 1⟩ fun _ => 2,
      .unfix ⟨2, 1⟩ true, .fix 3 false, .unfix ⟨3, 2⟩ false, .fix 4 false,
      .unfix ⟨4, 3⟩ false, .fix 1 false, .fix 5 true, .write ⟨5, 4⟩ fun _ => 5,
      .unfix ⟨5, 4⟩ true, .unfix ⟨1, 0⟩ false]).any fun r =>
        r.2.saved 2 ≠ none ∧ r.2.sys.pager.locate 2 = none ∧ (r.2.saved 1).map (· 0) = some 1 ∧
          (pagerFix 1 false r.2.sys).value?.any fun x =>
            ¬ r.2.Drops (.fix 1 false (some x.1)) 1) = true := by
    decide +kernel
  obtain ⟨⟨es, u⟩, hcalls, hlast⟩ := (Option.any_eq_true ..).mp hplay
  obtain ⟨htwo, hgone, hone, hfix⟩ := of_decide_eq_true hlast
  obtain ⟨⟨page, t⟩, hfixed, hkeeps⟩ := (Option.any_eq_true ..).mp hfix
  obtain ⟨m, hsaved, hm⟩ := Option.map_eq_some_iff.mp hone
  have hopen : PagerOpened (freshSys 16 8) := ⟨16, 8, ⟨0, 1, 2⟩, freshSys 16 8, _, by decide, rfl⟩
  have hrun := CacheState.callsKeeping_run hcalls
  have hstep : CacheStep u (.fix 1 false (some page)) _ := .fix (Outcome.value?_eq_some.mp hfixed)
  exact ⟨es, u, _, page, m, hrun, htwo, hgone, hstep, hsaved, hm,
    fix_shows_saved_data hopen hrun hstep (of_decide_eq_true hkeeps) (Or.inl ⟨false, rfl⟩)
      hsaved⟩

/-- A page is written and released; room for another page is made by evicting
it, and it comes back with the data of that page. -/
theorem evicted_page_loses_data :
    ∃ s es u page t m, PagerOpened s ∧ Run CacheStep (cacheStart s) es u ∧
      CacheStep u (.fix 1 false (some page)) t ∧ u.saved 1 = some m ∧
      (t.sys.pager.header page.frame).data ≠ m := by
  -- the byte that was saved, and the byte the last fix shows
  have hbytes : (((cacheStart (freshSys 16 4)).calls [.fix 1 true, .write ⟨1, 0⟩ fun _ => 1,
      .unfix ⟨1, 0⟩ true, .fix 2 true, .unfix ⟨2, 1⟩ true, .fix 3 true, .unfix ⟨3, 0⟩ true]).bind
      fun r => match pagerFix 1 false r.2.sys with
        | .success page t => some ((r.2.saved 1).map (· 0), (t.pager.header page.frame).data 0)
        | _ => none) = some (some 1, 0) := by
    decide +kernel
  obtain ⟨⟨es, u⟩, hrun, hfix⟩ := Option.bind_eq_some_iff.mp hbytes
  dsimp only at hfix
  split at hfix
  · rename_i page t hpage
    simp only [Option.some.injEq, Prod.mk.injEq, Option.map_eq_some_iff] at hfix
    obtain ⟨⟨m, hsaved, hm⟩, hdata⟩ := hfix
    refine ⟨_, es, u, page, _, m, pagerOpened_freshSys, CacheState.calls_run hrun, .fix hpage,
      hsaved, fun heq => ?_⟩
    rw [heq, hm] at hdata
    simp at hdata
  · simp at hfix

end Wednesday
