import Wednesday.PagerAlone
import Wednesday.PagerConfig

/-!
The process as one of the clients. What a client does alone it does among clients that make
no step, so every run of calls of the process is one of the clients.
-/

namespace Wednesday

open Lib Prog Pager Solo

variable {κ : Type} [DecidableEq κ] {k : κ} {T : Threads κ} {c : Client} {s t : Sys}

/-- The clients are where the process is: one of them holds what is held, and no other was
ever in a call. -/
structure Rests (k : κ) (T : Threads κ) (u : CacheState) : Prop where
  shared : T.shared = u.sys.pager.share
  idle : (T.client k).point = .idle
  held : ∀ page exclusive, (T.client k).held.count (page, exclusive) = u.held page exclusive
  others : ∀ d, d ≠ k → T.client d = ⟨.idle, []⟩

/-- The call a client makes for an event of the process. -/
inductive Client.Makes (c : Client) : PagerCall → CacheEvent → Prop where
  | fix (id : PageId) (exclusive : Bool) (result : Option PageRef) :
      Makes c (.fix id exclusive) (.fix id exclusive result)
  | next (result : Option PageRef) : Makes c .next (.next result)
  | unfix {i : Nat} {page : PageRef} {exclusive : Bool}
      (hheld : c.held[i]? = some (page, exclusive)) :
      Makes c (.unfix i) (.unfix page exclusive)

/-- One event of the process and of the clients: the client makes the call, and no other
client a step. To write a page is no call. -/
inductive Turn (k : κ) :
    Threads κ × CacheState → CacheEvent × List (ThreadEvent κ) → Threads κ × CacheState → Prop where
  | call {T T' : Threads κ} {u v : CacheState} {e : CacheEvent} (call : PagerCall) (oks : List Bool)
      (hmakes : (T.client k).Makes call e) (hprocess : CacheStep u e v)
      (hclients : Run ThreadStep T (.start k call :: oks.map (.step k)) T')
      (hrests : Rests k T' v) :
      Turn k (T, u) (e, .start k call :: oks.map (.step k)) (T', v)
  | write {T : Threads κ} {u v : CacheState} {page : PageRef} {data : Mem}
      (hprocess : CacheStep u (.write page data) v) (hrests : Rests k T v) :
      Turn k (T, u) (.write page data, []) (T, v)

/-- The client is in a call and has no step, whatever the exchanges and the memory do. -/
structure WaitsAt (k : κ) (T : Threads κ) : Prop where
  called : (T.client k).point ≠ .idle
  running : (T.client k).point ≠ .aborted
  stuck : ∀ ok, (T.client k).step T.shared ok = none

/-- The call does not return. -/
def CacheState.Hangs (u : CacheState) : PagerCall → Prop
  | .fix id exclusive => ∃ fault, pagerFix id exclusive u.sys = .fault fault
  | .next => ∃ fault, pagerNext u.sys = .fault fault
  | _ => False

/-! ### Steps of one client -/

theorem set_set (T : Threads κ) (k : κ) (a b : SharedPager × Client) :
    (T.set k a).set k b = T.set k b := by
  simp [Threads.set]

theorem set_self (T : Threads κ) (k : κ) : T.set k (T.shared, T.client k) = T := by
  simp [Threads.set]

theorem client_set (T : Threads κ) (k : κ) (next : SharedPager × Client) :
    (T.set k next).client k = next.2 := Function.update_self ..

/-- What a client does alone it does among clients that make no step. -/
theorem run_of_goes {n : Nat} {x y : Solo} (hgoes : Goes Solo.next n x y)
    (hshared : T.shared = x.shared)
    (hclient : T.client k = x.client) :
    ∃ oks : List Bool, Run ThreadStep T (oks.map (.step k)) (T.set k (y.shared, y.client)) := by
  induction hgoes generalizing T with
  | here x =>
      refine ⟨[], ?_⟩
      rw [← hshared, ← hclient, set_self]
      exact .nil T
  | @step n x y z head _ ih =>
      cases hstep : x.client.step x.shared x.ok with
      | none =>
          rw [Solo.next, hstep] at head
          cases head
      | some next =>
          obtain ⟨shared, c⟩ := next
          rw [Solo.next, hstep] at head
          cases head
          have hfirst : ThreadStep T (.step k x.ok) (T.set k (shared, c)) := by
            refine .step ?_
            rw [hshared, hclient, hstep]
          obtain ⟨oks, hrest⟩ := ih (T := T.set k (shared, c)) rfl (client_set ..)
          rw [set_set] at hrest
          exact ⟨x.ok :: oks, .cons hfirst hrest⟩

/-- A call, as far as the client alone goes on in it. -/
theorem run_of_call {n : Nat} {x : Solo} {call : PagerCall} (hidle : (T.client k).point = .idle)
    (hstart : (T.client k).start T.shared call = some (s.pager.share, c))
    (hgoes : Goes Solo.next n (settled c s) x) :
    ∃ oks : List Bool, Run ThreadStep T (.start k call :: oks.map (.step k))
      (T.set k (x.shared, x.client)) := by
  obtain ⟨oks, hrest⟩ := run_of_goes (T := T.set k (s.pager.share, c)) hgoes rfl (client_set ..)
  rw [set_set] at hrest
  exact ⟨oks, .cons (.start hidle hstart) hrest⟩

/-! ### What is held -/

section

variable {held rest : List (PageRef × Bool)} {counts : PageRef → Bool → Nat} {page : PageRef}
  {exclusive : Bool}

/-- The client holds a page more. -/
theorem count_fixed (hcounts : ∀ q e, held.count (q, e) = counts q e) (q : PageRef) (e : Bool) :
    ((page, exclusive) :: held).count (q, e) =
      hold counts page exclusive (counts page exclusive + 1) q e := by
  rw [List.count_cons, hcounts, hold]
  by_cases hsame : q = page ∧ e = exclusive
  · obtain ⟨rfl, rfl⟩ := hsame
    simp
  · have hne : ¬ (page, exclusive) = (q, e) := by
      rintro ⟨⟩
      exact hsame ⟨rfl, rfl⟩
    simp [hsame, hne]

/-- The client holds a page less. -/
theorem count_unfixed (hcounts : ∀ q e, held.count (q, e) = counts q e)
    (hperm : ((page, exclusive) :: rest).Perm held) (q : PageRef) (e : Bool) :
    rest.count (q, e) = hold counts page exclusive (counts page exclusive - 1) q e := by
  have hcount : ((page, exclusive) :: rest).count (q, e) = counts q e :=
    (hperm.count_eq _).trans (hcounts q e)
  rw [List.count_cons] at hcount
  rw [hold]
  by_cases hsame : q = page ∧ e = exclusive
  · obtain ⟨rfl, rfl⟩ := hsame
    simp at hcount ⊢
    omega
  · have hne : ¬ (page, exclusive) = (q, e) := by
      rintro ⟨⟩
      exact hsame ⟨rfl, rfl⟩
    simpa [hsame, hne] using hcount

end

/-! ### Calls of the process -/

/-- A fix of page zero is refused. -/
theorem pagerFix_pageZero (exclusive : Bool) (s : Sys) :
    ∃ e, pagerFix 0 exclusive s = .failure { s with err := e } := by
  obtain ⟨e, he, -⟩ := failure_apply (α := Unit) ⟨"src/pager.c", "pager_fix", 372⟩
    (show EINVAL ≠ 0 by decide) ["invalid page id"] s
  exact ⟨e, by simp [pagerFix, he]⟩

/-- A fix that is not refused is of a page. -/
theorem ne_zero_of_ne_failure {id : PageId} {exclusive : Bool}
    (hrun : ∀ t, pagerFix id exclusive s ≠ .failure t) : id ≠ 0 := by
  rintro rfl
  obtain ⟨e, hrefused⟩ := pagerFix_pageZero exclusive s
  exact hrun _ hrefused

/-- Where a client is once it has started to fix a page. -/
def Client.enter (c : Client) (r : FixCall) : Client :=
  if r.id = 0 then c else c.goto (.fix r .readEntry)

/-- The process once `pager_next` has counted the page. -/
def Sys.nextPaged (s : Sys) : Sys :=
  { s with pager := { s.pager with nextPage := (s.pager.nextPage + 1) % 2 ^ 32 } }

namespace Rests

variable {u v : CacheState} {r : FixCall} {call : PagerCall} {e : CacheEvent} {page : PageRef}
  {exclusive : Bool}

/-- The clients after a call. -/
theorem set {shared : SharedPager} (h : Rests k T u) (hshared : shared = v.sys.pager.share)
    (hidle : c.point = .idle)
    (hheld : ∀ page exclusive, c.held.count (page, exclusive) = v.held page exclusive) :
    Rests k (T.set k (shared, c)) v where
  shared := hshared
  idle := by rw [client_set, hidle]
  held := by
    rw [client_set]
    exact hheld
  others d hd := (Function.update_of_ne hd ..).trans (h.others d hd)

omit [DecidableEq κ] in
theorem start_fix (h : Rests k T u) (id : PageId) (exclusive : Bool) :
    (T.client k).start T.shared (.fix id exclusive) =
      some (u.sys.pager.share, (T.client k).enter ⟨id, exclusive, false⟩) := by
  rw [h.shared, Client.start, Client.enter]
  split <;> rfl

omit [DecidableEq κ] in
theorem start_next (h : Rests k T u) :
    (T.client k).start T.shared .next =
      some (u.sys.nextPaged.pager.share,
        (T.client k).enter ⟨u.sys.pager.nextPage, true, true⟩) := by
  rw [h.shared]
  change (if u.sys.pager.nextPage = 0 then _ else _) = _
  rw [Client.enter]
  split <;> rfl

/-- A call that fixes a page. -/
theorem fixed (h : Rests k T u)
    (hstart : (T.client k).start T.shared call = some (s.pager.share, (T.client k).enter r))
    (hrun : pagerFix r.id r.exclusive s = .success page t) :
    ∃ (oks : List Bool) (T' : Threads κ), Run ThreadStep T (.start k call :: oks.map (.step k)) T' ∧
      Rests k T'
        { u with
          sys := t, held := hold u.held page r.exclusive (u.held page r.exclusive + 1) } := by
  have hid : r.id ≠ 0 := ne_zero_of_ne_failure (by rw [hrun]; rintro _ ⟨⟩)
  have hmatches := matches_pagerFix (s := s) (c := T.client k) hid
  rw [hrun, beside_zero] at hmatches
  obtain ⟨n, x, hgoes, hpage, rfl⟩ := hmatches
  rw [Client.enter, if_neg hid] at hstart
  obtain ⟨oks, hcall⟩ := run_of_call h.idle hstart hgoes
  rw [beside_zero] at hcall
  refine ⟨oks, _, hcall, h.set rfl rfl ?_⟩
  have hret : ((T.client k).ret r (some page.frame)).held = (page, r.exclusive) ::
      (T.client k).held := by
    rw [Client.ret, ← hpage]
  rw [settled, hret]
  exact count_fixed h.held

/-- A call that is refused a page. -/
theorem refused (h : Rests k T u)
    (hstart : (T.client k).start T.shared call = some (s.pager.share, (T.client k).enter r))
    (hrun : pagerFix r.id r.exclusive s = .failure t) :
    ∃ (oks : List Bool) (T' : Threads κ), Run ThreadStep T (.start k call :: oks.map (.step k)) T' ∧
      Rests k T' { u with sys := t } := by
  by_cases hid : r.id = 0
  · -- the call has returned as soon as it starts
    rw [hid] at hrun
    obtain ⟨e, hrefused⟩ := pagerFix_pageZero r.exclusive s
    obtain rfl := Outcome.failure.inj (hrefused.symm.trans hrun)
    rw [Client.enter, if_pos hid] at hstart
    exact ⟨[], _, .cons (.start h.idle hstart) (.nil _), h.set rfl h.idle h.held⟩
  · have hmatches := matches_pagerFix (s := s) (c := T.client k) hid
    rw [hrun, beside_zero] at hmatches
    obtain ⟨n, x, hgoes, rfl⟩ := hmatches
    rw [Client.enter, if_neg hid] at hstart
    obtain ⟨oks, hcall⟩ := run_of_call h.idle hstart hgoes
    rw [beside_zero] at hcall
    exact ⟨oks, _, hcall, h.set rfl rfl h.held⟩

/-- A call that lets a page go. -/
theorem unfixed {i : Nat} {saved : PageId → Option Mem} (h : Rests k T u)
    (hheld : (T.client k).held[i]? = some (page, exclusive))
    (hok : LatchOk (u.sys.pager.header page.frame)) (hrun : pagerUnfix page u.sys = .success () t) :
    ∃ (oks : List Bool) (T' : Threads κ),
      Run ThreadStep T (.start k (.unfix i) :: oks.map (.step k)) T' ∧
      Rests k T' ⟨t, hold u.held page exclusive (u.held page exclusive - 1), saved⟩ := by
  let released : Client := { T.client k with held := (T.client k).held.eraseIdx i }
  have hstart : (T.client k).start T.shared (.unfix i) =
      some (u.sys.pager.share, released.goto (.unfix page exclusive .load)) := by
    rw [h.shared, Client.start, hheld]
    rfl
  have hperm : ((page, exclusive) :: (T.client k).held.eraseIdx i).Perm (T.client k).held := by
    obtain ⟨hi, hget⟩ := List.getElem?_eq_some_iff.mp hheld
    rw [← hget]
    exact List.getElem_cons_eraseIdx_perm hi
  obtain ⟨oks, hcall⟩ := run_of_call h.idle hstart (goes_unfix hok hrun)
  exact ⟨oks, _, hcall, h.set (c := released.goto .idle) rfl rfl (count_unfixed h.held hperm)⟩

/-- One event of the process. -/
theorem turn (h : Rests k T u) (hu : CacheOk 0 u ∨ Unused u) (hstep : CacheStep u e v) :
    ∃ events T', Turn k (T, u) (e, events) (T', v) := by
  cases hstep with
  | fix hrun =>
      rename_i id exclusive page t
      obtain ⟨oks, T', hcall, hrests⟩ := h.fixed (h.start_fix id exclusive) hrun
      exact ⟨_, T', .call _ oks (.fix ..) (.fix hrun) hcall hrests⟩
  | fixRefused hrun =>
      rename_i id exclusive t
      obtain ⟨oks, T', hcall, hrests⟩ := h.refused (h.start_fix id exclusive) hrun
      exact ⟨_, T', .call _ oks (.fix ..) (.fixRefused hrun) hcall hrests⟩
  | next hrun =>
      rename_i page t
      have hfix := hrun
      rw [pagerNext_apply] at hfix
      obtain ⟨oks, T', hcall, hrests⟩ := h.fixed h.start_next hfix
      exact ⟨_, T', .call _ oks (.next _) (.next hrun) hcall hrests⟩
  | nextRefused hrun =>
      rename_i t
      have hfix := hrun
      rw [pagerNext_apply] at hfix
      obtain ⟨oks, T', hcall, hrests⟩ := h.refused h.start_next hfix
      exact ⟨_, T', .call _ oks (.next _) (.nextRefused hrun) hcall hrests⟩
  | unfix hheld hrun =>
      rename_i page exclusive t
      rcases hu with hu | hu
      · obtain ⟨hpage, hloc⟩ := hu.held.there page exclusive hheld
        -- the client unfixes the first of its fixes that is one of the page in this mode
        have hmem : (page, exclusive) ∈ (T.client k).held := by
          rwa [← List.count_pos_iff, h.held]
        obtain ⟨i, hi⟩ := List.getElem?_of_mem hmem
        obtain ⟨oks, T', hcall, hrests⟩ := h.unfixed hi (hu.ok.latchOk hpage hloc) hrun
        exact ⟨_, T', .call _ oks (.unfix hi) (.unfix hheld hrun) hcall hrests⟩
      · rw [hu.held] at hheld
        cases hheld
  | write data hheld =>
      rename_i page
      -- the data of a page is no part of what the clients share
      refine ⟨[], T, .write (.write data hheld) ⟨?_, h.idle, h.held, h.others⟩⟩
      rw [h.shared, Pager.writeData, share_setHeader]
      simp [SharedPager.setLatch, SharedPager.setFlags, Pager.share]

/-- A call that does not come back from its fix. -/
theorem waits {fault : Fault} (h : Rests k T u) (hpager : Ok 0 s.pager ∨ NoFrames s.pager)
    (hstart : (T.client k).start T.shared call = some (s.pager.share, (T.client k).enter r))
    (hrun : pagerFix r.id r.exclusive s = .fault fault) :
    ∃ (oks : List Bool) (T' : Threads κ),
      Run ThreadStep T (.start k call :: oks.map (.step k)) T' ∧ WaitsAt k T' := by
  have hid : r.id ≠ 0 := ne_zero_of_ne_failure (by rw [hrun]; rintro _ ⟨⟩)
  obtain ⟨n, x, hgoes, hidle, haborted, hnone⟩ := waits_pagerFix (c := T.client k) hpager hid hrun
  rw [Client.enter, if_neg hid] at hstart
  obtain ⟨oks, hcall⟩ := run_of_call h.idle hstart hgoes
  refine ⟨oks, T.set k (x.shared, x.client), hcall, ?_, ?_, fun ok => ?_⟩
  · rwa [client_set]
  · rwa [client_set]
  · rw [client_set]
    exact hnone ok

/-- A call that does not return. -/
theorem hangs (h : Rests k T u) (hu : CacheOk 0 u ∨ Unused u) (hcall : u.Hangs call) :
    ∃ (oks : List Bool) (T' : Threads κ),
      Run ThreadStep T (.start k call :: oks.map (.step k)) T' ∧ WaitsAt k T' := by
  cases call with
  | fix id exclusive =>
      obtain ⟨fault, hrun⟩ := hcall
      exact h.waits (hu.imp CacheOk.ok Unused.frames) (h.start_fix id exclusive) hrun
  | next =>
      obtain ⟨fault, hrun⟩ := hcall
      rw [pagerNext_apply] at hrun
      have hmove : Ok 0 u.sys.nextPaged.pager ∨ NoFrames u.sys.nextPaged.pager :=
        hu.imp (fun hu => (hu.moveNextPage _).ok) fun hu => hu.frames.moveNextPage _
      exact h.waits hmove h.start_next hrun
  | evict => exact hcall.elim
  | unfix i => exact hcall.elim

end Rests

/-! ### Runs of the process -/

theorem Turn.clients {S S' : Threads κ × CacheState} {move : CacheEvent × List (ThreadEvent κ)}
    (h : Turn k S move S') : Run ThreadStep S.1 move.2 S'.1 := by
  cases h with
  | call call oks hmakes hprocess hclients hrests => exact hclients
  | write hprocess hrests => exact .nil _

theorem Turn.rests {S S' : Threads κ × CacheState} {move : CacheEvent × List (ThreadEvent κ)}
    (h : Turn k S move S') : Rests k S'.1 S'.2 := by
  cases h with
  | call call oks hmakes hprocess hclients hrests => exact hrests
  | write hprocess hrests => exact hrests

/-- What the clients do in turns is a run of them. -/
theorem clients_of_turns {S S' : Threads κ × CacheState}
    {moves : List (CacheEvent × List (ThreadEvent κ))}
    (h : Run (Turn k) S moves S') : Run ThreadStep S.1 (moves.flatMap Prod.snd) S'.1 := by
  induction h with
  | nil S => exact .nil S.1
  | @cons S S₁ S' move moves head _ ih =>
      rw [List.flatMap_cons]
      exact head.clients.append ih

/-- A run of the process, in turns. -/
theorem Rests.turns {u v : CacheState} {es : List CacheEvent} (h : Rests k T u)
    (hu : CacheOk 0 u ∨ Unused u) (hrun : Run CacheStep u es v) :
    ∃ moves T', Run (Turn k) (T, u) moves (T', v) ∧ moves.map Prod.fst = es ∧ Rests k T' v := by
  induction hrun generalizing T with
  | nil u => exact ⟨[], T, .nil _, rfl, h⟩
  | @cons u v w e es head _ ih =>
      obtain ⟨events, T₁, hturn⟩ := h.turn hu head
      have hv : CacheOk 0 v ∨ Unused v := hu.imp (fun hu => hu.step_all head) fun hu => hu.step head
      obtain ⟨moves, T₂, hmoves, rfl, hrests⟩ := ih hturn.rests hv
      exact ⟨(e, events) :: moves, T₂, .cons hturn hmoves, rfl, hrests⟩

omit [DecidableEq κ] in
/-- The clients before their first call. -/
theorem rests_init {pageSize directorySize : Nat} (k : κ)
    (hopen : OpenedWith pageSize directorySize s) :
    Rests k (Threads.init κ directorySize) (cacheStart s) where
  shared := by
    rw [show (cacheStart s).sys.pager = _ from hopen.pager]
    rfl
  idle := rfl
  held _ _ := rfl
  others _ _ := rfl

/-- Every run of the process is a run of one client that no other interleaves with, and after
every call the clients are where the process is. Where a call of the process does not return,
the client comes to a point where it has no step. -/
theorem process_is_client_alone {pageSize directorySize : Nat} (k : κ)
    (hopen : OpenedWith pageSize directorySize s) {es : List CacheEvent} {u : CacheState}
    (hrun : Run CacheStep (cacheStart s) es u) :
    ∃ moves T, Run (Turn k) (Threads.init κ directorySize, cacheStart s) moves (T, u) ∧
      moves.map Prod.fst = es ∧ Run ThreadStep (Threads.init κ directorySize)
        (moves.flatMap Prod.snd) T ∧
      Rests k T u ∧ ∀ call, u.Hangs call → ∃ (oks : List Bool) (T' : Threads κ),
        Run ThreadStep T (.start k call :: oks.map (.step k)) T' ∧ WaitsAt k T' := by
  have hstart : CacheOk 0 (cacheStart s) ∨ Unused (cacheStart s) :=
    cacheRun_ok_all hopen.opened (.nil _)
  obtain ⟨moves, T, hmoves, hevents, hrests⟩ := (rests_init k hopen).turns hstart hrun
  refine ⟨moves, T, hmoves, hevents, clients_of_turns hmoves, hrests, fun call hcall => ?_⟩
  exact hrests.hangs (cacheRun_ok_all hopen.opened hrun) hcall

/-- Three pages pass through two frames, and the last is fixed once more by its writer. -/
theorem process_is_client_alone_once :
    ∃ es u, Run CacheStep (cacheStart (freshSys 16 4)) es u ∧ u.Hangs (.fix 3 true) ∧
      ∃ events T, Run ThreadStep (Threads.init Bool 4) events T ∧
        (T.client true).held.count (⟨3, 0⟩, true) = 1 ∧ ∃ (oks : List Bool) (T' : Threads Bool),
          Run ThreadStep T (.start true (.fix 3 true) :: oks.map (.step true)) T' ∧
            WaitsAt true T' := by
  have hplay : (((cacheStart (freshSys 16 4)).calls [.fix 1 true, .unfix ⟨1, 0⟩ true, .fix 2 false,
      .unfix ⟨2, 1⟩ false, .fix 3 true]).map fun r =>
        (r.2.held ⟨3, 0⟩ true, (pagerFix 3 true r.2.sys).fault?)) = some (1, some .hang) := by
    decide +kernel
  obtain ⟨⟨es, u⟩, hcalls, hplay⟩ := Option.map_eq_some_iff.mp hplay
  obtain ⟨hheld, hfault⟩ := Prod.mk.inj hplay
  have hrun : Run CacheStep (cacheStart (freshSys 16 4)) es u := CacheState.calls_run hcalls
  have hhangs : u.Hangs (.fix 3 true) := ⟨.hang, Outcome.fault?_eq_some.mp hfault⟩
  obtain ⟨moves, T, -, -, hclients, hrests, hwaits⟩ :=
    process_is_client_alone true openedWith_freshSys hrun
  exact ⟨es, u, hrun, hhangs, _, T, hclients, (hrests.held _ _).trans hheld, hwaits _ hhangs⟩

end Wednesday
