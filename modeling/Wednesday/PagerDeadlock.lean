import Wednesday.PagerFrames

/-!
Lock coupling on one pager: clients that hold pages exclusively and ask for one
more, further down the tree or new. A client waits for a page latch with the
latch of a hash entry in hand, so the order in which the two kinds of latches
are taken is not fixed, and clients can block each other.
-/

namespace Wednesday

open Lib SharedPager

namespace Client

/-- The `pager_fix` a client is in. -/
def asks (c : Client) : Option FixCall :=
  match c.point with
  | .fix r _ | .create r _ => some r
  | .evict caller _ _ => caller
  | _ => none

/-- The client asks for the page, or has it fixed. -/
def Knows (c : Client) (id : PageId) : Prop :=
  c.asks.map FixCall.id = some id ∨ ∃ p ∈ c.fixed, p.1.id = id

instance (c : Client) (id : PageId) : Decidable (c.Knows id) := inferInstanceAs (Decidable (_ ∨ _))

/-- The hash entry whose latch the client tries to take, and in which mode. -/
def entryWanted (mask : Nat) (c : Client) : Option (Nat × Bool) :=
  match c.point with
  | .fix r .readEntry => some (pagerHash mask r.id, false)
  | .fix r .writeEntry => some (pagerHash mask r.id, true)
  | .evict _ _ (.entry _ id) => some (pagerHash mask id, true)
  | _ => none

/-- The frame whose latch the client tries to take, and in which mode. -/
def pageWanted (c : Client) : Option (Nat × Bool) :=
  match c.point with
  | .fix r (.pageLatch _ f) => some (f, r.exclusive)
  | _ => none

end Client

section

variable {κ : Type}

/-- `c` waits for the latch of a hash entry that `d` holds. -/
def EntryBlocked (s : Threads κ) (c d : κ) : Prop :=
  ∃ e ∈ (s.client c).entryWanted s.shared.mask, acquireWord (s.shared.entryLatch e.1) e.2 = none ∧
    ∃ e' ∈ (s.client d).point.entry s.shared.mask, e'.1 = e.1

/-- `c` waits for the latch of a page that `d` holds. -/
def PageBlocked (s : Threads κ) (c d : κ) : Prop :=
  ∃ e ∈ (s.client c).pageWanted, acquireWord (s.shared.latch e.1) e.2 = none ∧
    ∃ pin ∈ ((s.client d).view s.shared.mask).pins, pin.page.frame = e.1

/-- `c` waits for a latch that another client holds. -/
def Blocked (s : Threads κ) (c d : κ) : Prop := c ≠ d ∧ (EntryBlocked s c d ∨ PageBlocked s c d)

instance (s : Threads κ) (c d : κ) : Decidable (EntryBlocked s c d) :=
  inferInstanceAs (Decidable (∃ e ∈ _, _ ∧ ∃ e' ∈ _, _))

instance (s : Threads κ) (c d : κ) : Decidable (PageBlocked s c d) :=
  have : ∀ f, Decidable (∃ pin ∈ ((s.client d).view s.shared.mask).pins, pin.page.frame = f) :=
    fun _ => Multiset.decidableExistsMultiset
  inferInstanceAs (Decidable (∃ e ∈ _, _ ∧ ∃ pin ∈ _, _))

/-- Some clients wait for each other. -/
def Deadlock (s : Threads κ) : Prop :=
  ∃ S : Finset κ, S.Nonempty ∧ ∀ c ∈ S, ∃ d ∈ S, Blocked s c d

/-- A client that has pages fixed waits for a hash entry, which is latched by a
client that waits for a page. -/
def Inverted (s : Threads κ) : Prop :=
  ∃ c d e, (s.client c).held ≠ [] ∧ EntryBlocked s c d ∧ PageBlocked s d e

/-- Lock coupling: a client asks exclusively, for a page further down than all
it holds and not just being created, or for a new page that nobody knows. -/
def Coupled (rank : PageId → Nat) (s : Threads κ) : ThreadEvent κ → Prop
  | .start c (.fix id exclusive) => exclusive = true ∧
      (∀ p ∈ (s.client c).held, rank p.1.id < rank id) ∧
      ∀ d, ((s.client d).asks.all fun r => r.fresh = false ∨ r.id ≠ id) = true
  | .start _ .next => ∀ d, ¬ (s.client d).Knows s.shared.nextPage
  | .start _ .evict => False
  | .start _ (.unfix _) => True
  | .step _ _ => True

instance [Fintype κ] (rank : PageId → Nat) (s : Threads κ) (e : ThreadEvent κ) :
    Decidable (Coupled rank s e) :=
  match e with
  | .start _ (.fix _ _) => inferInstanceAs (Decidable (_ ∧ _ ∧ ∀ _, _))
  | .start _ .next => inferInstanceAs (Decidable (∀ _, ¬ _))
  | .start _ .evict => inferInstanceAs (Decidable False)
  | .start _ (.unfix _) => inferInstanceAs (Decidable True)
  | .step _ _ => inferInstanceAs (Decidable True)

instance [Fintype κ] (s : Threads κ) : Decidable (Inverted s) :=
  inferInstanceAs (Decidable (∃ _ _ _, _ ≠ [] ∧ _ ∧ _))

/-! ### What a step does to the pages a client asks for and holds -/

/-- The call in progress stays the same or ends, and brings at most its own
page. -/
structure Serves (c c' : Client) : Prop where
  asks : c'.asks = none ∨ c'.asks = c.asks ∧ c'.held = c.held
  fixed : ∀ p ∈ c'.fixed, p ∈ c.fixed ∨ c.asks.map FixCall.id = some p.1.id

theorem Serves.of_same {c c' : Client} (hasks : c'.asks = c.asks) (hheld : c'.held = c.held)
    (hfixed : c'.fixed = c.fixed) : Serves c c' :=
  ⟨Or.inr ⟨hasks, hheld⟩, fun _ hp => Or.inl (hfixed ▸ hp)⟩

variable {s : SharedPager} {held : List (PageRef × Bool)} {next : SharedPager × Client} {ok : Bool}

theorem serves_goto {c : Client} {p : Point}
    (hasks : (c.goto p).asks = none ∨ (c.goto p).asks = c.asks)
    (hfixed : (c.goto p).fixed = c.held) (hheld : ∀ q ∈ c.held, q ∈ c.fixed) :
    Serves c (c.goto p) := by
  refine ⟨hasks.imp_right fun h => ⟨h, rfl⟩, fun q hq => Or.inl ?_⟩
  rw [hfixed] at hq
  exact hheld q hq

theorem serves_afterLatch (c : Client) (path : Path) (r : FixCall) (f : Nat)
    (hasks : c.asks = some r) (hheld : ∀ q ∈ c.held, q ∈ c.fixed) :
    Serves c (c.afterLatch path r f) := by
  cases path <;> exact serves_goto (Or.inr hasks.symm) rfl hheld

theorem serves_ret (c : Client) (r : FixCall) (result : Option Nat) (hasks : c.asks = some r)
    (hheld : ∀ q ∈ c.held, q ∈ c.fixed) : Serves c (c.ret r result) := by
  refine ⟨Or.inl rfl, fun q hq => ?_⟩
  cases result with
  | none => exact Or.inl (hheld q hq)
  | some f =>
      rcases List.mem_cons.mp hq with rfl | hq
      · exact Or.inr (congrArg (Option.map FixCall.id) hasks)
      · exact Or.inl (hheld q hq)

theorem serves_fixStep {r : FixCall} {p : FixPoint}
    (h : Client.fixStep s ⟨.fix r p, held⟩ ok r p = some next) :
    Serves ⟨.fix r p, held⟩ next.2 := by
  have hgoto : ∀ q : FixPoint, Serves ⟨.fix r p, held⟩ (Client.goto ⟨.fix r p, held⟩ (.fix r q)) :=
    fun q => serves_goto (Or.inr rfl) rfl fun _ h => h
  have habort : Serves ⟨.fix r p, held⟩ (Client.goto ⟨.fix r p, held⟩ .aborted) :=
    serves_goto (Or.inl rfl) rfl fun _ h => h
  have hcount : ∀ n, Serves ⟨.fix r p, held⟩ (Client.afterCount s ⟨.fix r p, held⟩ r n) := by
    intro n
    rw [Client.afterCount]
    split
    · exact serves_goto (Or.inr rfl) rfl fun _ h => h
    · exact hgoto _
  cases p with
  | readEntry =>
      obtain ⟨word, -, rfl⟩ := Option.map_eq_some_iff.mp h
      exact hgoto _
  | lookup =>
      rw [Client.fixStep] at h
      split at h
      · cases h
        exact habort
      · split at h <;> cases h <;> exact hgoto _
  | loadCount =>
      cases h
      exact hcount _
  | exchangeCount count =>
      rw [Client.fixStep] at h
      split at h <;> cases h
      · exact hgoto _
      · exact hcount _
  | writeEntry =>
      obtain ⟨word, -, rfl⟩ := Option.map_eq_some_iff.mp h
      exact hgoto _
  | relookup =>
      rw [Client.fixStep] at h
      split at h
      · cases h
        exact habort
      · split at h <;> cases h
        · exact hgoto _
        · exact serves_goto (Or.inr rfl) rfl fun _ h => h
  | pageLatch path f =>
      obtain ⟨word, -, rfl⟩ := Option.map_eq_some_iff.mp h
      dsimp only
      split
      · exact hgoto _
      · exact serves_afterLatch _ _ _ _ rfl fun _ h => h
  | pageFlag path f =>
      cases h
      exact serves_afterLatch _ _ _ _ rfl fun _ h => h
  | subCount result =>
      cases h
      exact hgoto _
  | readAssert result =>
      rw [Client.fixStep] at h
      split at h <;> cases h
      · exact hgoto _
      · exact habort
  | readDrop result =>
      cases h
      dsimp only
      split
      · exact serves_ret _ _ _ rfl fun _ h => h
      · exact hgoto _
  | writeAssert result =>
      rw [Client.fixStep] at h
      split at h <;> cases h
      · exact hgoto _
      · exact habort
  | writeDrop result =>
      cases h
      exact serves_ret _ _ _ rfl fun _ h => h

theorem serves_createStep {r : FixCall} {p : CreatePoint}
    (h : Client.createStep s ⟨.create r p, held⟩ ok r p = some next) :
    Serves ⟨.create r p, held⟩ next.2 := by
  have hgoto : ∀ q : Point, (q = .aborted ∨ (∃ p, q = .create r p) ∨ ∃ p, q = .fix r p) →
      Serves ⟨.create r p, held⟩ (Client.goto ⟨.create r p, held⟩ q) := by
    rintro q (rfl | ⟨p, rfl⟩ | ⟨p, rfl⟩)
    · exact serves_goto (Or.inl rfl) rfl fun _ h => h
    · exact serves_goto (Or.inr rfl) rfl fun _ h => h
    · exact serves_goto (Or.inr rfl) rfl fun _ h => h
  cases p <;> simp only [Client.createStep] at h <;> (repeat' split at h) <;> cases h <;>
    exact hgoto _ (by simp)

theorem serves_evictStep {caller : Option FixCall} {n : Nat} {p : EvictPoint}
    (h : Client.evictStep s ⟨.evict caller n p, held⟩ caller n p = some next) :
    Serves ⟨.evict caller n p, held⟩ next.2 := by
  have hgoto : ∀ q : Point, (q = .aborted ∨ q = .idle ∨ ∃ n p, q = .evict caller n p) →
      Serves ⟨.evict caller n p, held⟩ (Client.goto ⟨.evict caller n p, held⟩ q) := by
    rintro q (rfl | rfl | ⟨n, p, rfl⟩)
    · exact serves_goto (Or.inl rfl) rfl fun _ h => h
    · exact serves_goto (Or.inl rfl) rfl fun _ h => h
    · exact serves_goto (Or.inr rfl) rfl fun _ h => h
  cases p with
  | entry f id =>
      obtain ⟨word, -, rfl⟩ := Option.map_eq_some_iff.mp h
      exact hgoto _ (by simp)
  | drop f id after =>
      cases h
      cases after with
      | reload j =>
          dsimp only [Client.afterDrop]
          split <;> exact hgoto _ (by simp)
      | again => exact hgoto _ (by simp)
      | done =>
          cases caller with
          | none => exact hgoto _ (by simp)
          | some r => exact serves_goto (Or.inr rfl) rfl fun _ h => h
  | _ =>
      simp only [Client.evictStep] at h
      (repeat' split at h) <;> cases h <;> exact hgoto _ (by simp)

theorem serves_unfixStep {page : PageRef} {exclusive : Bool} {p : UnfixPoint}
    (h : Client.unfixStep s ⟨.unfix page exclusive p, held⟩ page exclusive p = some next) :
    Serves ⟨.unfix page exclusive p, held⟩ next.2 := by
  have hgoto : ∀ q : Point, (q = .aborted ∨ q = .idle) →
      Serves ⟨.unfix page exclusive p, held⟩ (Client.goto ⟨.unfix page exclusive p, held⟩ q) := by
    rintro q (rfl | rfl) <;>
      exact serves_goto (Or.inl rfl) rfl fun _ h => List.mem_cons_of_mem _ h
  have hsame : ∀ q : UnfixPoint, Serves ⟨.unfix page exclusive p, held⟩
      (Client.goto ⟨.unfix page exclusive p, held⟩ (.unfix page exclusive q)) :=
    fun q => Serves.of_same rfl rfl rfl
  cases p <;> simp only [Client.unfixStep] at h <;> (repeat' split at h) <;> cases h <;>
    first | exact hsame _ | exact hgoto _ (by simp)

theorem serves_step {c : Client} (h : c.step s ok = some next) : Serves c next.2 := by
  obtain ⟨p, held⟩ := c
  cases p with
  | idle => cases h
  | aborted => cases h
  | fix r p => exact serves_fixStep h
  | create r p => exact serves_createStep h
  | evict caller n p => exact serves_evictStep h
  | unfix page exclusive p => exact serves_unfixStep h

/-! ### The discipline as an invariant -/

/-- What lock coupling guarantees in every state. -/
structure CoupledOk (rank : PageId → Nat) (s : Threads κ) : Prop where
  exclusive : ∀ c r, (s.client c).asks = some r → r.exclusive = true
  below : ∀ c r, (s.client c).asks = some r → r.fresh = false →
    ∀ p ∈ (s.client c).held, rank p.1.id < rank r.id
  unknown : ∀ c r, (s.client c).asks = some r → r.fresh = true →
    ∀ d, d ≠ c → ¬ (s.client d).Knows r.id

theorem Serves.knows {c c' : Client} (h : Serves c c') {id : PageId} (hk : c'.Knows id) :
    c.Knows id := by
  rcases hk with hasks | ⟨p, hp, rfl⟩
  · rcases h.asks with hnone | ⟨hsame, -⟩
    · rw [hnone] at hasks
      cases hasks
    · rw [hsame] at hasks
      exact Or.inl hasks
  · rcases h.fixed p hp with hp | hasks
    · exact Or.inr ⟨p, hp, rfl⟩
    · exact Or.inl hasks

namespace CoupledOk

variable [DecidableEq κ] {rank : PageId → Nat} {s : Threads κ} {c : κ} {s' : SharedPager}
  {c' : Client}

/-- A client goes on with its call, or ends it. -/
theorem serve (h : CoupledOk rank s) (hserve : Serves (s.client c) c') :
    CoupledOk rank (s.set c (s', c')) := by
  have hclient : ∀ d, d ≠ c → (s.set c (s', c')).client d = s.client d := fun d hd =>
    Function.update_of_ne hd _ _
  have hself : (s.set c (s', c')).client c = c' := Function.update_self _ _ _
  -- the call of the client that moved, if it still is in one
  have hcall : ∀ d r, ((s.set c (s', c')).client d).asks = some r → (s.client d).asks = some r ∧
      ((s.set c (s', c')).client d).held = (s.client d).held := by
    intro d r hr
    by_cases hd : d = c
    · subst hd
      rw [hself] at hr ⊢
      rcases hserve.asks with hnone | ⟨hasks, hheld⟩
      · rw [hnone] at hr
        cases hr
      · exact ⟨hasks ▸ hr, hheld⟩
    · rw [hclient d hd] at hr ⊢
      exact ⟨hr, rfl⟩
  refine ⟨fun d r hr => h.exclusive d r (hcall d r hr).1, fun d r hr hfresh p hp => ?_,
    fun d r hr hfresh e he hk => ?_⟩
  · obtain ⟨hasks, hheld⟩ := hcall d r hr
    exact h.below d r hasks hfresh p (hheld ▸ hp)
  · refine h.unknown d r (hcall d r hr).1 hfresh e he ?_
    by_cases hec : e = c
    · subst hec
      rw [hself] at hk
      exact hserve.knows hk
    · rwa [hclient e hec] at hk

/-- A client starts a call. -/
theorem ask (h : CoupledOk rank s) {r : FixCall} (hasks : c'.asks = some r)
    (hheld : c'.held = (s.client c).held) (hfixed : c'.fixed = (s.client c).held)
    (hkeep : ∀ p ∈ (s.client c).held, p ∈ (s.client c).fixed) (hexclusive : r.exclusive = true)
    (hbelow : r.fresh = false → ∀ p ∈ (s.client c).held, rank p.1.id < rank r.id)
    (hunknown : r.fresh = true → ∀ d, ¬ (s.client d).Knows r.id)
    (hothers : ∀ d r', (s.client d).asks = some r' → r'.fresh = true → r'.id ≠ r.id) :
    CoupledOk rank (s.set c (s', c')) := by
  have hclient : ∀ d, d ≠ c → (s.set c (s', c')).client d = s.client d := fun d hd =>
    Function.update_of_ne hd _ _
  have hself : (s.set c (s', c')).client c = c' := Function.update_self _ _ _
  refine ⟨fun d r' hr => ?_, fun d r' hr hfresh p hp => ?_, fun d r' hr hfresh e he hk => ?_⟩
  · by_cases hd : d = c
    · subst hd
      rw [hself, hasks] at hr
      cases hr
      exact hexclusive
    · rw [hclient d hd] at hr
      exact h.exclusive d r' hr
  · by_cases hd : d = c
    · subst hd
      rw [hself, hasks] at hr
      cases hr
      rw [hself, hheld] at hp
      exact hbelow hfresh p hp
    · rw [hclient d hd] at hr hp
      exact h.below d r' hr hfresh p hp
  · by_cases hd : d = c
    · subst hd
      rw [hself, hasks] at hr
      cases hr
      rw [hclient e he] at hk
      exact hunknown hfresh e hk
    · rw [hclient d hd] at hr
      by_cases hec : e = c
      · subst hec
        rw [hself] at hk
        rcases hk with hk | ⟨p, hp, hid⟩
        · rw [hasks] at hk
          exact hothers d r' hr hfresh (Option.some.inj hk).symm
        · rw [hfixed] at hp
          exact h.unknown d r' hr hfresh e he (Or.inr ⟨p, hkeep p hp, hid⟩)
      · rw [hclient e hec] at hk
        exact h.unknown d r' hr hfresh e he hk

theorem start (h : CoupledOk rank s) {call : PagerCall} {next : SharedPager × Client}
    (hidle : (s.client c).point = .idle) (hcoupled : Coupled rank s (.start c call))
    (hstart : (s.client c).start s.shared call = some next) : CoupledOk rank (s.set c next) := by
  have hfixed : (s.client c).fixed = (s.client c).held := by rw [Client.fixed, hidle]
  have hkeep : ∀ p ∈ (s.client c).held, p ∈ (s.client c).fixed := fun p hp => hfixed ▸ hp
  cases call with
  | fix id exclusive =>
      obtain ⟨hexclusive, hbelow, hothers⟩ := hcoupled
      rw [Client.start] at hstart
      split at hstart
      · cases hstart
        exact h.serve (.of_same rfl rfl rfl)
      · cases hstart
        refine h.ask (r := ⟨id, exclusive, false⟩) rfl rfl rfl hkeep hexclusive (fun _ => hbelow)
          (fun hf => by cases hf) fun d r hr hfresh => ?_
        have hd := hothers d
        rw [hr] at hd
        simpa [hfresh] using hd
  | next =>
      rw [Client.start] at hstart
      split at hstart
      · cases hstart
        exact h.serve (.of_same rfl rfl rfl)
      · cases hstart
        refine h.ask (r := ⟨s.shared.nextPage, true, true⟩) rfl rfl rfl hkeep rfl
          (fun hf => by cases hf) (fun _ => hcoupled) fun d r hr _ heq => ?_
        exact hcoupled d (Or.inl (by rw [hr]; exact congrArg some heq))
  | evict => cases hcoupled
  | unfix i =>
      obtain ⟨p, hp, rfl⟩ := Option.map_eq_some_iff.mp hstart
      refine h.serve ⟨Or.inl rfl, fun q hq => Or.inl ?_⟩
      rw [hfixed]
      rcases List.mem_cons.mp hq with rfl | hq
      · exact List.mem_of_getElem? hp
      · exact List.mem_of_mem_eraseIdx hq

theorem step {t : Threads κ} {e : ThreadEvent κ} (h : CoupledOk rank s) (hstep : ThreadStep s e t)
    (hcoupled : Coupled rank s e) : CoupledOk rank t := by
  cases hstep with
  | start hidle hstart => exact h.start hidle hcoupled hstart
  | step hstep => exact h.serve (serves_step hstep)

end CoupledOk

/-! ### Deadlocks -/

/-- A client that holds a hash entry waits for nothing but a page latch. -/
theorem no_entryWanted {c : Client} {mask : Nat} {e : Nat × Bool}
    (h : c.point.entry mask = some e) : c.entryWanted mask = none := by
  obtain ⟨p, held⟩ := c
  cases p with
  | fix r p => cases p <;> first | rfl | cases h
  | evict caller n p => cases p <;> first | rfl | cases h
  | _ => rfl

/-- A client that waits for a latch has no other page latched than those it has
fixed. -/
theorem pins_of_waiting {c : Client} {mask : Nat}
    (h : c.entryWanted mask ≠ none ∨ c.pageWanted ≠ none) :
    (c.view mask).pins = heldPins c.held := by
  obtain ⟨p, held⟩ := c
  cases p with
  | fix r p => cases p <;> first | rfl | simp [Client.entryWanted, Client.pageWanted] at h
  | unfix page exclusive p => simp [Client.entryWanted, Client.pageWanted] at h
  | _ => rfl

/-- The call of a client that waits for a page, and what it knows. -/
theorem call_of_pageWanted {c : Client} {e : Nat × Bool} (h : e ∈ c.pageWanted) :
    ∃ r, c.asks = some r ∧ c.point.fact = .found r.id e.1 := by
  obtain ⟨p, held⟩ := c
  cases p with
  | fix r p =>
      cases p with
      | pageLatch path g =>
          cases h
          exact ⟨r, rfl, rfl⟩
      | _ => cases h
  | _ => cases h

section

variable [Fintype κ] {s : Threads κ} {rank : PageId → Nat} {c d e : κ}

/-- A waiting client that has the latch of a page has the page fixed. -/
theorem Threads.Inv.held_of_waiting (hs : s.Inv) {f : Nat} {id : PageId} (hid : id ≠ 0)
    (hf : s.shared.locate id = some f)
    (hwait : (s.client d).entryWanted s.shared.mask ≠ none ∨ (s.client d).pageWanted ≠ none)
    (hpin : ∃ pin ∈ ((s.client d).view s.shared.mask).pins, pin.page.frame = f) :
    ∃ p ∈ (s.client d).held, p.1.id = id := by
  obtain ⟨pin, hpin, hframe⟩ := hpin
  obtain ⟨hpid, hloc⟩ := hs.consistent.pin_located (c := d) pin hpin
  rw [pins_of_waiting hwait] at hpin
  obtain ⟨p, hp, rfl⟩ := List.mem_map.mp (Multiset.mem_coe.mp hpin)
  refine ⟨p, hp, hs.consistent.locate_inj hpid hid hloc ?_⟩
  rw [hframe]
  exact hf

/-- Along page waits the requests go down the tree. -/
theorem rank_lt_of_blocked (hs : s.Inv) (hc : CoupledOk rank s) {r r' : FixCall}
    (hr : (s.client c).asks = some r) (hr' : (s.client d).asks = some r')
    (hblocked : PageBlocked s c d) (hde : d ≠ e) (hblocked' : PageBlocked s d e)
    (hwait : (s.client e).entryWanted s.shared.mask ≠ none ∨ (s.client e).pageWanted ≠ none) :
    rank r.id < rank r'.id := by
  obtain ⟨w, hwant, -, hpin⟩ := hblocked
  obtain ⟨w', hwant', -, hpin'⟩ := hblocked'
  obtain ⟨q, hq, hfound⟩ := call_of_pageWanted hwant
  obtain ⟨q', hq', hfound'⟩ := call_of_pageWanted hwant'
  cases hr.symm.trans hq
  cases hr'.symm.trans hq'
  have hF := hs.consistent.facts.holds c
  have hF' := hs.consistent.facts.holds d
  change (s.client c).point.fact.Holds s.shared at hF
  change (s.client d).point.fact.Holds s.shared at hF'
  rw [hfound] at hF
  rw [hfound'] at hF'
  have hwaitd : (s.client d).entryWanted s.shared.mask ≠ none ∨ (s.client d).pageWanted ≠ none :=
    Or.inr (Option.ne_none_iff_exists'.mpr ⟨_, hwant'⟩)
  obtain ⟨p, hp, hpid⟩ := hs.held_of_waiting hF.1 hF.2 hwaitd hpin
  obtain ⟨p', hp', hpid'⟩ := hs.held_of_waiting hF'.1 hF'.2 hwait hpin'
  -- a page nobody else knows is not waited for
  have hfresh : r'.fresh = false := by
    by_contra hne
    refine hc.unknown d r' hr' (by simpa using hne) e hde.symm (Or.inr ⟨p', ?_, hpid'⟩)
    unfold Client.fixed
    split
    · exact List.mem_cons_of_mem _ hp'
    · exact hp'
  rw [← hpid]
  exact hc.below d r' hr' hfresh p hp

omit [Fintype κ] in
/-- A client of a deadlock waits for something. -/
theorem waits_of_blocked (h : Blocked s c d) :
    (s.client c).entryWanted s.shared.mask ≠ none ∨ (s.client c).pageWanted ≠ none := by
  rcases h.2 with ⟨w, hwant, -⟩ | ⟨w, hwant, -⟩
  · exact Or.inl (Option.ne_none_iff_exists'.mpr ⟨w, hwant⟩)
  · exact Or.inr (Option.ne_none_iff_exists'.mpr ⟨w, hwant⟩)

omit [Fintype κ] in
/-- A blocked client that holds a hash entry waits for a page. -/
theorem pageBlocked_of_entry (h : Blocked s c d) {e : Nat × Bool}
    (hentry : (s.client c).point.entry s.shared.mask = some e) : PageBlocked s c d := by
  refine h.2.resolve_left ?_
  rintro ⟨w, hwant, -⟩
  rw [no_entryWanted hentry] at hwant
  cases hwant

/-- Without an inversion there is no deadlock. -/
theorem no_deadlock (hs : s.Inv) (hc : CoupledOk rank s) (hinv : ¬ Inverted s) : ¬ Deadlock s := by
  rintro ⟨S, ⟨c₀, hc₀⟩, hblocked⟩
  -- the members that wait for a page
  have hpage : ∀ c ∈ S, (∃ d ∈ S, c ≠ d ∧ PageBlocked s c d) ∨
      ∃ d ∈ S, EntryBlocked s c d ∧ ∃ e ∈ S, d ≠ e ∧ PageBlocked s d e := by
    intro c hcS
    obtain ⟨d, hd, hcd, hwait | hwait⟩ := hblocked c hcS
    · obtain ⟨e, he, hde⟩ := hblocked d hd
      obtain ⟨w, -, -, w', hentry, -⟩ := id hwait
      exact Or.inr ⟨d, hd, hwait, e, he, hde.1, pageBlocked_of_entry hde hentry⟩
    · exact Or.inl ⟨d, hd, hcd, hwait⟩
  have hsome : ∃ c ∈ S, ∃ d ∈ S, c ≠ d ∧ PageBlocked s c d := by
    rcases hpage c₀ hc₀ with h | ⟨d, hd, -, e, he, hde⟩
    · exact ⟨c₀, hc₀, h⟩
    · exact ⟨d, hd, e, he, hde⟩
  -- whoever a page waiter waits for waits for a page too
  have hnext : ∀ c ∈ S, ∀ d ∈ S, PageBlocked s c d → ∃ e ∈ S, d ≠ e ∧ PageBlocked s d e := by
    intro c hcS d hdS hcd
    rcases hpage d hdS with h | ⟨e, he, hentry, e', -, -, hpage'⟩
    · exact h
    · exfalso
      refine hinv ⟨d, e, e', ?_, hentry, hpage'⟩
      obtain ⟨w, hwant, -, hpin⟩ := hcd
      obtain ⟨r, -, hfound⟩ := call_of_pageWanted hwant
      have hF := hs.consistent.facts.holds c
      change (s.client c).point.fact.Holds s.shared at hF
      rw [hfound] at hF
      obtain ⟨w', hwant', -⟩ := hentry
      obtain ⟨p, hp, -⟩ := hs.held_of_waiting hF.1 hF.2
        (Or.inl (Option.ne_none_iff_exists'.mpr ⟨w', hwant'⟩)) hpin
      exact List.ne_nil_of_mem hp
  -- the requests would go down for ever
  let goal : κ → Nat := fun c => ((s.client c).asks.map fun r => rank r.id).getD 0
  have hdown : ∀ n, ∃ c ∈ S, (∃ d ∈ S, c ≠ d ∧ PageBlocked s c d) ∧ n ≤ goal c := by
    intro n
    induction n with
    | zero =>
        obtain ⟨c, hcS, hd⟩ := hsome
        exact ⟨c, hcS, hd, Nat.zero_le _⟩
    | succ n ih =>
        obtain ⟨c, hcS, ⟨d, hdS, -, hblock⟩, hle⟩ := ih
        obtain ⟨e, heS, hde, hblock'⟩ := hnext c hcS d hdS hblock
        refine ⟨d, hdS, ⟨e, heS, hde, hblock'⟩, ?_⟩
        obtain ⟨e', -, he'⟩ := hblocked e heS
        obtain ⟨w, hwant, -⟩ := id hblock
        obtain ⟨w', hwant', -⟩ := id hblock'
        obtain ⟨r, hr, -⟩ := call_of_pageWanted hwant
        obtain ⟨r', hr', -⟩ := call_of_pageWanted hwant'
        have hlt := rank_lt_of_blocked hs hc hr hr' hblock hde hblock' (waits_of_blocked he')
        simp only [goal, hr, hr', Option.map_some, Option.getD_some] at hle ⊢
        omega
  obtain ⟨c, hcS, -, hle⟩ := hdown (S.sup goal + 1)
  have hsup := Finset.le_sup (f := goal) hcS
  omega

end

section

variable [Fintype κ] [DecidableEq κ]

end

/-- One client makes the first page of the tree, and another asks for it. -/
def sharedRoot : List (ThreadEvent Bool) :=
  .start true .next :: List.replicate 18 (.step true true) ++
    .start false (.fix 1 true) :: List.replicate 2 (.step false true)

end

end Wednesday
