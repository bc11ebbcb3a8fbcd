import Wednesday.PagerMoves

/-!
The clients of `pager.c` follow the protocol: the view of a client is read off
the point it is at, and every step is a move.
-/

namespace Wednesday

open Lib SharedPager

/-! ### Views -/

/-- A page in the hands of a client between two calls. -/
def holdOf (exclusive : Bool) : Hold := if exclusive then .marked else .shared

def FixPoint.entry (h : Nat) : FixPoint → Option (Nat × Bool)
  | .readEntry | .loadCount | .exchangeCount _ | .writeEntry => none
  | .lookup | .readAssert _ | .readDrop _ | .pageLatch .lookup _ | .pageFlag .lookup _ =>
      some (h, false)
  | _ => some (h, true)

def FixPoint.pin (r : FixCall) : FixPoint → Option Pin
  | .pageFlag _ f => some ⟨⟨r.id, f⟩, .taken⟩
  | .subCount (some f) | .readAssert (some f) | .readDrop (some f) | .writeAssert (some f)
  | .writeDrop (some f) => some ⟨⟨r.id, f⟩, holdOf r.exclusive⟩
  | _ => none

def FixPoint.fact (r : FixCall) : FixPoint → Fact
  | .pageLatch _ f => .found r.id f
  | _ => .nothing

def CreatePoint.fact (r : FixCall) : CreatePoint → Fact
  | .assert | .index | .exchange _ => .missing r.id
  | .flags f | .undo f => .owned r.id f
  | .latch f => .cleared r.id f
  | .insert f => .fresh r.id f

/-- The page id whose hash entry is latched. -/
def EvictPoint.latched : EvictPoint → Option PageId
  | .next | .load _ | .entry _ _ => none
  | .exchange _ id | .available _ id | .flags _ id | .spend _ id | .reload _ id
  | .remove _ id _ | .store _ id | .assert _ id _ | .drop _ id _ => some id

def EvictPoint.fact : EvictPoint → Fact
  | .available f id => .found id f
  | .flags f id | .spend f id | .reload f id | .remove f id _ => .quiet id f
  | .store f id => .owned id f
  | _ => .nothing

def UnfixPoint.hold (exclusive : Bool) : UnfixPoint → Hold
  | .load | .store => holdOf exclusive
  | .writeAssert | .write => .taken
  | .setRef | .readAssert | .read => .shared

def Point.entry (mask : Nat) : Point → Option (Nat × Bool)
  | .fix r p => p.entry (pagerHash mask r.id)
  | .create r _ => some (pagerHash mask r.id, true)
  | .evict _ _ p => p.latched.map fun id => (pagerHash mask id, true)
  | _ => none

def Point.pin : Point → Option Pin
  | .fix r p => p.pin r
  | .unfix page exclusive p => some ⟨page, p.hold exclusive⟩
  | _ => none

def Point.fact : Point → Fact
  | .fix r p => p.fact r
  | .create r p => p.fact r
  | .evict _ _ p => p.fact
  | _ => .nothing

/-- The pins of the pages a client fixed. -/
def heldPins (held : List (PageRef × Bool)) : Multiset Pin :=
  Multiset.ofList (held.map fun p => ⟨p.1, holdOf p.2⟩)

def withPin (pins : Multiset Pin) : Option Pin → Multiset Pin
  | some pin => pin ::ₘ pins
  | none => pins

def Client.view (mask : Nat) (c : Client) : View where
  entry := c.point.entry mask
  pins := withPin (heldPins c.held) c.point.pin
  fact := c.point.fact

/-! ### What holds at a point -/

/-- The ids are valid, the flag is set for exclusive calls only, and
`pager_unfix` is on the path of the mode the page was fixed in. -/
def Point.Ok : Point → Prop
  | .idle => True
  | .aborted => False
  | .fix r p => r.id ≠ 0 ∧ ∀ path f, p = .pageFlag path f → r.exclusive = true
  | .create r _ => r.id ≠ 0
  | .evict caller _ p => (∀ r, caller = some r → r.id ≠ 0) ∧
      match p with
      | .entry _ id | .exchange _ id => id ≠ 0
      | .remove _ id ringId => ringId = id
      | _ => True
  | .unfix _ exclusive p =>
      match p with
      | .load => True
      | .store | .writeAssert | .write => exclusive = true
      | .setRef | .readAssert | .read => exclusive = false

/-- The client is about to count a shared holder that no longer fits into the
latch. -/
def Client.overruns (s : SharedPager) (c : Client) : Bool :=
  match c.point with
  | .fix r .readEntry => s.entryLatch (s.hash r.id) = 2 ^ 31 - 1
  | .fix r (.pageLatch _ f) => r.exclusive = false ∧ s.latch f = 2 ^ 31 - 1
  | _ => false

/-- The assertion of a shared release meets a latch that counted too many. -/
def Client.jams (s : SharedPager) (c : Client) : Bool :=
  match c.point with
  | .fix r (.readAssert _) => s.entryLatch (s.hash r.id) = jammed
  | .unfix page _ .readAssert => s.latch page.frame = jammed
  | _ => false

variable {κ : Type} [Fintype κ] [DecidableEq κ]

/-- The system is consistent after the step of one client. -/
structure Keeps (s : SharedPager) (v : κ → View) (c : κ) (next : SharedPager × Client) : Prop where
  mask : next.1.mask = s.mask
  consistent : Consistent next.1 (Function.update v c (next.2.view s.mask))
  point : next.2.point.Ok

variable {s : SharedPager} {v : κ → View} {c : κ} {held : List (PageRef × Bool)}
  {next : SharedPager × Client} {ok : Bool}

/-- A step that only changes what the client knows. -/
theorem keeps_think {s' : SharedPager} {cl cl' : Client} (hc : Consistent s v)
    (hv : v c = cl.view s.mask) (hcore : SameCore s s')
    (hentry : cl'.point.entry s.mask = cl.point.entry s.mask)
    (hpins : withPin (heldPins cl'.held) cl'.point.pin = withPin (heldPins cl.held) cl.point.pin)
    (hG : cl'.point.fact.Guarded s (cl'.point.entry s.mask)) (hF : cl'.point.fact.Holds s)
    (howns : cl.point.fact.owns = none ∨ cl'.point.fact.owns = cl.point.fact.owns)
    (hok : cl'.point.Ok) : Keeps s v c (s', cl') := by
  refine ⟨hcore.mask, hc.think hcore ?_ ?_ hG hF ?_, hok⟩
  · rw [hv]
    exact hentry
  · rw [hv]
    exact hpins
  · rw [hv]
    exact howns

omit [Fintype κ] [DecidableEq κ] in
theorem SameCore.refl (s : SharedPager) : SameCore s s := ⟨rfl, rfl, rfl, rfl, rfl, rfl⟩

/-- A step to a point with the same view. -/
theorem keeps_goto {s' : SharedPager} {cl cl' : Client} (hc : Consistent s v)
    (hv : v c = cl.view s.mask) (hcore : SameCore s s') (hview : cl'.view s.mask = cl.view s.mask)
    (hok : cl'.point.Ok) : Keeps s v c (s', cl') := by
  have hentry : cl'.point.entry s.mask = (v c).entry := hv ▸ congrArg View.entry hview
  have hfact : cl'.point.fact = (v c).fact := hv ▸ congrArg View.fact hview
  refine keeps_think hc hv hcore (congrArg View.entry hview) (congrArg View.pins hview) ?_ ?_
    (Or.inr (congrArg Fact.owns (congrArg View.fact hview))) hok
  · rw [hentry, hfact]
    exact hc.facts.guarded c
  · rw [hfact]
    exact hc.facts.holds c

/-! ### `pager_fix` -/

omit [Fintype κ] [DecidableEq κ] in
theorem locate_of_lookup {id : PageId} : (s.entry (s.hash id)).lookup id = s.locate id :=
  HashEntry.lookup_eq _ _

/-- The latch of a hash entry is taken. -/
theorem keeps_acquire {cl cl' : Client} {h : Nat} {w : Bool} {word : Int} (hc : Consistent s v)
    (hv : v c = cl.view s.mask) (hentry : cl.point.entry s.mask = none)
    (hword : acquireWord (s.entryLatch h) w = some word)
    (hview : cl'.view s.mask = ⟨some (h, w), (cl.view s.mask).pins, .nothing⟩)
    (hok : cl'.point.Ok) : Keeps s v c (s.setEntryLatch h word, cl') := by
  refine ⟨rfl, ?_, hok⟩
  have hnone : (v c).entry = none := by
    rw [hv]
    exact hentry
  have hmove := hc.acquireEntry hnone hword
  rw [hv] at hmove
  rwa [hview]

/-- The latch of a hash entry is released. -/
theorem keeps_release {cl cl' : Client} {h : Nat} {w : Bool} {word : Int} (hc : Consistent s v)
    (hv : v c = cl.view s.mask) (hentry : cl.point.entry s.mask = some (h, w))
    (howns : cl.point.fact.owns = none) (hword : word = if w then 0 else dropWord (s.entryLatch h))
    (hview : cl'.view s.mask = ⟨none, (cl.view s.mask).pins, .nothing⟩)
    (hok : cl'.point.Ok) : Keeps s v c (s.setEntryLatch h word, cl') := by
  refine ⟨rfl, ?_, hok⟩
  have hsome : (v c).entry = some (h, w) := by
    rw [hv]
    exact hentry
  have hmove := hc.releaseEntry hsome (by rw [hv]; exact howns) hword
  rw [hv] at hmove
  rwa [hview]

/-- What a client that latched the page goes on with. -/
theorem view_afterLatch (cl : Client) (path : Path) (r : FixCall) (f mask : Nat) :
    (cl.afterLatch path r f).view mask = ⟨FixPoint.entry (pagerHash mask r.id) (.pageLatch path f),
      ⟨⟨r.id, f⟩, holdOf r.exclusive⟩ ::ₘ heldPins cl.held, .nothing⟩ := by
  cases path <;> rfl

theorem ok_afterLatch (cl : Client) (path : Path) {r : FixCall} (f : Nat) (hid : r.id ≠ 0) :
    (cl.afterLatch path r f).point.Ok := by
  cases path <;> exact ⟨hid, fun _ _ h => by cases h⟩

/-- The latch of the page is taken, and on an exclusive call not yet marked. -/
theorem keeps_pageLatch {r : FixCall} {path : Path} {f : Nat} (hc : Consistent s v)
    (hv : v c = (⟨.fix r (.pageLatch path f), held⟩ : Client).view s.mask) (hid : r.id ≠ 0)
    (h : Client.fixStep s ⟨.fix r (.pageLatch path f), held⟩ ok r (.pageLatch path f) = some next) :
    Keeps s v c next := by
  obtain ⟨word, hword, rfl⟩ := Option.map_eq_some_iff.mp h
  have hfact : (v c).fact = .found r.id f := by
    rw [hv]
    rfl
  have hmove := hc.pin hfact hword
  rw [hv] at hmove
  cases hr : r.exclusive with
  | true =>
      simp only [hr, if_true] at hmove ⊢
      refine ⟨rfl, ?_, hid, fun _ _ _ => hr⟩
      cases path <;> exact hmove
  | false =>
      simp only [hr, Bool.false_eq_true, if_false] at hmove ⊢
      refine ⟨rfl, ?_, ok_afterLatch _ _ _ hid⟩
      rw [view_afterLatch, holdOf, hr]
      exact hmove

theorem keeps_pageFlag {r : FixCall} {path : Path} {f : Nat} (hc : Consistent s v)
    (hv : v c = (⟨.fix r (.pageFlag path f), held⟩ : Client).view s.mask)
    (hok : Point.Ok (.fix r (.pageFlag path f)))
    (h : Client.fixStep s ⟨.fix r (.pageFlag path f), held⟩ ok r (.pageFlag path f) = some next) :
    Keeps s v c next := by
  cases h
  have hpins : (v c).pins = ⟨⟨r.id, f⟩, .taken⟩ ::ₘ heldPins held := by
    rw [hv]
    rfl
  have hfact : (v c).fact = .nothing := by
    rw [hv]
    rfl
  have hmove := hc.mark hpins hfact
  rw [hv] at hmove
  refine ⟨rfl, ?_, ok_afterLatch _ _ _ hok.1⟩
  rw [view_afterLatch, holdOf, hok.2 path f rfl]
  cases path <;> exact hmove

omit [Fintype κ] [DecidableEq κ] in
theorem view_afterCount (mask : Nat) (cl : Client) (r : FixCall) (count : Nat) :
    (cl.afterCount s r count).view mask = ⟨none, heldPins cl.held, .nothing⟩ := by
  rw [Client.afterCount]
  split <;> rfl

omit [Fintype κ] [DecidableEq κ] in
theorem ok_afterCount (cl : Client) {r : FixCall} (count : Nat) (hid : r.id ≠ 0) :
    (cl.afterCount s r count).point.Ok := by
  rw [Client.afterCount]
  split
  · exact ⟨fun _ h => by cases h; exact hid, trivial⟩
  · exact ⟨hid, fun _ _ h => by cases h⟩

theorem keeps_fixStep {r : FixCall} {p : FixPoint} (hc : Consistent s v)
    (hv : v c = (⟨.fix r p, held⟩ : Client).view s.mask) (hok : Point.Ok (.fix r p))
    (h : Client.fixStep s ⟨.fix r p, held⟩ ok r p = some next)
    (hjam : ¬ Client.jams s ⟨.fix r p, held⟩) : Keeps s v c next := by
  have hid : r.id ≠ 0 := hok.1
  have hok' : ∀ {q : FixPoint}, (∀ path f, q ≠ .pageFlag path f) → Point.Ok (.fix r q) :=
    fun hq => ⟨hid, fun path f hpf => absurd hpf (hq path f)⟩
  cases p with
  | readEntry =>
      obtain ⟨word, hword, rfl⟩ := Option.map_eq_some_iff.mp h
      exact keeps_acquire hc hv rfl (w := false) hword rfl (hok' fun _ _ => by simp)
  | lookup =>
      have hentry : (v c).entry = some (s.hash r.id, false) := by
        rw [hv]
        rfl
      rw [Client.fixStep, if_neg (hc.read_word hentry).1, locate_of_lookup] at h
      split at h
      · rename_i f hf
        cases h
        exact keeps_think hc hv (.refl s) rfl rfl ⟨false, rfl⟩ ⟨hid, hf⟩ (Or.inl rfl)
          (hok' fun _ _ => by simp)
      · cases h
        exact keeps_goto hc hv (.refl s) rfl (hok' fun _ _ => by simp)
  | pageLatch path f => exact keeps_pageLatch hc hv hid h
  | pageFlag path f => exact keeps_pageFlag hc hv hok h
  | readAssert result =>
      have hentry : (v c).entry = some (s.hash r.id, false) := by
        rw [hv]
        rfl
      -- the assertion of the release holds unless the count has wrapped
      have hpos := (hc.read_word hentry).2 fun hw => hjam (decide_eq_true hw)
      rw [Client.fixStep, if_pos hpos] at h
      cases h
      exact keeps_goto hc hv (.refl s) (by cases result <;> rfl) (hok' fun _ _ => by simp)
  | readDrop result =>
      cases h
      refine keeps_release hc hv (w := false) rfl rfl rfl ?_ ?_
      · cases result <;> rfl
      · cases result with
        | none => exact hok' fun _ _ => by simp
        | some f => trivial
  | loadCount =>
      cases h
      exact keeps_goto hc hv (.refl s) (view_afterCount ..) (ok_afterCount _ _ hid)
  | exchangeCount count =>
      rw [Client.fixStep] at h
      split at h
      · cases h
        exact keeps_goto hc hv ⟨rfl, rfl, rfl, rfl, rfl, rfl⟩ rfl (hok' fun _ _ => by simp)
      · cases h
        exact keeps_goto hc hv (.refl s) (view_afterCount ..) (ok_afterCount _ _ hid)
  | writeEntry =>
      obtain ⟨word, hword, rfl⟩ := Option.map_eq_some_iff.mp h
      exact keeps_acquire hc hv rfl (w := true) hword rfl (hok' fun _ _ => by simp)
  | relookup =>
      have hentry : (v c).entry = some (s.hash r.id, true) := by
        rw [hv]
        rfl
      rw [Client.fixStep, hc.write_word hentry, if_neg (by decide), locate_of_lookup] at h
      split at h
      · rename_i f hf
        cases h
        exact keeps_think hc hv (.refl s) rfl rfl ⟨true, rfl⟩ ⟨hid, hf⟩ (Or.inl rfl)
          (hok' fun _ _ => by simp)
      · rename_i hf
        cases h
        exact keeps_think hc hv (.refl s) rfl rfl rfl ⟨hid, hf⟩ (Or.inl rfl) hid
  | subCount result =>
      cases h
      exact keeps_goto hc hv ⟨rfl, rfl, rfl, rfl, rfl, rfl⟩ (by cases result <;> rfl)
        (hok' fun _ _ => by simp)
  | writeAssert result =>
      have hentry : (v c).entry = some (s.hash r.id, true) := by
        rw [hv]
        rfl
      rw [Client.fixStep, if_pos (hc.write_word hentry)] at h
      cases h
      exact keeps_goto hc hv (.refl s) (by cases result <;> rfl) (hok' fun _ _ => by simp)
  | writeDrop result =>
      cases h
      refine keeps_release hc hv (w := true) rfl rfl rfl ?_ trivial
      cases result <;> rfl

/-! ### `pager_create` -/

theorem keeps_createStep {r : FixCall} {p : CreatePoint} (hc : Consistent s v)
    (hv : v c = (⟨.create r p, held⟩ : Client).view s.mask) (hid : r.id ≠ 0)
    (h : Client.createStep s ⟨.create r p, held⟩ ok r p = some next) : Keeps s v c next := by
  have hentry : (v c).entry = some (s.hash r.id, true) := by
    rw [hv]
    rfl
  have hfact : (v c).fact = p.fact r := by
    rw [hv]
    rfl
  have hF := hc.facts.holds c
  rw [hfact] at hF
  have hword := hc.write_word hentry
  cases p with
  | assert =>
      rw [Client.createStep, hword, if_pos (by decide)] at h
      cases h
      exact keeps_goto hc hv (.refl s) rfl hid
  | index =>
      rw [Client.createStep] at h
      split at h
      · cases h
      · cases h
        exact keeps_goto hc hv ⟨rfl, rfl, rfl, rfl, rfl, rfl⟩ rfl hid
  | exchange f =>
      rw [Client.createStep] at h
      split at h
      · rename_i hring
        cases h
        have hmove := hc.claim hfact hring.2
        rw [hv] at hmove
        exact ⟨rfl, hmove, hid⟩
      · cases h
        exact keeps_goto hc hv (.refl s) rfl hid
  | flags f =>
      rw [Client.createStep] at h
      split at h
      · cases h
        exact keeps_goto hc hv (.refl s) rfl hid
      · cases h
        have ht : Touches s ((s.setAllocated f).setFlags f 0) f :=
          ⟨rfl, rfl, rfl, rfl, fun _ _ => rfl, fun _ hg => Function.update_of_ne hg _ _⟩
        refine ⟨rfl, hc.prepare ht (by rw [hfact]; rfl) hentry.symm ?_ rfl rfl ?_, hid⟩
        · rw [hv]
          rfl
        · exact ⟨hF.touches ht, by simp [setFlags]⟩
  | latch f =>
      cases h
      have ht := touches_setLatch s f 0
      refine ⟨rfl, hc.prepare ht (by rw [hfact]; rfl) hentry.symm ?_ rfl rfl ?_, hid⟩
      · rw [hv]
        rfl
      · exact ⟨hF.1.touches ht, hF.2, Function.update_self _ _ _⟩
  | insert f =>
      rw [Client.createStep, hword, if_neg (by decide)] at h
      split at h
      · cases h
        exact keeps_think hc hv (.refl s) rfl rfl rfl hF.1 (Or.inr rfl) hid
      · cases h
        have hmove := hc.insert hfact
        rw [hv] at hmove
        exact ⟨rfl, hmove, hid, fun _ _ h => by cases h⟩
  | undo f =>
      cases h
      have hmove := hc.giveBack (f := f) (by rw [hfact]; rfl)
      rw [hv] at hmove
      exact ⟨rfl, hmove, hid, fun _ _ h => by cases h⟩

/-! ### `pager_evict` -/

omit [Fintype κ] [DecidableEq κ] in
theorem view_afterDrop (mask : Nat) (cl : Client) (caller : Option FixCall) (n f : Nat)
    (after : AfterDrop) :
    (cl.afterDrop caller n f after).view mask = ⟨none, heldPins cl.held, .nothing⟩ := by
  cases after with
  | reload id =>
      rw [Client.afterDrop]
      split <;> rfl
  | again => rfl
  | done => cases caller <;> rfl

omit [Fintype κ] [DecidableEq κ] in
theorem ok_afterDrop (cl : Client) {caller : Option FixCall} (n f : Nat) (after : AfterDrop)
    (hcaller : ∀ r, caller = some r → r.id ≠ 0) : (cl.afterDrop caller n f after).point.Ok := by
  cases after with
  | reload id =>
      rw [Client.afterDrop]
      split
      · exact ⟨hcaller, trivial⟩
      · exact ⟨hcaller, by assumption⟩
  | again => exact ⟨hcaller, trivial⟩
  | done =>
      cases caller with
      | none => trivial
      | some r => exact ⟨hcaller r rfl, fun _ _ h => by cases h⟩

theorem keeps_evictStep {caller : Option FixCall} {n : Nat} {p : EvictPoint} (hc : Consistent s v)
    (hv : v c = (⟨.evict caller n p, held⟩ : Client).view s.mask)
    (hok : Point.Ok (.evict caller n p))
    (h : Client.evictStep s ⟨.evict caller n p, held⟩ caller n p = some next) :
    Keeps s v c next := by
  obtain ⟨hcaller, hp⟩ := hok
  have hfact : (v c).fact = p.fact := by
    rw [hv]
    rfl
  have hF := hc.facts.holds c
  rw [hfact] at hF
  have hentry : ∀ id, p.latched = some id → (v c).entry = some (s.hash id, true) := by
    intro id hid
    rw [hv]
    exact congrArg (Option.map _) hid
  cases p with
  | next =>
      cases n with
      | zero =>
          cases h
          exact keeps_goto hc hv (.refl s) rfl trivial
      | succ n =>
          cases h
          exact keeps_goto hc hv ⟨rfl, rfl, rfl, rfl, rfl, rfl⟩ rfl ⟨hcaller, trivial⟩
  | load f =>
      rw [Client.evictStep] at h
      split at h
      · cases h
        exact keeps_goto hc hv (.refl s) rfl ⟨hcaller, trivial⟩
      · rename_i hring
        cases h
        exact keeps_goto hc hv (.refl s) rfl ⟨hcaller, hring⟩
  | entry f id =>
      obtain ⟨word, hword, rfl⟩ := Option.map_eq_some_iff.mp h
      exact keeps_acquire hc hv rfl (w := true) hword rfl ⟨hcaller, hp⟩
  | exchange f id =>
      rw [Client.evictStep] at h
      split at h
      · rename_i hring
        subst hring
        cases h
        -- the page is mapped: nobody else is at work under this hash entry
        have hf := hc.located_of_ring hp (hentry _ rfl) (by rw [hfact]; rfl)
        exact keeps_think hc hv (.refl s) rfl rfl ⟨true, rfl⟩ ⟨hp, hf⟩ (Or.inl rfl)
          ⟨hcaller, trivial⟩
      · cases h
        exact keeps_goto hc hv (.refl s) rfl ⟨hcaller, trivial⟩
  | available f id =>
      rw [Client.evictStep] at h
      split at h
      · rename_i hlatch
        cases h
        -- the latch is free at this moment, and the hash entry keeps it so
        exact keeps_think hc hv (.refl s) rfl rfl rfl ⟨hF.1, hF.2, hlatch⟩ (Or.inl rfl)
          ⟨hcaller, trivial⟩
      · cases h
        exact keeps_think hc hv (.refl s) rfl rfl trivial trivial (Or.inl rfl) ⟨hcaller, trivial⟩
  | flags f id =>
      rw [Client.evictStep] at h
      split at h
      · cases h
        exact keeps_goto hc hv (.refl s) rfl ⟨hcaller, trivial⟩
      · cases h
        exact keeps_goto hc hv (.refl s) rfl ⟨hcaller, trivial⟩
  | spend f id =>
      cases h
      refine ⟨rfl, ?_, hcaller, trivial⟩
      -- only the reference bit changes, which no fact of another client reads
      refine hc.keepFlag hF.1 hF.2.1 (exclusive_clear_ref _) (hentry id rfl).symm ?_ (Or.inl rfl)
        (by rw [hfact]; rfl)
      rw [hv]
      rfl
  | reload f id =>
      cases h
      exact keeps_goto hc hv (.refl s) rfl ⟨hcaller, hc.maps.mapped id f hF.1 hF.2.1⟩
  | remove f id ringId =>
      -- the id was read again from the ring under the hash entry
      obtain rfl : ringId = id := hp
      rw [Client.evictStep, hc.write_word (hentry _ rfl), if_neg (by decide)] at h
      cases h
      have hmove := hc.remove hfact
      rw [hv] at hmove
      exact ⟨rfl, hmove, hcaller, trivial⟩
  | store f id =>
      cases h
      have hmove := hc.giveBack (f := f) (by rw [hfact]; rfl)
      rw [hv] at hmove
      exact ⟨rfl, hmove, hcaller, trivial⟩
  | assert f id after =>
      rw [Client.evictStep, if_pos (hc.write_word (hentry _ rfl))] at h
      cases h
      exact keeps_goto hc hv (.refl s) rfl ⟨hcaller, trivial⟩
  | drop f id after =>
      cases h
      exact keeps_release hc hv (w := true) rfl rfl rfl (view_afterDrop ..)
        (ok_afterDrop _ _ _ _ hcaller)

/-! ### `pager_unfix` -/

omit [DecidableEq κ] in
/-- The exclusive flag of a page tells in which mode its holder fixed it. -/
theorem flag_of_hold {page : PageRef} {exclusive : Bool} (hc : Consistent s v)
    (hpin : (⟨page, holdOf exclusive⟩ : Pin) ∈ (v c).pins) :
    s.flags page.frame &&& PAGE_FLAG_EXCLUSIVE ≠ 0 ↔ exclusive = true := by
  have hmem : (⟨page, holdOf exclusive⟩ : Pin) ∈ total View.pins v := mem_total.mpr ⟨c, hpin⟩
  obtain ⟨hid, hf⟩ := hc.pages.pinned _ hmem
  have hpage := hc.pages.pages _ _ hid hf
  have hpos := Multiset.count_ne_zero.mpr hmem
  rw [hpage.flag]
  cases exclusive with
  | true => exact ⟨fun _ => rfl, fun _ => hpos⟩
  | false =>
      refine ⟨fun hmarked => absurd ?_ hpos, fun h => by cases h⟩
      exact (hpage.counted.alone (by omega)).2.1

omit [DecidableEq κ] in
/-- The word of a page latch held exclusively. -/
theorem taken_word {page : PageRef} (hc : Consistent s v) (hpin : ⟨page, .taken⟩ ∈ (v c).pins) :
    s.latch page.frame = -1 := by
  have hmem : ⟨page, .taken⟩ ∈ total View.pins v := mem_total.mpr ⟨c, hpin⟩
  obtain ⟨hid, hf⟩ := hc.pages.pinned _ hmem
  have hpos := Multiset.count_ne_zero.mpr hmem
  exact ((hc.pages.pages _ _ hid hf).counted.alone fun h => hpos (Nat.add_eq_zero_iff.mp h).1).2.2

omit [DecidableEq κ] in
/-- The word of a page latch held shared. -/
theorem shared_word {page : PageRef} (hc : Consistent s v) (hpin : ⟨page, .shared⟩ ∈ (v c).pins)
    (hjam : s.latch page.frame ≠ jammed) : 0 < s.latch page.frame := by
  have hmem : ⟨page, .shared⟩ ∈ total View.pins v := mem_total.mpr ⟨c, hpin⟩
  obtain ⟨hid, hf⟩ := hc.pages.pinned _ hmem
  exact (hc.pages.pages _ _ hid hf).counted.word_pos (Multiset.count_ne_zero.mpr hmem) hjam

theorem keeps_unfixStep {page : PageRef} {exclusive : Bool} {p : UnfixPoint} (hc : Consistent s v)
    (hv : v c = (⟨.unfix page exclusive p, held⟩ : Client).view s.mask)
    (hok : Point.Ok (.unfix page exclusive p))
    (h : Client.unfixStep s ⟨.unfix page exclusive p, held⟩ page exclusive p = some next)
    (hjam : ¬ Client.jams s ⟨.unfix page exclusive p, held⟩) : Keeps s v c next := by
  have hpins : (v c).pins = ⟨page, p.hold exclusive⟩ ::ₘ heldPins held := by
    rw [hv]
    rfl
  have hfact : (v c).fact = .nothing := by
    rw [hv]
    rfl
  have hmem : (⟨page, p.hold exclusive⟩ : Pin) ∈ (v c).pins := by
    rw [hpins]
    exact Multiset.mem_cons_self _ _
  cases p with
  | load =>
      -- the exclusive flag tells which of the two latches is held
      have hflag := flag_of_hold hc hmem
      rw [Client.unfixStep] at h
      split at h
      · rename_i hset
        cases h
        exact keeps_goto hc hv (.refl s) rfl (hflag.mp hset)
      · rename_i hclear
        cases h
        have hshared : exclusive = false := by
          rw [hflag] at hclear
          simpa using hclear
        subst hshared
        exact keeps_goto hc hv (.refl s) rfl rfl
  | store =>
      obtain rfl : exclusive = true := hok
      cases h
      have hmove := hc.unmark hpins hfact
      rw [hv] at hmove
      exact ⟨rfl, hmove, rfl⟩
  | writeAssert =>
      obtain rfl : exclusive = true := hok
      rw [Client.unfixStep, if_pos (taken_word hc hmem)] at h
      cases h
      exact keeps_goto hc hv (.refl s) rfl rfl
  | write =>
      obtain rfl : exclusive = true := hok
      cases h
      have hmove := hc.unpin true hpins hfact rfl
      rw [hv] at hmove
      exact ⟨rfl, hmove, trivial⟩
  | setRef =>
      obtain rfl : exclusive = false := hok
      cases h
      obtain ⟨hid, hf⟩ := hc.pin_located _ hmem
      refine ⟨rfl, ?_, rfl⟩
      refine hc.keepFlag hid hf (exclusive_or_ref _) ?_ ?_ (Or.inl rfl) (by rw [hfact]; rfl)
      · rw [hv]
        rfl
      · rw [hv]
        rfl
  | readAssert =>
      obtain rfl : exclusive = false := hok
      -- the assertion of the release holds unless the count has wrapped
      rw [Client.unfixStep, if_pos (shared_word hc hmem fun hw => hjam (decide_eq_true hw))] at h
      cases h
      exact keeps_goto hc hv (.refl s) rfl rfl
  | read =>
      obtain rfl : exclusive = false := hok
      cases h
      have hmove := hc.unpin false hpins hfact rfl
      rw [hv] at hmove
      exact ⟨rfl, hmove, trivial⟩

end Wednesday
