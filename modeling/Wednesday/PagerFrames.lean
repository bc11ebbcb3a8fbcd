import Wednesday.PagerLatches

/-!
Runs of any number of clients of the pager: a frame stays with its page as long
as somebody has the page fixed.
-/

namespace Wednesday

open Lib SharedPager

variable {κ : Type} [Fintype κ] [DecidableEq κ]

/-- The clients follow the protocol. -/
structure Threads.Inv (s : Threads κ) : Prop where
  consistent : Consistent s.shared fun c => (s.client c).view s.shared.mask
  points : ∀ c, (s.client c).point.Ok

theorem heldPins_eraseIdx {held : List (PageRef × Bool)} {i : Nat} {p : PageRef × Bool}
    (h : held[i]? = some p) :
    (⟨p.1, holdOf p.2⟩ : Pin) ::ₘ heldPins (held.eraseIdx i) = heldPins held := by
  obtain ⟨hi, rfl⟩ := List.getElem?_eq_some_iff.mp h
  have hperm := (List.getElem_cons_eraseIdx_perm hi).map fun p : PageRef × Bool =>
    (⟨p.1, holdOf p.2⟩ : Pin)
  exact Multiset.coe_eq_coe.mpr hperm

/-- A client starts a call. -/
theorem keeps_start {s : SharedPager} {v : κ → View} {c : κ} {held : List (PageRef × Bool)}
    {call : PagerCall} {next : SharedPager × Client} (hc : Consistent s v)
    (hv : v c = (⟨.idle, held⟩ : Client).view s.mask)
    (h : Client.start s ⟨.idle, held⟩ call = some next) : Keeps s v c next := by
  have hcounter : ∀ n, SameCore s { s with nextPage := n } := fun n =>
    ⟨rfl, rfl, rfl, rfl, rfl, rfl⟩
  cases call with
  | fix id exclusive =>
      rw [Client.start] at h
      split at h
      · cases h
        exact keeps_goto hc hv (.refl s) rfl trivial
      · rename_i hid
        cases h
        exact keeps_goto hc hv (.refl s) rfl ⟨hid, fun _ _ h => by cases h⟩
  | next =>
      rw [Client.start] at h
      split at h
      · cases h
        exact keeps_goto hc hv (hcounter _) rfl trivial
      · rename_i hid
        cases h
        exact keeps_goto hc hv (hcounter _) rfl ⟨hid, fun _ _ h => by cases h⟩
  | evict =>
      cases h
      refine keeps_goto hc hv (.refl s) rfl ⟨fun r h => ?_, trivial⟩
      cases h
  | unfix i =>
      obtain ⟨p, hp, rfl⟩ := Option.map_eq_some_iff.mp h
      refine keeps_goto hc hv (.refl s) ?_ trivial
      exact congrArg (View.mk none · .nothing) (heldPins_eraseIdx hp)

/-- The client that makes the step. -/
def ThreadEvent.client : ThreadEvent κ → κ
  | .start c _ => c
  | .step c _ => c

/-- A step that does not count one shared holder more than a latch has room
for. -/
def FitStep (s : Threads κ) (e : ThreadEvent κ) (t : Threads κ) : Prop :=
  ThreadStep s e t ∧ ¬ (s.client e.client).overruns s.shared

namespace Threads

theorem Inv.set {s : Threads κ} (hs : s.Inv) {c : κ} {next : SharedPager × Client}
    (hk : Keeps s.shared (fun c => (s.client c).view s.shared.mask) c next) :
    (s.set c next).Inv where
  consistent := by
    have hviews : (fun d => ((s.set c next).client d).view next.1.mask)
        = Function.update (fun d => (s.client d).view s.shared.mask) c
            (next.2.view s.shared.mask) := by
      funext d
      rw [hk.mask, Threads.set]
      by_cases hd : d = c
      · subst hd
        simp
      · simp [hd]
    exact hviews ▸ hk.consistent
  points d := by
    change (Function.update s.client c next.2 d).point.Ok
    by_cases hd : d = c
    · subst hd
      rw [Function.update_self]
      exact hk.point
    · rw [Function.update_of_ne hd]
      exact hs.points d

theorem Inv.step {s t : Threads κ} {e : ThreadEvent κ} (hs : s.Inv) (h : ThreadStep s e t)
    (hjam : ¬ (s.client e.client).jams s.shared) : t.Inv := by
  cases h with
  | @start c call next hidle h =>
      have hstart : Client.start s.shared ⟨.idle, (s.client c).held⟩ call = some next := by
        rw [← hidle]
        exact h
      refine hs.set (keeps_start hs.consistent ?_ hstart)
      rw [← hidle]
  | @step c ok next h =>
      refine hs.set ?_
      have hpoint := hs.points c
      have hv : (s.client c).view s.shared.mask = (s.client c).view s.shared.mask := rfl
      rw [ThreadEvent.client] at hjam
      generalize hcl : s.client c = cl at h hpoint hjam hv
      obtain ⟨p, held⟩ := cl
      have hview : (fun c => (s.client c).view s.shared.mask) c
          = (⟨p, held⟩ : Client).view s.shared.mask := by rw [← hcl]
      cases p with
      | idle => cases h
      | aborted => cases h
      | fix r p => exact keeps_fixStep hs.consistent hview hpoint h hjam
      | create r p => exact keeps_createStep hs.consistent hview hpoint h
      | evict caller n p => exact keeps_evictStep hs.consistent hview hpoint h
      | unfix page exclusive p => exact keeps_unfixStep hs.consistent hview hpoint h hjam

omit [DecidableEq κ] in
theorem inv_init (directorySize : Nat) : (Threads.init κ directorySize).Inv where
  consistent := by
    have hnone : ∀ id, id ≠ 0 → (Threads.init κ directorySize).shared.locate id = none := by
      intro id hid
      simp [locate, Threads.init, HashEntry.find, HashEntry.slots, emptyEntry, hid.symm]
    have hpins : total View.pins (fun c => ((Threads.init κ directorySize).client c).view
        (Threads.init κ directorySize).shared.mask) = 0 := Finset.sum_const_zero
    have hentries : total View.entries (fun c => ((Threads.init κ directorySize).client c).view
        (Threads.init κ directorySize).shared.mask) = 0 := Finset.sum_const_zero
    refine ⟨fun h => ?_, ⟨fun pin hpin => ?_, fun id f hid hf => ?_⟩, ⟨fun h => ?_, ?_, ?_⟩,
      ⟨fun _ => trivial, fun _ => trivial, fun f hf => absurd rfl hf⟩⟩
    · rw [hentries]
      exact Counted.free
    · rw [hpins] at hpin
      exact absurd hpin (Multiset.notMem_zero pin)
    · rw [hnone id hid] at hf
      cases hf
    · simp [Threads.init, HashEntry.Distinct, HashEntry.slots, emptyEntry]
    · intro h m hm hne
      simp only [Threads.init, HashEntry.slots, emptyEntry, List.mem_cons, List.not_mem_nil,
        or_false, or_self] at hm
      rw [hm] at hne
      exact absurd rfl hne
    · intro id f hid hf
      rw [hnone id hid] at hf
      cases hf
  points _ := trivial

end Threads

/-! ### Latches that have room -/

/-- No latch counted too many shared holders. -/
structure Threads.Unjammed (s : Threads κ) : Prop where
  entries : ∀ h, s.shared.entryLatch h ≠ jammed
  pages : ∀ f, s.shared.latch f ≠ jammed

omit [Fintype κ] [DecidableEq κ] in
theorem Threads.unjammed_init (directorySize : Nat) : (Threads.init κ directorySize).Unjammed :=
  have hfree : (0 : Int) ≠ jammed := by decide
  ⟨fun _ => hfree, fun _ => hfree⟩

omit [Fintype κ] in
theorem Threads.Unjammed.set {s : Threads κ} (hu : s.Unjammed) {c : κ}
    {next : SharedPager × Client} (h : FreshWords s.shared next.1) : (s.set c next).Unjammed where
  entries g := (h.entries g).elim (fun heq => heq.trans_ne (hu.entries g)) id
  pages f := (h.pages f).elim (fun heq => heq.trans_ne (hu.pages f)) id

omit [Fintype κ] [DecidableEq κ] in
theorem Threads.Unjammed.not_jams {s : Threads κ} (hu : s.Unjammed) (c : κ) :
    ¬ (s.client c).jams s.shared := by
  rw [Client.jams]
  split
  · simpa using hu.entries _
  · simpa using hu.pages _
  · simp

namespace Threads

theorem Inv.unjammed_step {s t : Threads κ} {e : ThreadEvent κ} (hs : s.Inv) (hu : s.Unjammed)
    (h : FitStep s e t) : t.Unjammed := by
  obtain ⟨hstep, hfit⟩ := h
  cases hstep with
  | @start c call next hidle h => exact hu.set (freshWords_start h)
  | @step c ok next h =>
      refine hu.set ?_
      rw [ThreadEvent.client] at hfit
      generalize hcl : s.client c = cl at h hfit
      obtain ⟨p, held⟩ := cl
      have hview : (fun c => (s.client c).view s.shared.mask) c
          = (⟨p, held⟩ : Client).view s.shared.mask := by rw [← hcl]
      cases p with
      | idle => cases h
      | aborted => cases h
      | fix r p => exact freshWords_fixStep hs.consistent hview hu.entries h hfit
      | create r p => exact freshWords_createStep h
      | evict caller n p => exact freshWords_evictStep hs.consistent h
      | unfix page exclusive p => exact freshWords_unfixStep hs.consistent hview hu.pages h

/-- Runs in which every step fits keep the protocol, and their latches have room. -/
theorem inv_of_fit (directorySize : Nat) {es : List (ThreadEvent κ)} {t : Threads κ}
    (hrun : Run FitStep (Threads.init κ directorySize) es t) : t.Inv ∧ t.Unjammed :=
  Run.invariant (I := fun s => s.Inv ∧ s.Unjammed)
    (fun _ _ _ hs h => ⟨hs.1.step h.1 (hs.2.not_jams _), hs.1.unjammed_step hs.2 h⟩)
    ⟨inv_init directorySize, unjammed_init directorySize⟩ hrun

end Threads

/-- The pages a client has fixed, up to the end of `pager_unfix`. -/
def Client.fixed (c : Client) : List (PageRef × Bool) :=
  match c.point with
  | .unfix page exclusive _ => (page, exclusive) :: c.held
  | _ => c.held

/-- No frame was given away. -/
structure FramesKept (s : Threads κ) : Prop where
  /-- The frame of a page that is fixed is the one frame mapped to it. -/
  mapped : ∀ c, ∀ p ∈ (s.client c).fixed, s.shared.locate p.1.id = some p.1.frame ∧
    s.shared.ringId p.1.frame = p.1.id
  /-- It is not handed out for another page. -/
  frames : ∀ c d, ∀ p ∈ (s.client c).fixed, ∀ q ∈ (s.client d).fixed,
    p.1.frame = q.1.frame ↔ p.1.id = q.1.id
  rings : ∀ f g, s.shared.ringId f ≠ 0 → s.shared.ringId f = s.shared.ringId g → f = g
  mappings : ∀ (h h' i i' : Nat) (m m' : Mapping), (s.shared.entry h).slots[i]? = some m →
    (s.shared.entry h').slots[i']? = some m' → m.pageId ≠ 0 → m.pageId = m'.pageId →
    h = h' ∧ i = i'
  /-- An exclusive holder is the only holder of its page. -/
  alone : ∀ c, ∀ p ∈ (s.client c).fixed, p.2 = true →
    ∑ d, (s.client d).fixed.countP (fun q => q.1.id = p.1.id) = 1
  /-- No assertion failed. -/
  unaborted : ∀ c, (s.client c).point ≠ .aborted
  /-- `pager_unfix` releases the latch in the mode it was taken in. -/
  modes : ∀ c page exclusive p, (s.client c).point = .unfix page exclusive p →
    (p = .store ∨ p = .writeAssert ∨ p = .write → exclusive = true) ∧
    (p = .setRef ∨ p = .readAssert ∨ p = .read → exclusive = false)

omit [Fintype κ] [DecidableEq κ] in
/-- A page that is fixed is pinned, in its mode. -/
theorem Client.pin_of_fixed {c : Client} (hok : c.point.Ok) {p : PageRef × Bool} (hp : p ∈ c.fixed)
    (mask : Nat) : ∃ hold, ⟨p.1, hold⟩ ∈ (c.view mask).pins ∧ (p.2 = true → hold ≠ .shared) := by
  obtain ⟨point, held⟩ := c
  have hheld : p ∈ held → ⟨p.1, holdOf p.2⟩ ∈ heldPins held := fun h =>
    Multiset.mem_coe.mpr (List.mem_map.mpr ⟨p, h, rfl⟩)
  have hmode : p.2 = true → holdOf p.2 ≠ .shared := by
    intro h
    rw [h]
    simp [holdOf]
  cases point with
  | unfix page exclusive q =>
      rcases List.mem_cons.mp hp with rfl | hp
      · have hmem : (⟨page, q.hold exclusive⟩ : Pin) ∈ ⟨page, q.hold exclusive⟩ ::ₘ heldPins held :=
          Multiset.mem_cons_self _ _
        refine ⟨q.hold exclusive, hmem, fun hexclusive => ?_⟩
        simp only at hexclusive
        subst hexclusive
        cases q with
        | load => exact hmode rfl
        | store => exact hmode rfl
        | writeAssert => simp [UnfixPoint.hold]
        | write => simp [UnfixPoint.hold]
        | setRef => cases hok
        | readAssert => cases hok
        | read => cases hok
      · exact ⟨_, Multiset.mem_cons_of_mem (hheld hp), hmode⟩
  | fix r q =>
      refine ⟨_, ?_, hmode⟩
      change _ ∈ withPin (heldPins held) (q.pin r)
      cases q.pin r with
      | none => exact hheld hp
      | some pin => exact Multiset.mem_cons_of_mem (hheld hp)
  | _ => exact ⟨_, hheld hp, hmode⟩

/-- How many of the pages a client fixed are this one, by its pins. -/
theorem Client.countP_fixed_le (c : Client) (page : PageRef) (mask : Nat)
    (h : ∀ q ∈ c.fixed, q.1.id = page.id → q.1 = page) :
    c.fixed.countP (fun q => q.1.id = page.id) ≤
      (c.view mask).pins.countP fun pin => pin.page = page := by
  obtain ⟨point, held⟩ := c
  have hheld : ∀ l : List (PageRef × Bool), (∀ q ∈ l, q.1.id = page.id → q.1 = page) →
      l.countP (fun q => q.1.id = page.id) ≤ (heldPins l).countP fun pin => pin.page = page := by
    intro l hl
    rw [heldPins, Multiset.coe_countP, List.countP_map]
    refine List.countP_mono_left fun q hq hid => ?_
    simpa using hl q hq (by simpa using hid)
  have hle : ∀ pin : Option Pin, (heldPins held).countP (fun pin => pin.page = page) ≤
      (withPin (heldPins held) pin).countP fun pin => pin.page = page := by
    intro pin
    cases pin with
    | none => exact le_rfl
    | some pin =>
        rw [withPin, Multiset.countP_cons]
        exact Nat.le_add_right _ _
  have hpin := hle point.pin
  cases point with
  | unfix ref exclusive q =>
      change ((ref, exclusive) :: held).countP _ ≤ (_ ::ₘ heldPins held).countP _
      have hrest := hheld held fun q hq => h q (List.mem_cons_of_mem _ hq)
      rw [List.countP_cons, Multiset.countP_cons]
      refine Nat.add_le_add hrest ?_
      by_cases hid : ref.id = page.id
      · have hpage : ref = page := h _ (List.mem_cons_self ..) hid
        simp [hpage]
      · simp [hid]
  | _ => exact (hheld held h).trans hpin

omit [Fintype κ] [DecidableEq κ] in
theorem countP_page (pins : Multiset Pin) (page : PageRef) :
    pins.countP (fun pin => pin.page = page) =
      pins.count ⟨page, .shared⟩ + (pins.count ⟨page, .taken⟩ + pins.count ⟨page, .marked⟩) := by
  induction pins using Multiset.induction_on with
  | empty => rfl
  | cons pin pins ih =>
      obtain ⟨q, hold⟩ := pin
      rw [Multiset.countP_cons, ih]
      by_cases hq : page = q
      · subst hq
        cases hold <;> simp <;> omega
      · simp [hq, Ne.symm hq]

namespace Threads

variable {s : Threads κ}

omit [DecidableEq κ] in
theorem Inv.located (hs : s.Inv) {c : κ} {p : PageRef × Bool} (hp : p ∈ (s.client c).fixed) :
    p.1.id ≠ 0 ∧ s.shared.locate p.1.id = some p.1.frame := by
  obtain ⟨hold, hpin, -⟩ := Client.pin_of_fixed (hs.points c) hp s.shared.mask
  exact hs.consistent.pin_located (c := c) _ hpin

omit [DecidableEq κ] in
theorem Inv.alone (hs : s.Inv) {c : κ} {p : PageRef × Bool} (hp : p ∈ (s.client c).fixed)
    (hexclusive : p.2 = true) :
    ∑ d, (s.client d).fixed.countP (fun q => q.1.id = p.1.id) = 1 := by
  set v := fun c => (s.client c).view s.shared.mask with hv
  obtain ⟨hold, hpin, hmode⟩ := Client.pin_of_fixed (hs.points c) hp s.shared.mask
  obtain ⟨hid, hf⟩ := hs.located hp
  have hmem : ⟨p.1, hold⟩ ∈ total View.pins v := mem_total.mpr ⟨c, hpin⟩
  have hcount := (hs.consistent.pages.pages _ _ hid hf).counted
  have hpos : (total View.pins v).count ⟨p.1, .taken⟩ + (total View.pins v).count ⟨p.1, .marked⟩
      ≠ 0 := by
    have hone := Multiset.count_pos.mpr hmem
    cases hold with
    | shared => exact absurd rfl (hmode hexclusive)
    | taken => omega
    | marked => omega
  obtain ⟨hone, hnone, -⟩ := hcount.alone hpos
  -- all pins on the page are the one of this client
  have htotal : (total View.pins v).countP (fun pin => pin.page = p.1) = 1 := by
    rw [countP_page, hone, hnone]
  have hle : ∑ d, (s.client d).fixed.countP (fun q => q.1.id = p.1.id) ≤ 1 := by
    calc ∑ d, (s.client d).fixed.countP (fun q => q.1.id = p.1.id)
        ≤ ∑ d, (v d).pins.countP fun pin => pin.page = p.1 := by
          refine Finset.sum_le_sum fun d _ => Client.countP_fixed_le _ _ _ fun q hq heq => ?_
          have hq' := (hs.located hq).2
          rw [heq, hf] at hq'
          exact congrArg₂ PageRef.mk heq (Option.some.inj hq').symm
      _ = (total View.pins v).countP fun pin => pin.page = p.1 := by
          rw [total, ← Multiset.coe_countPAddMonoidHom, map_sum]
      _ = 1 := htotal
  have hge : 1 ≤ ∑ d, (s.client d).fixed.countP (fun q => q.1.id = p.1.id) := by
    refine le_trans ?_ (Finset.single_le_sum (fun _ _ => Nat.zero_le _) (Finset.mem_univ c))
    exact List.countP_pos_iff.mpr ⟨p, hp, by simp⟩
  exact le_antisymm hle hge

omit [DecidableEq κ] in
theorem Inv.mappings (hs : s.Inv) {h h' i i' : Nat} {m m' : Mapping}
    (hm : (s.shared.entry h).slots[i]? = some m) (hm' : (s.shared.entry h').slots[i']? = some m')
    (hne : m.pageId ≠ 0) (heq : m.pageId = m'.pageId) : h = h' ∧ i = i' := by
  have hhash := hs.consistent.maps.hashed h m (List.mem_of_getElem? hm) hne
  have hhash' := hs.consistent.maps.hashed h' m' (List.mem_of_getElem? hm') (heq ▸ hne)
  have hh : h = h' := by rw [← hhash, ← hhash', heq]
  subst hh
  exact ⟨rfl, (hs.consistent.maps.distinct h).index_inj hm hm' hne heq⟩

theorem Inv.framesKept (hs : s.Inv) : FramesKept s where
  mapped c p hp := by
    obtain ⟨hid, hf⟩ := hs.located hp
    exact ⟨hf, hs.consistent.maps.mapped _ _ hid hf⟩
  frames c d p hp q hq := by
    obtain ⟨hid, hf⟩ := hs.located hp
    obtain ⟨hid', hf'⟩ := hs.located hq
    constructor
    · intro heq
      rw [heq] at hf
      exact hs.consistent.locate_inj hid hid' hf hf'
    · intro heq
      rw [heq, hf'] at hf
      exact (Option.some.inj hf).symm
  rings f g hf heq := hs.consistent.ring_inj hf heq
  mappings h h' i i' m m' hm hm' hne heq := hs.mappings hm hm' hne heq
  alone c p hp hexclusive := hs.alone hp hexclusive
  unaborted c h := by
    have hok := hs.points c
    rw [h] at hok
    exact hok
  modes c page exclusive p h := by
    have hok := hs.points c
    rw [h] at hok
    cases p <;> simp_all [Point.Ok]

end Threads

/-- In every run in which no latch is asked to count more shared holders than
its word has room for, no frame that is fixed is given away. -/
theorem fixed_frames_kept (directorySize : Nat) {es : List (ThreadEvent κ)} {t : Threads κ}
    (hrun : Run FitStep (Threads.init κ directorySize) es t) : FramesKept t :=
  (Threads.inv_of_fit directorySize hrun).1.framesKept

/-! ### Runs by evaluation -/

def Point.isIdle : Point → Bool
  | .idle => true
  | _ => false

omit [Fintype κ] in
/-- The state after an event, if it is a step that fits and passes the test. -/
def Threads.next (test : Threads κ → ThreadEvent κ → Threads κ → Bool) (s : Threads κ)
    (e : ThreadEvent κ) : Option (Threads κ) :=
  if (s.client e.client).overruns s.shared then none
  else Option.filter (test s e) <| match e with
    | .start c call =>
        if (s.client c).point.isIdle then ((s.client c).start s.shared call).map (s.set c) else none
    | .step c ok => ((s.client c).step s.shared ok).map (s.set c)

def Threads.play (test : Threads κ → ThreadEvent κ → Threads κ → Bool) (s : Threads κ)
    (es : List (ThreadEvent κ)) : Option (Threads κ) :=
  es.foldlM (Threads.next test) s

variable {test : Threads κ → ThreadEvent κ → Threads κ → Bool}

omit [Fintype κ] in
theorem Threads.next_step {s t : Threads κ} {e : ThreadEvent κ} (h : s.next test e = some t) :
    FitStep s e t ∧ test s e t = true := by
  unfold Threads.next at h
  split at h
  · cases h
  · rename_i hfit
    obtain ⟨h, htest⟩ := Option.filter_eq_some_iff.mp h
    refine ⟨⟨?_, hfit⟩, htest⟩
    split at h
    · split at h
      · rename_i hidle
        obtain ⟨next, hnext, rfl⟩ := Option.map_eq_some_iff.mp h
        refine .start ?_ hnext
        revert hidle
        cases (s.client _).point <;> simp [Point.isIdle]
      · cases h
    · obtain ⟨next, hnext, rfl⟩ := Option.map_eq_some_iff.mp h
      exact .step hnext

omit [Fintype κ] in
theorem Threads.play_run {es : List (ThreadEvent κ)} {s t : Threads κ}
    (h : s.play test es = some t) :
    Run (fun s e t => FitStep s e t ∧ test s e t = true) s es t := by
  rw [← List.map_id es]
  exact .of_foldlM (fun _ _ _ => next_step) h

/-- A client enters a function and makes its next steps. -/
def enters (c : κ) (call : PagerCall) (n : Nat) : List (ThreadEvent κ) :=
  .start c call :: List.replicate n (.step c true)

/-- The second client asks for page 1 while the first holds it exclusively, and has it
when the first lets go; then both hold it shared. No page is evicted for page 2
before both have unfixed page 1, and there is none for page 1 afterwards. -/
theorem fixed_frames_kept_once :
    ∃ es es' s t, Run FitStep (Threads.init Bool 4) es s ∧ Run FitStep s es' t ∧
      (s.client true).held = [(⟨1, 0⟩, false)] ∧ (s.client false).held = [(⟨1, 0⟩, false)] ∧
      (t.client true).held = [(⟨2, 1⟩, true)] ∧ (t.client false).held = [] ∧
      FramesKept s ∧ FramesKept t := by
  let es := enters true (.fix 1 true) 18 ++ enters false (.fix 1 false) 2 ++
    enters true (.unfix 0) 4 ++ List.replicate 3 (.step false true) ++
    enters true (.fix 1 false) 5
  let es' := enters true (.unfix 0) 4 ++ enters true (.fix 2 true) 24 ++
    enters false (.unfix 0) 4 ++ enters true (.fix 2 true) 39 ++ enters false (.fix 1 false) 24
  have hplay : ((Threads.init Bool 4).play (fun _ _ _ => true) es).any (fun s =>
      (s.client true).held = [(⟨1, 0⟩, false)] ∧ (s.client false).held = [(⟨1, 0⟩, false)] ∧
        (s.play (fun _ _ _ => true) es').any fun t =>
          (t.client true).held = [(⟨2, 1⟩, true)] ∧ (t.client false).held = []) = true := by
    decide +kernel
  obtain ⟨s, hs, hfirst⟩ := (Option.any_eq_true ..).mp hplay
  obtain ⟨hheld, hheld', hrest⟩ := of_decide_eq_true hfirst
  obtain ⟨t, ht, hlast⟩ := (Option.any_eq_true ..).mp hrest
  obtain ⟨hlast, hlast'⟩ := of_decide_eq_true hlast
  have hrun := (Threads.play_run hs).mono fun _ _ _ h => h.1
  have hrun' := (Threads.play_run ht).mono fun _ _ _ h => h.1
  exact ⟨es, es', s, t, hrun, hrun', hheld, hheld', hlast, hlast', fixed_frames_kept 4 hrun,
    fixed_frames_kept 4 (hrun.append hrun')⟩

/-! ### A latch that counts too many holders -/

section Overrun

/-- A system with a single client. -/
def alone (s : SharedPager) (c : Client) : Threads Unit := ⟨s, fun _ => c⟩

theorem alone_step {s s' : SharedPager} {c c' : Client} (h : c.step s true = some (s', c')) :
    ThreadStep (alone s c) (.step () true) (alone s' c') := by
  have hset : (alone s c).set () (s', c') = alone s' c' := by
    refine congrArg (Threads.mk s') (funext fun _ => ?_)
    exact Function.update_self _ _ _
  exact hset ▸ .step (s := alone s c) (c := ()) h

theorem alone_start {s s' : SharedPager} {c c' : Client} {call : PagerCall}
    (hidle : c.point = .idle) (h : c.start s call = some (s', c')) :
    ThreadStep (alone s c) (.start () call) (alone s' c') := by
  have hset : (alone s c).set () (s', c') = alone s' c' := by
    refine congrArg (Threads.mk s') (funext fun _ => ?_)
    exact Function.update_self _ _ _
  exact hset ▸ .start (s := alone s c) (c := ()) hidle h

/-- Page 1 is in frame 0, whose latch counts shared holders. -/
structure SharedPage (word : Int) (s : SharedPager) : Prop where
  entry : s.entryLatch (s.hash 1) = 0
  mapped : s.locate 1 = some 0
  word : s.latch 0 = word
  flag : s.flags 0 &&& PAGE_FLAG_EXCLUSIVE = 0

/-- One more shared fix of the page. -/
theorem SharedPage.fix {word : Int} {s : SharedPager} (h : SharedPage word s) (hle : 0 ≤ word)
    (held : List (PageRef × Bool)) : ∃ es s', Run ThreadStep (alone s ⟨.idle, held⟩) es
      (alone s' ⟨.idle, (⟨1, 0⟩, false) :: held⟩) ∧
      SharedPage (Int.bmod (word + 1) (2 ^ 32)) s' := by
  set s₁ := s.setEntryLatch (s.hash 1) 1 with hs₁
  set s₂ := s₁.setLatch 0 (Int.bmod (word + 1) (2 ^ 32)) with hs₂
  have hlatched : s₁.entryLatch (s.hash 1) = 1 := Function.update_self _ _ _
  have hstart : ThreadStep (alone s ⟨.idle, held⟩) (.start () (.fix 1 false))
      (alone s ⟨.fix ⟨1, false, false⟩ .readEntry, held⟩) := alone_start rfl rfl
  have hentry : ThreadStep (alone s ⟨.fix ⟨1, false, false⟩ .readEntry, held⟩) (.step () true)
      (alone s₁ ⟨.fix ⟨1, false, false⟩ .lookup, held⟩) :=
    alone_step (by simp [Client.step, Client.fixStep, h.entry, readWord, hs₁, Client.goto])
  have hlookup : ThreadStep (alone s₁ ⟨.fix ⟨1, false, false⟩ .lookup, held⟩) (.step () true)
      (alone s₁ ⟨.fix ⟨1, false, false⟩ (.pageLatch .lookup 0), held⟩) := by
    refine alone_step ?_
    have hf : (s₁.entry (s₁.hash 1)).lookup 1 = some 0 := locate_of_lookup.trans h.mapped
    simp only [Client.step, Client.fixStep, hf]
    exact if_neg (hlatched.trans_ne one_ne_zero)
  have hpage : ThreadStep (alone s₁ ⟨.fix ⟨1, false, false⟩ (.pageLatch .lookup 0), held⟩)
      (.step () true) (alone s₂ ⟨.fix ⟨1, false, false⟩ (.readAssert (some 0)), held⟩) := by
    refine alone_step ?_
    have hword : s₁.latch 0 = word := h.word
    simp [Client.step, Client.fixStep, acquireWord, readWord, hword, hle, Client.afterLatch,
      Client.goto, hs₂]
  have hassert : ThreadStep (alone s₂ ⟨.fix ⟨1, false, false⟩ (.readAssert (some 0)), held⟩)
      (.step () true) (alone s₂ ⟨.fix ⟨1, false, false⟩ (.readDrop (some 0)), held⟩) :=
    alone_step (if_pos (hlatched.symm ▸ one_pos))
  have hdrop : ThreadStep (alone s₂ ⟨.fix ⟨1, false, false⟩ (.readDrop (some 0)), held⟩)
      (.step () true) (alone (s₂.setEntryLatch (s.hash 1) (dropWord (s₂.entryLatch (s.hash 1))))
        ⟨.idle, (⟨1, 0⟩, false) :: held⟩) := alone_step rfl
  refine ⟨_, _, .cons hstart (.cons hentry (.cons hlookup (.cons hpage (.cons hassert
    (.cons hdrop (.nil _)))))), ?_, h.mapped, ?_, h.flag⟩
  swap
  · exact Function.update_self (f := s₁.latch) 0 _
  change Function.update s₂.entryLatch (s.hash 1) (dropWord (s₂.entryLatch (s.hash 1)))
      (s.hash 1) = 0
  rw [Function.update_self]
  change dropWord (s₁.entryLatch (s.hash 1)) = 0
  rw [hlatched]
  rfl

/-- As many shared fixes of the page as its latch has room for. -/
theorem SharedPage.fixes {s : SharedPager} (h : SharedPage 1 s)
    (held : List (PageRef × Bool)) (n : Nat)
    (hn : n < 2 ^ 31 - 1) : ∃ es s' held', Run ThreadStep (alone s ⟨.idle, held⟩) es
      (alone s' ⟨.idle, held'⟩) ∧ SharedPage (1 + n) s' := by
  induction n with
  | zero => exact ⟨_, s, held, .nil _, h⟩
  | succ n ih =>
      obtain ⟨es, s', held', hrun, h'⟩ := ih (by omega)
      obtain ⟨es', s'', hrun', h''⟩ := h'.fix (by omega) held'
      refine ⟨_, s'', _, hrun.append hrun', ?_⟩
      have hword : Int.bmod (1 + (n : Int) + 1) (2 ^ 32) = 1 + ((n + 1 : Nat) : Int) := by
        rw [Int.bmod_eq_of_le] <;> omega
      rwa [hword] at h''

/-- A page held shared on a latch that went round: its release aborts. -/
theorem SharedPage.unfix_aborts {word : Int} {s : SharedPager} (h : SharedPage word s)
    (hlt : word < 0) (held : List (PageRef × Bool)) :
    ∃ es s', Run ThreadStep (alone s ⟨.idle, (⟨1, 0⟩, false) :: held⟩) es
      (alone s' ⟨.aborted, held⟩) := by
  have hstart : ThreadStep (alone s ⟨.idle, (⟨1, 0⟩, false) :: held⟩) (.start () (.unfix 0))
      (alone s ⟨.unfix ⟨1, 0⟩ false .load, held⟩) := alone_start rfl rfl
  have hload : ThreadStep (alone s ⟨.unfix ⟨1, 0⟩ false .load, held⟩) (.step () true)
      (alone s ⟨.unfix ⟨1, 0⟩ false .setRef, held⟩) :=
    alone_step (if_neg (not_not.mpr h.flag))
  have hset : ThreadStep (alone s ⟨.unfix ⟨1, 0⟩ false .setRef, held⟩) (.step () true)
      (alone (s.setFlags 0 (s.flags 0 ||| PAGE_FLAG_REF))
        ⟨.unfix ⟨1, 0⟩ false .readAssert, held⟩) :=
    alone_step rfl
  have hassert : ThreadStep
      (alone (s.setFlags 0 (s.flags 0 ||| PAGE_FLAG_REF)) ⟨.unfix ⟨1, 0⟩ false .readAssert, held⟩)
      (.step () true) (alone (s.setFlags 0 (s.flags 0 ||| PAGE_FLAG_REF)) ⟨.aborted, held⟩) := by
    refine alone_step (if_neg ?_)
    change ¬ 0 < s.latch 0
    rw [h.word]
    omega
  exact ⟨_, _, .cons hstart (.cons hload (.cons hset (.cons hassert (.nil _))))⟩

/-- One client fixes a page shared once more than its latch can count; the
assertion of the next `pager_unfix` fails. -/
theorem overrun_latch_aborts : ¬ ∀ (es : List (ThreadEvent Unit)) (t : Threads Unit),
    Run ThreadStep (Threads.init Unit 4) es t → FramesKept t := by
  intro hkept
  have hplay : (((Threads.init Unit 4).play (fun _ _ _ => true) (enters () (.fix 1 false) 17)).map
      fun t =>
      ((t.client ()).point.isIdle, t.shared.entryLatch (t.shared.hash 1), t.shared.locate 1,
        t.shared.latch 0, t.shared.flags 0)) = some (true, 0, some 0, 1, 0) := by decide +kernel
  obtain ⟨t, ht, hshape⟩ := Option.map_eq_some_iff.mp hplay
  simp only [Prod.mk.injEq] at hshape
  obtain ⟨hidle, hentry, hmapped, hword, hflag⟩ := hshape
  have hrun := (Threads.play_run ht).mono fun _ _ _ h => h.1.1
  have hpage : SharedPage 1 t.shared := ⟨hentry, hmapped, hword, by rw [hflag]; rfl⟩
  have halone : t = alone t.shared ⟨.idle, (t.client ()).held⟩ := by
    obtain ⟨s, cl⟩ := t
    refine congrArg (Threads.mk s) (funext fun _ => ?_)
    revert hidle
    dsimp only
    cases cl () with
    | mk point held => cases point <;> simp [Point.isIdle]
  rw [halone] at hrun
  obtain ⟨es₁, s₁, held₁, hrun₁, h₁⟩ := hpage.fixes (t.client ()).held (2 ^ 31 - 2) (by norm_num)
  obtain ⟨es₂, s₂, hrun₂, h₂⟩ := h₁.fix (by norm_num) held₁
  obtain ⟨es₃, s₃, hrun₃⟩ := h₂.unfix_aborts (by decide) held₁
  exact (hkept _ _ (((hrun.append hrun₁).append hrun₂).append hrun₃)).unaborted () rfl

end Overrun

end Wednesday
