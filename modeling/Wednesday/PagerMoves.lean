import Wednesday.PagerProtocol

/-!
The moves of the protocol. Each changes the view of one client and one part of
the shared memory, and keeps the system consistent.
-/

namespace Wednesday

open Lib SharedPager

theorem HashEntry.slots_insert (e : HashEntry) (m : Mapping) :
    (e.insert m).slots = HashEntry.fill m e.slots := by
  simp only [insert, slots, fill]
  split
  · rfl
  · split <;> rfl

/-- What the protocol reads of the shared memory. -/
structure SameCore (s s' : SharedPager) : Prop where
  mask : s'.mask = s.mask
  entryLatch : s'.entryLatch = s.entryLatch
  entry : s'.entry = s.entry
  ringId : s'.ringId = s.ringId
  latch : s'.latch = s.latch
  flags : s'.flags = s.flags

theorem SameCore.touches {s s' : SharedPager} (h : SameCore s s') (f : Nat) : Touches s s' f :=
  ⟨h.mask, h.entryLatch, h.entry, h.ringId, fun _ _ => by rw [h.latch], fun _ _ => by rw [h.flags]⟩

variable {κ : Type} [Fintype κ] [DecidableEq κ] {s s' : SharedPager} {v : κ → View} {c : κ}
  {x : View} {id : PageId} {f h : Nat} {w : Bool} {word : Int}

theorem MapsOk.congr (hm : MapsOk s) (hmask : s'.mask = s.mask) (hentry : s'.entry = s.entry)
    (hring : s'.ringId = s.ringId) : MapsOk s' where
  distinct h := by
    rw [hentry]
    exact hm.distinct h
  hashed h m hmem hne := by
    rw [SharedPager.hash, hmask]
    rw [hentry] at hmem
    exact hm.hashed h m hmem hne
  mapped id f hid hf := by
    rw [hring]
    rw [locate, SharedPager.hash, hentry, hmask] at hf
    exact hm.mapped id f hid hf

theorem EntriesOk.congr (he : EntriesOk s v) (hword : s'.entryLatch = s.entryLatch)
    (hentry : x.entry = (v c).entry) : EntriesOk s' (Function.update v c x) := by
  have heq : View.entries x = View.entries (v c) := by rw [View.entries, View.entries, hentry]
  rw [EntriesOk, total_update_eq heq, hword]
  exact he

theorem PagesOk.congr (hp : PagesOk s v) (hloc : ∀ id, s'.locate id = s.locate id)
    (hlatch : s'.latch = s.latch) (hflags : s'.flags = s.flags) (hpins : x.pins = (v c).pins) :
    PagesOk s' (Function.update v c x) := by
  have heq : View.pins x = View.pins (v c) := hpins
  refine ⟨fun pin hpin => ?_, fun id f hid hf => ?_⟩
  · rw [total_update_eq heq] at hpin
    rw [hloc]
    exact hp.pinned pin hpin
  · rw [total_update_eq heq, hlatch, hflags]
    exact hp.pages id f hid (hloc id ▸ hf)

omit [Fintype κ] in
/-- The facts of the other clients, and of the one that moves. -/
theorem FactsOk.update (hguard : ∀ d, d ≠ c → (v d).fact.Guarded s' (v d).entry)
    (hholds : ∀ d, d ≠ c → (v d).fact.Holds s') (hG : x.fact.Guarded s' x.entry)
    (hF : x.fact.Holds s')
    (hring : ∀ f, s'.ringId f ≠ 0 → s'.locate (s'.ringId f) = some f ∨ x.fact.owns = some f ∨
      ∃ d, d ≠ c ∧ (v d).fact.owns = some f) : FactsOk s' (Function.update v c x) where
  guarded d := by
    by_cases hd : d = c
    · subst hd
      rwa [Function.update_self]
    · rw [Function.update_of_ne hd]
      exact hguard d hd
  holds d := by
    by_cases hd : d = c
    · subst hd
      rwa [Function.update_self]
    · rw [Function.update_of_ne hd]
      exact hholds d hd
  ringed f hf := by
    rcases hring f hf with hmap | hown | ⟨d, hd, hown⟩
    · exact Or.inl hmap
    · exact Or.inr ⟨c, by rwa [Function.update_self]⟩
    · exact Or.inr ⟨d, by rwa [Function.update_of_ne hd]⟩

omit [Fintype κ] [DecidableEq κ] in
/-- Who owned a ring entry before the move of `c`. -/
theorem FactsOk.ringed' (hf : FactsOk s v) (c : κ) {f : Nat} (hne : s.ringId f ≠ 0) :
    s.locate (s.ringId f) = some f ∨ (v c).fact.owns = some f ∨
      ∃ d, d ≠ c ∧ (v d).fact.owns = some f := by
  rcases hf.ringed f hne with hmap | ⟨d, hown⟩
  · exact Or.inl hmap
  · by_cases hd : d = c
    · subst hd
      exact Or.inr (Or.inl hown)
    · exact Or.inr (Or.inr ⟨d, hd, hown⟩)

namespace Consistent

/-- The client learns something, or forgets it, and the shared memory keeps
what the protocol reads. -/
theorem think (hc : Consistent s v) (hcore : SameCore s s') (hentry : x.entry = (v c).entry)
    (hpins : x.pins = (v c).pins) (hG : x.fact.Guarded s x.entry) (hF : x.fact.Holds s)
    (howns : (v c).fact.owns = none ∨ x.fact.owns = (v c).fact.owns) :
    Consistent s' (Function.update v c x) := by
  have ht := hcore.touches
  have hlatch : ∀ f, s'.latch f = s.latch f := fun f => by rw [hcore.latch]
  -- no frame is touched, so every frame stands for one nobody owns
  have hkeep : ∀ F : Fact, F.Holds s → F.Holds s' := by
    intro F hF
    cases hown : F.owns with
    | none => exact Fact.holds_touches (ht 0) hF (Or.inl (hlatch 0)) (by simp [hown])
    | some g =>
        refine Fact.holds_touches (ht (g + 1)) hF (Or.inl (hlatch _)) ?_
        simp [hown]
  refine ⟨hc.entries.congr hcore.entryLatch hentry,
    hc.pages.congr (ht 0).locate hcore.latch hcore.flags hpins,
    hc.maps.congr hcore.mask hcore.entry hcore.ringId, FactsOk.update ?_ ?_ ?_ ?_ ?_⟩
  · exact fun d _ => Fact.guarded_congr (ht 0).hash (hc.facts.guarded d)
  · exact fun d _ => hkeep _ (hc.facts.holds d)
  · exact Fact.guarded_congr (ht 0).hash hG
  · exact hkeep _ hF
  · intro f hf
    rw [hcore.ringId] at hf ⊢
    rw [(ht 0).locate]
    rcases hc.facts.ringed' c hf with hmap | hown | hother
    · exact Or.inl hmap
    · rcases howns with hnone | heq
      · rw [hnone] at hown
        cases hown
      · exact Or.inr (Or.inl (heq.trans hown))
    · exact Or.inr (Or.inr hother)

/-! ### Hash-entry latches -/

omit [DecidableEq κ] in
/-- A client without a hash entry knows nothing. -/
theorem nothing (hc : Consistent s v) (hentry : (v c).entry = none) : (v c).fact = .nothing := by
  have hG := hc.facts.guarded c
  cases hF : (v c).fact with
  | nothing => rfl
  | found id g =>
      rw [hF, hentry] at hG
      obtain ⟨w, hw⟩ := hG
      cases hw
  | _ =>
      rw [hF, hentry] at hG
      cases hG

/-- A change of a hash-entry latch by a client that owns no frame. -/
theorem latchEntry (hc : Consistent s v) (hpins : x.pins = (v c).pins)
    (howns : (v c).fact.owns = none) (hfact : x.fact = .nothing)
    (hentries : EntriesOk (s.setEntryLatch h word) (Function.update v c x)) :
    Consistent (s.setEntryLatch h word) (Function.update v c x) := by
  have hkeep : ∀ F : Fact, F.Holds s → F.Holds (s.setEntryLatch h word) := by
    intro F hF
    cases F with
    | owned id g => exact ⟨hF.ne, hF.miss, hF.ring⟩
    | cleared id g => exact ⟨⟨hF.1.ne, hF.1.miss, hF.1.ring⟩, hF.2⟩
    | fresh id g => exact ⟨⟨hF.1.ne, hF.1.miss, hF.1.ring⟩, hF.2⟩
    | _ => exact hF
  refine ⟨hentries, hc.pages.congr (fun _ => rfl) rfl rfl hpins, hc.maps.congr rfl rfl rfl,
    FactsOk.update ?_ ?_ ?_ ?_ ?_⟩
  · exact fun d _ => Fact.guarded_congr (fun _ => rfl) (hc.facts.guarded d)
  · exact fun d _ => hkeep _ (hc.facts.holds d)
  · rw [hfact]
    trivial
  · rw [hfact]
    trivial
  · intro f hf
    rcases hc.facts.ringed' c hf with hmap | hown | hother
    · exact Or.inl hmap
    · rw [howns] at hown
      cases hown
    · exact Or.inr (Or.inr hother)

theorem acquireEntry (hc : Consistent s v) (hentry : (v c).entry = none)
    (hword : acquireWord (s.entryLatch h) w = some word) :
    Consistent (s.setEntryLatch h word)
      (Function.update v c ⟨some (h, w), (v c).pins, .nothing⟩) := by
  have hnothing := hc.nothing hentry
  refine hc.latchEntry rfl (by rw [hnothing]; rfl) rfl ?_
  obtain ⟨rest, hold, hnew⟩ := exists_total_update View.entries v c
  have hzero : View.entries (v c) = 0 := by rw [View.entries, hentry]; rfl
  rw [hzero, zero_add] at hold
  intro g
  rw [hnew, View.entries_some, Multiset.singleton_add]
  have hg := hc.entries g
  rw [hold] at hg
  by_cases hgh : g = h
  · subst hgh
    simp only [setEntryLatch, Function.update_self]
    cases w with
    | true =>
        simp only [acquireWord, writeWord, if_true, Option.ite_none_right_eq_some] at hword
        obtain ⟨hfree, hw⟩ := hword
        cases hw
        rw [Multiset.count_cons_of_ne (by simp), Multiset.count_cons_self]
        exact hg.acquireWrite hfree
    | false =>
        simp only [acquireWord, readWord, Bool.false_eq_true, if_false,
          Option.ite_none_right_eq_some] at hword
        obtain ⟨hle, hw⟩ := hword
        cases hw
        rw [Multiset.count_cons_self, Multiset.count_cons_of_ne (by simp)]
        exact hg.acquireRead hle
  · simp only [setEntryLatch, Function.update_of_ne hgh]
    rw [Multiset.count_cons_of_ne (by simp [hgh]), Multiset.count_cons_of_ne (by simp [hgh])]
    exact hg

/-- The word of a hash-entry latch that a client holds shared. -/
theorem read_word (hc : Consistent s v) (hentry : (v c).entry = some (h, false)) :
    s.entryLatch h ≠ 0 ∧ (s.entryLatch h ≠ jammed → 0 < s.entryLatch h) := by
  obtain ⟨rest, hold, -⟩ := exists_total_update View.entries v c
  have hone : View.entries (v c) = {(h, false)} := by rw [View.entries, hentry]; rfl
  have hh := hc.entries h
  rw [hold, hone, Multiset.singleton_add, Multiset.count_cons_self] at hh
  exact ⟨hh.word_ne_zero (Nat.succ_ne_zero _), hh.word_pos (Nat.succ_ne_zero _)⟩

/-- The word of a hash-entry latch that a client holds exclusively. -/
theorem write_word (hc : Consistent s v) (hentry : (v c).entry = some (h, true)) :
    s.entryLatch h = -1 := by
  obtain ⟨rest, hold, -⟩ := exists_total_update View.entries v c
  have hone : View.entries (v c) = {(h, true)} := by rw [View.entries, hentry]; rfl
  have hh := hc.entries h
  rw [hold, hone, Multiset.singleton_add, Multiset.count_cons_of_ne (by simp),
    Multiset.count_cons_self] at hh
  exact hh.releaseWrite.1

theorem releaseEntry (hc : Consistent s v) (hentry : (v c).entry = some (h, w))
    (howns : (v c).fact.owns = none)
    (hword : word = if w then 0 else dropWord (s.entryLatch h)) :
    Consistent (s.setEntryLatch h word) (Function.update v c ⟨none, (v c).pins, .nothing⟩) := by
  refine hc.latchEntry rfl howns rfl ?_
  obtain ⟨rest, hold, hnew⟩ := exists_total_update View.entries v c
  have hone : View.entries (v c) = {(h, w)} := by rw [View.entries, hentry]; rfl
  rw [hone, Multiset.singleton_add] at hold
  intro g
  rw [hnew, View.entries_none, zero_add]
  have hg := hc.entries g
  rw [hold] at hg
  by_cases hgh : g = h
  · subst hgh
    simp only [setEntryLatch, Function.update_self]
    cases w with
    | true =>
        rw [Multiset.count_cons_of_ne (by simp), Multiset.count_cons_self] at hg
        rw [hword]
        exact hg.releaseWrite.2
    | false =>
        rw [Multiset.count_cons_self, Multiset.count_cons_of_ne (by simp)] at hg
        rw [hword]
        exact hg.releaseRead
  · simp only [setEntryLatch, Function.update_of_ne hgh]
    rwa [Multiset.count_cons_of_ne (by simp [hgh]), Multiset.count_cons_of_ne (by simp [hgh])]
      at hg

/-! ### Page latches and flags -/

/-- The client changes its pins on one mapped page, and that page's header. -/
theorem touchPage (hc : Consistent s v) (ht : Touches s s' f) (hid : id ≠ 0)
    (hf : s.locate id = some f) {a b m : Multiset Pin} (hold : (v c).pins = a + m)
    (hnew : x.pins = b + m) (ha : ∀ pin ∈ a, pin.page = ⟨id, f⟩)
    (hb : ∀ pin ∈ b, pin.page = ⟨id, f⟩)
    (hok : ∀ rest : Multiset Pin,
      PageOk (s.latch f) (s.flags f) ((a + rest).count ⟨⟨id, f⟩, .shared⟩)
        ((a + rest).count ⟨⟨id, f⟩, .taken⟩) ((a + rest).count ⟨⟨id, f⟩, .marked⟩) →
      PageOk (s'.latch f) (s'.flags f) ((b + rest).count ⟨⟨id, f⟩, .shared⟩)
        ((b + rest).count ⟨⟨id, f⟩, .taken⟩) ((b + rest).count ⟨⟨id, f⟩, .marked⟩)) :
    PagesOk s' (Function.update v c x) := by
  obtain ⟨rest, htotal, htotal'⟩ := exists_total_update View.pins v c
  rw [hold, add_assoc] at htotal
  have hx : total View.pins (Function.update v c x) = b + (m + rest) := by
    rw [htotal', hnew, add_assoc]
  refine ⟨fun pin hpin => ?_, fun j g hj hg => ?_⟩
  · rw [ht.locate]
    rw [hx, Multiset.mem_add] at hpin
    rcases hpin with hpin | hpin
    · rw [hb pin hpin]
      exact ⟨hid, hf⟩
    · refine hc.pages.pinned pin ?_
      rw [htotal, Multiset.mem_add]
      exact Or.inr hpin
  · rw [ht.locate] at hg
    have hpage := hc.pages.pages j g hj hg
    rw [htotal] at hpage
    rw [hx]
    by_cases hgf : g = f
    · subst hgf
      have hjid := hc.locate_inj hj hid hg hf
      subst hjid
      exact hok _ hpage
    · have hne : ∀ a : Multiset Pin, (∀ pin ∈ a, pin.page = ⟨id, f⟩) → ∀ hold,
          a.count ⟨⟨j, g⟩, hold⟩ = 0 := by
        intro a ha hold
        rw [Multiset.count_eq_zero]
        intro hmem
        have heq := ha _ hmem
        simp only [PageRef.mk.injEq] at heq
        exact hgf heq.2
      simp only [Multiset.count_add, hne a ha, hne b hb, zero_add] at hpage ⊢
      rw [ht.latch g hgf, ht.flags g hgf]
      exact hpage

/-- The same for the whole system: the client keeps its hash entry and owns
nothing, and nobody counts on the latch of the page being free. -/
theorem pinMove (hc : Consistent s v) (ht : Touches s s' f) (hid : id ≠ 0)
    (hf : s.locate id = some f) (hpages : PagesOk s' (Function.update v c x))
    (hentry : x.entry = (v c).entry) (hfact : x.fact = .nothing ∨ x.fact = (v c).fact)
    (hquiet : s'.latch f = s.latch f ∨ ∀ d j, (v d).fact ≠ .quiet j f)
    (howns : (v c).fact.owns = none) : Consistent s' (Function.update v c x) := by
  have hkeep : ∀ d, (v d).fact.Holds s' := fun d =>
    Fact.holds_touches ht (hc.facts.holds d) (hquiet.imp_right fun h => h d)
      (hc.not_owns hid hf d)
  refine ⟨hc.entries.congr ht.entryLatch hentry, hpages,
    hc.maps.congr ht.mask ht.entry ht.ringId, FactsOk.update ?_ ?_ ?_ ?_ ?_⟩
  · exact fun d _ => Fact.guarded_congr ht.hash (hc.facts.guarded d)
  · exact fun d _ => hkeep d
  · rcases hfact with hfact | hfact
    · rw [hfact]
      trivial
    · rw [hfact, hentry]
      exact Fact.guarded_congr ht.hash (hc.facts.guarded c)
  · rcases hfact with hfact | hfact
    · rw [hfact]
      trivial
    · rw [hfact]
      exact hkeep c
  · intro g hg
    rw [ht.ringId] at hg ⊢
    rw [ht.locate]
    rcases hc.facts.ringed' c hg with hmap | hown | hother
    · exact Or.inl hmap
    · rw [howns] at hown
      cases hown
    · exact Or.inr (Or.inr hother)

omit [DecidableEq κ] in
/-- A pinned page is mapped. -/
theorem pin_located (hc : Consistent s v) (pin : Pin) (hpin : pin ∈ (v c).pins) :
    pin.page.id ≠ 0 ∧ s.locate pin.page.id = some pin.page.frame :=
  hc.pages.pinned pin (mem_total.mpr ⟨c, hpin⟩)

omit [DecidableEq κ] in
/-- A page somebody holds is not quiet. -/
theorem not_quiet (hc : Consistent s v) {pin : Pin} (hpin : pin ∈ (v c).pins) (d : κ)
    (j : PageId) : (v d).fact ≠ .quiet j pin.page.frame := by
  intro hq
  have hmem : pin ∈ total View.pins v := mem_total.mpr ⟨c, hpin⟩
  obtain ⟨hid, hf⟩ := hc.pages.pinned pin hmem
  have hquiet := hc.facts.holds d
  rw [hq] at hquiet
  have hpage := (hc.pages.pages _ _ hid hf).counted
  obtain ⟨hshared, hexclusive⟩ := hpage.unheld hquiet.2.2
  have hzero : (total View.pins v).count pin = 0 := by
    obtain ⟨⟨i, g⟩, hold⟩ := pin
    cases hold with
    | shared => exact hshared
    | taken => exact (Nat.add_eq_zero_iff.mp hexclusive).1
    | marked => exact (Nat.add_eq_zero_iff.mp hexclusive).2
  exact Multiset.count_eq_zero.mp hzero hmem

/-- `latch_acquire` on a page found. -/
theorem pin (hc : Consistent s v) {exclusive : Bool} (hfact : (v c).fact = .found id f)
    (hword : acquireWord (s.latch f) exclusive = some word) :
    Consistent (s.setLatch f word) (Function.update v c ⟨(v c).entry,
      ⟨⟨id, f⟩, if exclusive then .taken else .shared⟩ ::ₘ (v c).pins, .nothing⟩) := by
  have hfound := hc.facts.holds c
  have hguard := hc.facts.guarded c
  rw [hfact] at hfound hguard
  have ht := touches_setLatch s f word
  refine hc.pinMove ht hfound.1 hfound.2 ?_ rfl (Or.inl rfl) (Or.inr ?_) (by rw [hfact]; rfl)
  · refine hc.touchPage ht hfound.1 hfound.2 (zero_add _).symm
      (Multiset.singleton_add _ _).symm (by simp) (by simp) fun rest hok => ?_
    rw [zero_add] at hok
    simp only [setLatch, Function.update_self, Multiset.singleton_add]
    cases exclusive with
    | true =>
        simp only [acquireWord, writeWord, if_true, Option.ite_none_right_eq_some] at hword
        obtain ⟨hfree, hw⟩ := hword
        cases hw
        have hcount := hok.counted.acquireWrite hfree
        refine ⟨?_, by simpa using hok.flag⟩
        simpa [add_right_comm] using hcount
    | false =>
        simp only [acquireWord, readWord, Bool.false_eq_true, if_false,
          Option.ite_none_right_eq_some] at hword
        obtain ⟨hle, hw⟩ := hword
        cases hw
        have hcount := hok.counted.acquireRead hle
        exact ⟨by simpa using hcount, by simpa using hok.flag⟩
  · intro d j hq
    have hquiet := hc.facts.holds d
    have hguard' := hc.facts.guarded d
    rw [hq] at hquiet hguard'
    have hj := hc.locate_inj hfound.1 hquiet.1 hfound.2 hquiet.2.1
    subst hj
    obtain ⟨w, hw⟩ := hguard
    have hdc := hc.entry_alone hguard' hw
    subst hdc
    rw [hfact] at hq
    cases hq

/-- The flags of a mapped page change, but not the exclusive one. -/
theorem keepFlag (hc : Consistent s v) {flags : Nat} (hid : id ≠ 0) (hf : s.locate id = some f)
    (hflags : flags &&& PAGE_FLAG_EXCLUSIVE ≠ 0 ↔ s.flags f &&& PAGE_FLAG_EXCLUSIVE ≠ 0)
    (hentry : x.entry = (v c).entry) (hpins : x.pins = (v c).pins)
    (hfact : x.fact = .nothing ∨ x.fact = (v c).fact) (howns : (v c).fact.owns = none) :
    Consistent (s.setFlags f flags) (Function.update v c x) := by
  have ht := touches_setFlags s f flags
  refine hc.pinMove ht hid hf ?_ hentry hfact (Or.inl rfl) howns
  refine hc.touchPage ht hid hf (zero_add _).symm (hpins.trans (zero_add _).symm) (by simp)
    (by simp) fun rest hok => ⟨hok.counted, ?_⟩
  simp only [setFlags, Function.update_self]
  exact hflags.trans hok.flag

/-- The flag of an exclusive holder. -/
theorem mark (hc : Consistent s v) {m : Multiset Pin} {page : PageRef}
    (hpins : (v c).pins = ⟨page, .taken⟩ ::ₘ m) (howns : (v c).fact = .nothing) :
    Consistent (s.setFlags page.frame (s.flags page.frame ||| PAGE_FLAG_EXCLUSIVE))
      (Function.update v c ⟨(v c).entry, ⟨page, .marked⟩ ::ₘ m, .nothing⟩) := by
  obtain ⟨hid, hf⟩ := hc.pin_located ⟨page, .taken⟩ (by rw [hpins]; simp)
  have ht := touches_setFlags s page.frame (s.flags page.frame ||| PAGE_FLAG_EXCLUSIVE)
  refine hc.pinMove ht hid hf ?_ rfl (Or.inl rfl) (Or.inl rfl) (by rw [howns]; rfl)
  refine hc.touchPage ht hid hf (hpins.trans (Multiset.singleton_add _ _).symm)
    (Multiset.singleton_add _ _).symm (by simp) (by simp) fun rest hok => ?_
  have hcount := hok.counted
  simp only [Multiset.singleton_add, Multiset.count_cons, setFlags, Function.update_self,
    Pin.mk.injEq, true_and, reduceCtorEq, if_true, if_false, add_zero] at hcount ⊢
  refine ⟨by simpa [setFlags, add_right_comm, ← add_assoc] using hcount, ?_⟩
  simp [exclusive_or_exclusive]

/-- The flags an exclusive holder leaves. -/
theorem unmark (hc : Consistent s v) {m : Multiset Pin} {page : PageRef}
    (hpins : (v c).pins = ⟨page, .marked⟩ ::ₘ m) (howns : (v c).fact = .nothing) :
    Consistent (s.setFlags page.frame (PAGE_FLAG_DIRTY ||| PAGE_FLAG_REF))
      (Function.update v c ⟨(v c).entry, ⟨page, .taken⟩ ::ₘ m, .nothing⟩) := by
  obtain ⟨hid, hf⟩ := hc.pin_located ⟨page, .marked⟩ (by rw [hpins]; simp)
  have ht := touches_setFlags s page.frame (PAGE_FLAG_DIRTY ||| PAGE_FLAG_REF)
  refine hc.pinMove ht hid hf ?_ rfl (Or.inl rfl) (Or.inl rfl) (by rw [howns]; rfl)
  refine hc.touchPage ht hid hf (hpins.trans (Multiset.singleton_add _ _).symm)
    (Multiset.singleton_add _ _).symm (by simp) (by simp) fun rest hok => ?_
  have hcount := hok.counted
  simp only [Multiset.singleton_add, Multiset.count_cons, setFlags, Function.update_self,
    Pin.mk.injEq, true_and, reduceCtorEq, if_true, if_false, add_zero] at hcount ⊢
  refine ⟨by simpa [add_right_comm, ← add_assoc] using hcount, ?_⟩
  -- the holder that took its mark back was the only one
  have hone := hcount.alone (by omega)
  have hzero : Multiset.count (⟨⟨page.id, page.frame⟩, .marked⟩ : Pin) rest = 0 := by omega
  simp [hzero, PAGE_FLAG_DIRTY, PAGE_FLAG_REF, PAGE_FLAG_EXCLUSIVE]

/-- `latch_release_read` and `latch_release_write` on a page. -/
theorem unpin (hc : Consistent s v) {m : Multiset Pin} {page : PageRef} (exclusive : Bool)
    (hpins : (v c).pins = ⟨page, if exclusive then .taken else .shared⟩ ::ₘ m)
    (howns : (v c).fact = .nothing)
    (hword : word = if exclusive then 0 else dropWord (s.latch page.frame)) :
    Consistent (s.setLatch page.frame word) (Function.update v c ⟨(v c).entry, m, .nothing⟩) := by
  have hmem : (⟨page, if exclusive then .taken else .shared⟩ : Pin) ∈ (v c).pins := by
    rw [hpins]
    simp
  obtain ⟨hid, hf⟩ := hc.pin_located _ hmem
  have ht := touches_setLatch s page.frame word
  refine hc.pinMove ht hid hf ?_ rfl (Or.inl rfl) (Or.inr fun d j => hc.not_quiet hmem d j)
    (by rw [howns]; rfl)
  refine hc.touchPage ht hid hf (hpins.trans (Multiset.singleton_add _ _).symm)
    (zero_add _).symm (by simp) (by simp) fun rest hok => ?_
  rw [zero_add]
  have hcount := hok.counted
  have hflag := hok.flag
  cases exclusive with
  | true =>
      simp only [Multiset.singleton_add, Multiset.count_cons, setLatch, Function.update_self,
        Pin.mk.injEq, true_and, reduceCtorEq, if_true, if_false, add_zero] at hcount hflag ⊢
      rw [add_right_comm] at hcount
      exact ⟨hword ▸ hcount.releaseWrite.2, hflag⟩
  | false =>
      simp only [Multiset.singleton_add, Multiset.count_cons, setLatch, Function.update_self,
        Pin.mk.injEq, true_and, reduceCtorEq, if_true, if_false, add_zero, Bool.false_eq_true]
        at hcount hflag ⊢
      exact ⟨hword ▸ hcount.releaseRead, hflag⟩

/-! ### Ring entries -/

omit [DecidableEq κ] in
/-- A frame with an owner is not the frame of any mapped page. -/
theorem not_located (hc : Consistent s v) {d : κ} (howns : (v d).fact.owns = some f)
    (hid : id ≠ 0) :
    s.locate id ≠ some f :=
  fun hf => hc.not_owns hid hf d howns

/-- The owner of a frame prepares its header. -/
theorem prepare (hc : Consistent s v) (ht : Touches s s' f) (howns : (v c).fact.owns = some f)
    (hentry : x.entry = (v c).entry) (hpins : x.pins = (v c).pins) (howns' : x.fact.owns = some f)
    (hG : x.fact.Guarded s x.entry) (hF : x.fact.Holds s') :
    Consistent s' (Function.update v c x) := by
  have hfree : ∀ d j, (v d).fact ≠ .quiet j f := by
    intro d j hq
    have hquiet := hc.facts.holds d
    rw [hq] at hquiet
    exact hc.not_located howns hquiet.1 hquiet.2.1
  refine ⟨hc.entries.congr ht.entryLatch hentry, ⟨fun pin hpin => ?_, fun j g hj hg => ?_⟩,
    hc.maps.congr ht.mask ht.entry ht.ringId, FactsOk.update ?_ ?_ ?_ hF ?_⟩
  · rw [total_update_eq (show View.pins x = View.pins (v c) from hpins)] at hpin
    rw [ht.locate]
    exact hc.pages.pinned pin hpin
  · rw [total_update_eq (show View.pins x = View.pins (v c) from hpins)]
    rw [ht.locate] at hg
    have hgf : g ≠ f := by
      rintro rfl
      exact hc.not_located howns hj hg
    rw [ht.latch g hgf, ht.flags g hgf]
    exact hc.pages.pages j g hj hg
  · exact fun d _ => Fact.guarded_congr ht.hash (hc.facts.guarded d)
  · intro d hd
    refine Fact.holds_touches ht (hc.facts.holds d) (Or.inr fun j => hfree d j) fun hown => ?_
    exact hd (hc.owner_unique hown howns)
  · exact Fact.guarded_congr ht.hash hG
  · intro g hg
    rw [ht.ringId] at hg ⊢
    rw [ht.locate]
    rcases hc.facts.ringed' c hg with hmap | hown | hother
    · exact Or.inl hmap
    · rw [howns] at hown
      exact Or.inr (Or.inl (howns'.trans hown))
    · exact Or.inr (Or.inr hother)

theorem MapsOk_setRingId (hm : MapsOk s) (hfree : ∀ j, j ≠ 0 → s.locate j ≠ some f) :
    MapsOk (s.setRingId f id) where
  distinct := hm.distinct
  hashed := hm.hashed
  mapped j g hj hg := by
    have hgf : g ≠ f := by
      rintro rfl
      exact hfree j hj hg
    exact (Function.update_of_ne hgf _ _).trans (hm.mapped j g hj hg)

/-- The exchange by which `pager_create` takes a ring entry. -/
theorem claim (hc : Consistent s v) (hfact : (v c).fact = .missing id) (hring : s.ringId f = 0) :
    Consistent (s.setRingId f id)
      (Function.update v c ⟨(v c).entry, (v c).pins, .owned id f⟩) := by
  have hmiss := hc.facts.holds c
  have hguard := hc.facts.guarded c
  rw [hfact] at hmiss hguard
  have hfree : ∀ j, j ≠ 0 → s.locate j ≠ some f := by
    intro j hj hf
    exact hj ((hc.maps.mapped j f hj hf).symm.trans hring)
  have hnoowner : ∀ d, (v d).fact.owns ≠ some f := by
    intro d hown
    obtain ⟨j, hj⟩ := Fact.owned_of_owns hown (hc.facts.holds d)
    exact hj.ne (hj.ring.symm.trans hring)
  refine ⟨hc.entries.congr rfl rfl, hc.pages.congr (fun _ => rfl) rfl rfl rfl,
    MapsOk_setRingId hc.maps hfree, FactsOk.update ?_ ?_ hguard ?_ ?_⟩
  · exact fun d _ => Fact.guarded_congr (fun _ => rfl) (hc.facts.guarded d)
  · exact fun d _ => Fact.holds_setRingId (hc.facts.holds d) (hnoowner d)
  · exact ⟨hmiss.1, hmiss.2, Function.update_self _ _ _⟩
  · intro g hg
    by_cases hgf : g = f
    · exact Or.inr (Or.inl (by rw [hgf]; rfl))
    · simp only [setRingId, Function.update_of_ne hgf] at hg ⊢
      rcases hc.facts.ringed' c hg with hmap | hown | hother
      · exact Or.inl hmap
      · rw [hfact] at hown
        cases hown
      · exact Or.inr (Or.inr hother)

/-- A ring entry is given back. -/
theorem giveBack (hc : Consistent s v) (howns : (v c).fact.owns = some f) :
    Consistent (s.setRingId f 0) (Function.update v c ⟨(v c).entry, (v c).pins, .nothing⟩) := by
  refine ⟨hc.entries.congr rfl rfl, hc.pages.congr (fun _ => rfl) rfl rfl rfl,
    MapsOk_setRingId hc.maps fun j hj => hc.not_located howns hj,
    FactsOk.update ?_ ?_ trivial trivial ?_⟩
  · exact fun d _ => Fact.guarded_congr (fun _ => rfl) (hc.facts.guarded d)
  · intro d hd
    exact Fact.holds_setRingId (hc.facts.holds d) fun hown => hd (hc.owner_unique hown howns)
  · intro g hg
    have hgf : g ≠ f := by
      rintro rfl
      exact hg (Function.update_self _ _ _)
    simp only [setRingId, Function.update_of_ne hgf] at hg ⊢
    rcases hc.facts.ringed' c hg with hmap | hown | hother
    · exact Or.inl hmap
    · rw [howns] at hown
      exact absurd (Option.some.inj hown).symm hgf
    · exact Or.inr (Or.inr hother)

/-! ### The directory -/

theorem total_pins (v : κ → View) (c : κ) (F : Fact) :
    total View.pins (Function.update v c ⟨(v c).entry, (v c).pins, F⟩) = total View.pins v :=
  total_update_eq rfl

/-- The facts of the others do not depend on a hash entry this client latched
exclusively. -/
theorem others_setEntry (hc : Consistent s v) {e : HashEntry}
    (hentry : (v c).entry = some (h, true))
    {d : κ} (hd : d ≠ c) : (v d).fact.Holds (s.setEntry h e) :=
  Fact.holds_setEntry (hc.facts.holds d) (hc.facts.guarded d) fun _ hw =>
    hd (hc.entry_alone hentry hw).symm

theorem insert (hc : Consistent s v) (hfact : (v c).fact = .fresh id f) :
    Consistent (s.setEntry (s.hash id) ((s.entry (s.hash id)).insert ⟨id, f⟩))
      (Function.update v c ⟨(v c).entry, (v c).pins, .found id f⟩) := by
  have hfresh := hc.facts.holds c
  have hguard := hc.facts.guarded c
  have howns : (v c).fact.owns = some f := by rw [hfact]; rfl
  rw [hfact] at hfresh hguard
  obtain ⟨⟨hid, hmiss, hring⟩, hflag, hlatch⟩ := hfresh
  set s' := s.setEntry (s.hash id) ((s.entry (s.hash id)).insert ⟨id, f⟩) with hs'
  have hself : s'.locate id = some f := by
    rw [hs', locate_setEntry_self _ _ _ _ rfl, HashEntry.slots_insert]
    exact HashEntry.find_fill_self (m := ⟨id, f⟩) hmiss
  have hother : ∀ j, j ≠ 0 → j ≠ id → s'.locate j = s.locate j := by
    intro j hj hne
    by_cases hh : s.hash j = s.hash id
    · rw [hs', locate_setEntry_self _ _ _ _ hh, HashEntry.slots_insert,
        HashEntry.find_fill_ne hne hj, locate, hh]
    · exact locate_setEntry_ne _ _ _ _ hh
  have hslots : ∀ g, g ≠ s.hash id → s'.entry g = s.entry g := fun g hg =>
    Function.update_of_ne hg _ _
  have hslot : (s'.entry (s.hash id)).slots
      = HashEntry.fill ⟨id, f⟩ (s.entry (s.hash id)).slots := by
    rw [← HashEntry.slots_insert]
    exact congrArg HashEntry.slots (Function.update_self _ _ _)
  have hpin : ∀ pin ∈ total View.pins v, pin.page.id ≠ id := by
    rintro pin hpin rfl
    have hf := (hc.pages.pinned pin hpin).2
    rw [hmiss] at hf
    cases hf
  refine ⟨hc.entries.congr rfl rfl, ⟨fun pin hmem => ?_, fun j g hj hg => ?_⟩,
    ⟨fun g => ?_, fun g m hmem hne => ?_, fun j g hj hg => ?_⟩,
    FactsOk.update ?_ ?_ ⟨true, hguard⟩ ⟨hid, hself⟩ ?_⟩
  · rw [total_pins] at hmem
    obtain ⟨hne, hf⟩ := hc.pages.pinned pin hmem
    exact ⟨hne, (hother _ hne (hpin pin hmem)).trans hf⟩
  · rw [total_pins]
    by_cases hji : j = id
    · subst hji
      obtain rfl := Option.some.inj (hself.symm.trans hg)
      have hzero : ∀ hold, (total View.pins v).count ⟨⟨j, f⟩, hold⟩ = 0 := fun hold =>
        Multiset.count_eq_zero.mpr fun hmem => hpin _ hmem rfl
      rw [hzero, hzero, hzero]
      exact ⟨hlatch.symm ▸ Counted.free, by simp [s', hflag]⟩
    · exact hc.pages.pages j g hj ((hother j hj hji).symm.trans hg)
  · by_cases hgh : g = s.hash id
    · subst hgh
      rw [hslot]
      exact (hc.maps.distinct _).fill hmiss
    · rw [hslots g hgh]
      exact hc.maps.distinct g
  · by_cases hgh : g = s.hash id
    · subst hgh
      rw [hslot] at hmem
      rcases HashEntry.mem_fill hmem with rfl | hmem
      · rfl
      · exact hc.maps.hashed _ m hmem hne
    · rw [hslots g hgh] at hmem
      exact hc.maps.hashed g m hmem hne
  · by_cases hji : j = id
    · subst hji
      obtain rfl := Option.some.inj (hself.symm.trans hg)
      exact hring
    · exact hc.maps.mapped j g hj ((hother j hj hji).symm.trans hg)
  · exact fun d _ => Fact.guarded_congr (fun _ => rfl) (hc.facts.guarded d)
  · exact fun d hd => hc.others_setEntry hguard hd
  · intro g hg
    rw [hs', ringId_setEntry] at hg ⊢
    rcases hc.facts.ringed' c hg with hmap | hown | hothers
    · left
      rw [← hs', hother _ hg, hmap]
      intro heq
      rw [heq, hmiss] at hmap
      cases hmap
    · left
      obtain rfl := Option.some.inj (howns.symm.trans hown)
      rw [hring]
      exact hself
    · exact Or.inr (Or.inr hothers)

theorem remove (hc : Consistent s v) (hfact : (v c).fact = .quiet id f) :
    Consistent (s.setEntry (s.hash id) ((s.entry (s.hash id)).remove id))
      (Function.update v c ⟨(v c).entry, (v c).pins, .owned id f⟩) := by
  have hquiet := hc.facts.holds c
  have hguard := hc.facts.guarded c
  have hnotquiet : ∀ pin ∈ total View.pins v, pin.page.id ≠ id := by
    rintro pin hmem rfl
    obtain ⟨d, hd⟩ := mem_total.mp hmem
    rw [hfact] at hquiet
    -- a pin of the page would contradict the free latch
    have hf := (hc.pin_located pin hd).2
    rw [hquiet.2.1] at hf
    refine hc.not_quiet hd c pin.page.id ?_
    rw [hfact, Option.some.inj hf]
  rw [hfact] at hquiet hguard
  obtain ⟨hid, hf, hlatch⟩ := hquiet
  set s' := s.setEntry (s.hash id) ((s.entry (s.hash id)).remove id) with hs'
  have hself : s'.locate id = none := by
    rw [hs', locate_setEntry_self _ _ _ _ rfl, HashEntry.slots_remove]
    exact HashEntry.find_removeBucket_self (hc.maps.distinct _) hid
  have hother : ∀ j, j ≠ 0 → j ≠ id → s'.locate j = s.locate j := by
    intro j hj hne
    by_cases hh : s.hash j = s.hash id
    · rw [hs', locate_setEntry_self _ _ _ _ hh, HashEntry.slots_remove,
        HashEntry.find_removeBucket_ne hne hj, locate, hh]
    · exact locate_setEntry_ne _ _ _ _ hh
  have hslots : ∀ g, g ≠ s.hash id → s'.entry g = s.entry g := fun g hg =>
    Function.update_of_ne hg _ _
  have hslot : (s'.entry (s.hash id)).slots
      = HashEntry.removeBucket id (s.entry (s.hash id)).slots := by
    rw [← HashEntry.slots_remove]
    exact congrArg HashEntry.slots (Function.update_self _ _ _)
  have hback : ∀ {j g}, s'.locate j = some g → j ≠ id := by
    rintro j g hg rfl
    rw [hself] at hg
    cases hg
  refine ⟨hc.entries.congr rfl rfl, ⟨fun pin hmem => ?_, fun j g hj hg => ?_⟩,
    ⟨fun g => ?_, fun g m hmem hne => ?_, fun j g hj hg => ?_⟩,
    FactsOk.update ?_ ?_ hguard ⟨hid, hself, hc.maps.mapped id f hid hf⟩ ?_⟩
  · rw [total_pins] at hmem
    obtain ⟨hne, hloc⟩ := hc.pages.pinned pin hmem
    exact ⟨hne, (hother _ hne (hnotquiet pin hmem)).trans hloc⟩
  · rw [total_pins]
    exact hc.pages.pages j g hj ((hother j hj (hback hg)).symm.trans hg)
  · by_cases hgh : g = s.hash id
    · subst hgh
      rw [hslot]
      exact (hc.maps.distinct _).removeBucket
    · rw [hslots g hgh]
      exact hc.maps.distinct g
  · by_cases hgh : g = s.hash id
    · subst hgh
      rw [hslot] at hmem
      exact hc.maps.hashed _ m ((HashEntry.mem_removeBucket hmem).resolve_left hne) hne
    · rw [hslots g hgh] at hmem
      exact hc.maps.hashed g m hmem hne
  · exact hc.maps.mapped j g hj ((hother j hj (hback hg)).symm.trans hg)
  · exact fun d _ => Fact.guarded_congr (fun _ => rfl) (hc.facts.guarded d)
  · exact fun d hd => hc.others_setEntry hguard hd
  · intro g hg
    rw [hs', ringId_setEntry] at hg ⊢
    -- a ring slot is mapped, owned by this client or by another
    rcases hc.facts.ringed' c hg with hmap | hown | hothers
    · by_cases hgi : s.ringId g = id
      · rw [hgi, hf] at hmap
        exact Or.inr (Or.inl (congrArg some (Option.some.inj hmap)))
      · left
        rw [← hs', hother _ hg hgi, hmap]
    · rw [hfact] at hown
      cases hown
    · exact Or.inr (Or.inr hothers)

end Consistent

end Wednesday
