import Mathlib.Tactic.Linarith
import Wednesday.PagerSteps

/-!
Creating a page: acquiring a ring entry, its header, and a slot of the
directory.
-/

namespace Wednesday

open Lib Prog

namespace Pager

/-- The frame `f` is given to the page `id`, and `entry` maps it. -/
def created (p : Pager) (id : PageId) (f createHead : Nat) (data : Mem) (entry : HashEntry) :
    Pager :=
  ((p.setRing f ⟨id, true, ⟨id, 0, 0, data⟩⟩).setCreateHead createHead).setEntry
    (pagerHash p.mask id) entry

/-- The page `id` got the frame `f`. -/
structure Creates (p p' : Pager) (id : PageId) (f : Nat) : Prop where
  ok : Ok 0 p'
  shape : SameShape p p'
  pageCount : p'.pageCount = p.pageCount
  nextPage : p'.nextPage = p.nextPage
  located : p'.locate id = some f
  latch : (p'.header f).latch = 0
  same : ∀ j, j ≠ 0 → j ≠ id → Same p p' j

variable {k : Nat} {p : Pager} {id : PageId} {f c : Nat} {data : Mem} {entry : HashEntry}

theorem directory_created : (p.created id f c data entry).directory =
    Function.update p.directory (pagerHash p.mask id) entry := rfl

theorem mask_created : (p.created id f c data entry).mask = p.mask := rfl

theorem locate_created_self (hnew : p.locate id = none)
    (hentry : entry.slots = HashEntry.fill ⟨id, f⟩ (p.directory (pagerHash p.mask id)).slots) :
    (p.created id f c data entry).locate id = some f := by
  simp only [locate, directory_created, mask_created, Function.update_self, hentry]
  exact HashEntry.find_fill_self (m := ⟨id, f⟩) hnew

theorem locate_created_ne {j : PageId} (hj : j ≠ id) (hj0 : j ≠ 0)
    (hentry : entry.slots = HashEntry.fill ⟨id, f⟩ (p.directory (pagerHash p.mask id)).slots) :
    (p.created id f c data entry).locate j = p.locate j := by
  simp only [locate, directory_created, mask_created, Function.update_apply]
  split
  · rename_i h
    rw [hentry, HashEntry.find_fill_ne (m := ⟨id, f⟩) hj hj0, h]
  · rfl

theorem ring_created : (p.created id f c data entry).ring =
    Function.update p.ring f ⟨id, true, ⟨id, 0, 0, data⟩⟩ := rfl

theorem header_created_ne {g : Nat} (hg : g ≠ f) :
    (p.created id f c data entry).header g = p.header g := by
  simp [header, ring_created, hg]

theorem header_created_self : (p.created id f c data entry).header f = ⟨id, 0, 0, data⟩ := by
  simp [header, ring_created]

theorem occupied_created (hf : f < p.size) (hfree : (p.ring f).pageId = 0) (hid : id ≠ 0) :
    (p.created id f c data entry).occupied.card = p.occupied.card + 1 := by
  have hmem : f ∉ p.occupied := by simp [occupied, hfree]
  have hset : (p.created id f c data entry).occupied = insert f p.occupied := by
    ext g
    simp only [occupied, Finset.mem_filter, Finset.mem_range, Finset.mem_insert, ring_created,
      Function.update_apply]
    change g < p.size ∧ _ ↔ _
    by_cases hg : g = f <;> simp [hg, hid, hf]
  rw [hset, Finset.card_insert_of_notMem hmem]

theorem Ok.creates (h : Ok 1 p) (hf : f < p.size) (hfree : (p.ring f).pageId = 0) (hid : id ≠ 0)
    (hnew : p.locate id = none)
    (hentry : entry.slots = HashEntry.fill ⟨id, f⟩ (p.directory (pagerHash p.mask id)).slots) :
    Creates p (p.created id f c data entry) id f where
  ok :=
    { sizePos := h.sizePos
      sizeLt := h.sizeLt
      distinct i := by
        simp only [directory_created, Function.update_apply]
        split
        · rw [hentry]
          exact (h.distinct _).fill hnew
        · exact h.distinct i
      hashed i m hm hne := by
        simp only [directory_created, Function.update_apply] at hm
        split at hm
        · rename_i hi
          rw [hentry] at hm
          rw [hi]
          rcases HashEntry.mem_fill hm with rfl | hm
          · rfl
          · exact h.hashed _ m hm hne
        · exact h.hashed i m hm hne
      mapped j g hj hg := by
        rw [ring_created]
        by_cases hji : j = id
        · subst hji
          obtain rfl := Option.some.inj ((locate_created_self hnew hentry).symm.trans hg)
          exact ⟨hf, by simp, by simp⟩
        · rw [locate_created_ne hji hj hentry] at hg
          obtain ⟨hlt, hpage, halloc⟩ := h.mapped j g hj hg
          have hgf : g ≠ f := by
            rintro rfl
            exact hj (hpage.symm.trans hfree)
          rw [Function.update_of_ne hgf]
          exact ⟨hlt, hpage, halloc⟩
      located g hg hgne := by
        rw [ring_created] at hgne ⊢
        by_cases hgf : g = f
        · subst hgf
          rw [Function.update_self]
          exact locate_created_self hnew hentry
        · rw [Function.update_of_ne hgf] at hgne ⊢
          have hloc := h.located g hg hgne
          rw [locate_created_ne _ hgne hentry, hloc]
          intro heq
          rw [heq, hnew] at hloc
          simp at hloc
      latched g hg hgne := by
        by_cases hgf : g = f
        · subst hgf
          rw [header_created_self]
          exact ⟨by simp, by simp, by simp⟩
        · rw [header_created_ne hgf]
          rw [ring_created, Function.update_of_ne hgf] at hgne
          exact h.latched g hg hgne
      named g hg hgne := by
        by_cases hgf : g = f
        · subst hgf
          rw [header_created_self, ring_created, Function.update_self]
        · rw [header_created_ne hgf]
          rw [ring_created, Function.update_of_ne hgf] at hgne ⊢
          exact h.named g hg hgne
      reserved := by
        have hcard : (p.created id f c data entry).occupied.card = p.occupied.card + 1 :=
          occupied_created hf hfree hid
        have hres := h.reserved
        change _ = p.pageCount
        omega
      capacity := h.capacity }
  shape := ⟨rfl, rfl, rfl⟩
  pageCount := rfl
  nextPage := rfl
  located := locate_created_self hnew hentry
  latch := by rw [header_created_self]
  same j hj hji := by
    refine ⟨locate_created_ne hji hj hentry, fun g hg => ?_⟩
    have hgf : g ≠ f := by
      rintro rfl
      exact hj ((h.mapped j g hj hg).2.1.symm.trans hfree)
    rw [header_created_ne hgf]
    exact ⟨rfl, rfl⟩

/-- A reserved entry is free. -/
theorem Ok.exists_free (h : Ok 1 p) : ∃ f < p.size, (p.ring f).pageId = 0 := by
  by_contra hnone
  push Not at hnone
  have hall : p.occupied = Finset.range p.size := by
    rw [occupied, Finset.filter_true_of_mem]
    intro f hf
    exact hnone f (Finset.mem_range.mp hf)
  have hres := h.reserved
  have hcap := h.capacity
  rw [hall, Finset.card_range] at hres
  omega

/-- An entry that is not in use may be changed. -/
theorem Ok.setFree (h : Ok k p) (hfree : (p.ring f).pageId = 0) (entry : RingEntry)
    (hentry : entry.pageId = 0) (c : Nat) :
    Scanned k p ((p.setRing f entry).setCreateHead c) where
  ok :=
    { sizePos := h.sizePos
      sizeLt := h.sizeLt
      distinct := h.distinct
      hashed := h.hashed
      mapped j g hj hg := by
        obtain ⟨hlt, hpage, halloc⟩ := h.mapped j g hj hg
        have hgf : g ≠ f := by
          rintro rfl
          exact hj (hpage.symm.trans hfree)
        simp only [ring_setCreateHead, ring_setRing, Function.update_of_ne hgf]
        exact ⟨hlt, hpage, halloc⟩
      located g hg hgne := by
        simp only [ring_setCreateHead, ring_setRing] at hgne ⊢
        by_cases hgf : g = f
        · simp [hgf, hentry] at hgne
        · rw [Function.update_of_ne hgf] at hgne ⊢
          exact h.located g hg hgne
      latched g hg hgne := by
        simp only [ring_setCreateHead, ring_setRing] at hgne
        by_cases hgf : g = f
        · simp [hgf, hentry] at hgne
        · rw [Function.update_of_ne hgf] at hgne
          have := h.latched g hg hgne
          simpa [header, Function.update_of_ne hgf] using this
      named g hg hgne := by
        simp only [ring_setCreateHead, ring_setRing] at hgne ⊢
        by_cases hgf : g = f
        · simp [hgf, hentry] at hgne
        · rw [Function.update_of_ne hgf] at hgne ⊢
          have := h.named g hg hgne
          simpa [header, Function.update_of_ne hgf] using this
      reserved := by
        have hset : ((p.setRing f entry).setCreateHead c).occupied = p.occupied := by
          ext g
          simp only [occupied, Finset.mem_filter, ring_setCreateHead, ring_setRing,
            size_setCreateHead, size_setRing, Function.update_apply]
          by_cases hg : g = f <;> simp [hg, hentry, hfree]
        rw [hset]
        exact h.reserved
      capacity := h.capacity }
  shape := ⟨rfl, rfl, rfl⟩
  pageCount := rfl
  nextPage := rfl
  same j hj := by
    refine ⟨rfl, fun g hg => ?_⟩
    have hgf : g ≠ f := by
      rintro rfl
      exact hj ((h.mapped j g hj hg).2.1.symm.trans hfree)
    simp [header, Function.update_of_ne hgf]

end Pager

open Pager

/-- The loop ends with a free entry, or has passed the whole ring. -/
theorem acquireRingEntry_cases (id : PageId) (n : Nat) (s : Sys) (hsize : 0 < s.pager.size) :
    (∃ f c, acquireRingEntry id n s = .success f { s with
        pager := (s.pager.setRingId f id).setCreateHead c } ∧
      f < s.pager.size ∧ (s.pager.ring f).pageId = 0) ∨
    acquireRingEntry id n s = .fault .hang := by
  induction n generalizing s with
  | zero => exact Or.inr rfl
  | succ n ih =>
      have hne : s.pager.size ≠ 0 := by omega
      by_cases hfree : (s.pager.ring (s.pager.createHead % s.pager.size)).pageId = 0
      · refine Or.inl ⟨s.pager.createHead % s.pager.size, (s.pager.createHead + 1) % 2 ^ 32, ?_,
          Nat.mod_lt _ hsize, hfree⟩
        simp [acquireRingEntry, nextCreateIndex, hne, hfree, setRingId, setRing, setCreateHead]
      · have hrun : acquireRingEntry id (n + 1) s = acquireRingEntry id n { s with
            pager := { s.pager with createHead := (s.pager.createHead + 1) % 2 ^ 32 } } := by
          simp [acquireRingEntry, nextCreateIndex, hne, hfree]
        rw [hrun]
        exact ih _ hsize

/-- A search without result has seen every index after the first. -/
theorem acquireRingEntry_hang {id : PageId} {n : Nat} {s : Sys} {r : Fault}
    (hsize : 0 < s.pager.size) (h : acquireRingEntry id n s = .fault r) {i : Nat} (hi : i < n)
    (hpos : 0 < i) :
    (s.pager.ring ((s.pager.createHead + i) % 2 ^ 32 % s.pager.size)).pageId ≠ 0 := by
  induction n generalizing s i with
  | zero => omega
  | succ n ih =>
      have hne : s.pager.size ≠ 0 := by omega
      by_cases hfree : (s.pager.ring (s.pager.createHead % s.pager.size)).pageId = 0
      · simp [acquireRingEntry, nextCreateIndex, hne, hfree] at h
      · have hrun : acquireRingEntry id (n + 1) s = acquireRingEntry id n { s with
            pager := { s.pager with createHead := (s.pager.createHead + 1) % 2 ^ 32 } } := by
          simp [acquireRingEntry, nextCreateIndex, hne, hfree]
        rw [hrun] at h
        rcases Nat.lt_or_ge 1 i with hlt | hge
        · have hsee := ih (s := { s with
            pager := { s.pager with createHead := (s.pager.createHead + 1) % 2 ^ 32 } })
            hsize h (i := i - 1) (by omega) (by omega)
          have heq : ((s.pager.createHead + 1) % 2 ^ 32 + (i - 1)) % 2 ^ 32 =
              (s.pager.createHead + i) % 2 ^ 32 := by omega
          rw [← heq]
          exact hsee
        · obtain rfl : i = 1 := by omega
          cases n with
          | zero => omega
          | succ n =>
              intro hzero
              norm_num only at hzero
              simp [acquireRingEntry, nextCreateIndex, hne, hzero] at h

/-- Twice around the ring passes every entry, also when the counter wraps. -/
theorem exists_visit {size c g : Nat} (hg : g < size) (hsize : size < 2 ^ 32) :
    ∃ i, 0 < i ∧ i < 2 * size + 1 ∧ (c + i) % 2 ^ 32 % size = g := by
  by_cases hwrap : c % 2 ^ 32 + size < 2 ^ 32
  · have hpos : 0 < size := by omega
    have hr := Nat.mod_lt (c % 2 ^ 32 + 1) hpos
    have hi := Nat.mod_lt (g + size - (c % 2 ^ 32 + 1) % size) hpos
    refine ⟨(g + size - (c % 2 ^ 32 + 1) % size) % size + 1, by omega, by omega, ?_⟩
    have hmod : (c + ((g + size - (c % 2 ^ 32 + 1) % size) % size + 1)) % 2 ^ 32 =
        c % 2 ^ 32 + 1 + (g + size - (c % 2 ^ 32 + 1) % size) % size := by omega
    rw [hmod, Nat.add_mod_mod, ← Nat.mod_add_mod]
    rw [show (c % 2 ^ 32 + 1) % size + (g + size - (c % 2 ^ 32 + 1) % size) = g + size by omega,
      Nat.add_mod_right, Nat.mod_eq_of_lt hg]
  · refine ⟨2 ^ 32 - c % 2 ^ 32 + g, by omega, by omega, ?_⟩
    have hmod : (c + (2 ^ 32 - c % 2 ^ 32 + g)) % 2 ^ 32 = g := by omega
    rw [hmod, Nat.mod_eq_of_lt hg]

theorem acquireRingEntry_ne_fault {id : PageId} {s : Sys} (h : Ok 1 s.pager) (r : Fault) :
    acquireRingEntry id (2 * s.pager.size + 1) s ≠ .fault r := by
  intro hfault
  obtain ⟨g, hg, hfree⟩ := h.exists_free
  obtain ⟨i, hpos, hi, hvisit⟩ := exists_visit (c := s.pager.createHead) hg h.sizeLt
  have := acquireRingEntry_hang h.sizePos hfault hi hpos
  rw [hvisit] at this
  exact this hfree

theorem tryAlloc_cases (site : Site) (ptr size : String) (bytes : Nat) (s : Sys) :
    tryAlloc site ptr size bytes s = .success s.heap.mallocs
      { s with heap := s.heap.count } ∨
    ∃ e, tryAlloc site ptr size bytes s = .failure
      { s with heap := s.heap.count, err := e } ∧ e.code ≠ 0 := by
  by_cases hrefuse : s.heap.refuse s.heap.mallocs
  · obtain ⟨e, he, hcode⟩ := failure_apply (α := Nat) site (show ENOMEM ≠ 0 by decide)
      ["no memory for: " ++ ptr, ", '" ++ size ++ "' = " ++ toString bytes]
      { s with heap := s.heap.count }
    refine Or.inr ⟨e, ?_, by rw [hcode]; decide⟩
    rw [← he]
    simp [tryAlloc, malloc, hrefuse]
  · exact Or.inl (by simp [tryAlloc, malloc, hrefuse])

/-- What `pager_directory_insert` does to a free slot or a new bucket. -/
theorem pagerDirectoryInsert_cases (h : Nat) (m : Mapping) (s : Sys) :
    (∃ entry heap, pagerDirectoryInsert h m s = .success () { s with
        pager := s.pager.setEntry h entry, heap := heap } ∧
      entry.slots = HashEntry.fill m (s.pager.directory h).slots) ∨
    (∃ e heap, pagerDirectoryInsert h m s = .failure { s with err := e, heap := heap } ∧
      e.code ≠ 0) := by
  by_cases hfirst : (s.pager.directory h).first.pageId = 0
  · refine Or.inl ⟨{ s.pager.directory h with first := m }, s.heap, ?_, ?_⟩
    · simp [pagerDirectoryInsert, hfirst]
    · simp [HashEntry.slots, HashEntry.fill, hfirst]
  by_cases hsecond : (s.pager.directory h).second.pageId = 0
  · refine Or.inl ⟨{ s.pager.directory h with second := m }, s.heap, ?_, ?_⟩
    · simp [pagerDirectoryInsert, hfirst, hsecond]
    · simp [HashEntry.slots, HashEntry.fill, hfirst, hsecond]
  cases hfill : HashEntry.fillBucket m (s.pager.directory h).overflow with
  | some buckets =>
      refine Or.inl ⟨{ s.pager.directory h with overflow := buckets }, s.heap, ?_, ?_⟩
      · simp [pagerDirectoryInsert, hfirst, hsecond, hfill]
      · simp [HashEntry.slots, HashEntry.fill, hfirst, hsecond,
          HashEntry.fill_of_fillBucket hfill]
  | none =>
      have hslots : ({ s.pager.directory h with
          overflow := (s.pager.directory h).overflow ++ [m] } : HashEntry).slots =
          HashEntry.fill m (s.pager.directory h).slots := by
        simp [HashEntry.slots, HashEntry.fill, hfirst, hsecond, HashEntry.fill_of_full hfill]
      by_cases hempty : (s.pager.directory h).overflow = []
      · rcases tryAlloc_cases ⟨"src/pager.c", "pager_directory_insert", 206⟩
          "hash_entry->overflow" "sizeof(bucket_t)" 24 s with ha | ⟨e, ha, hcode⟩
        · refine Or.inl ⟨_, s.heap.count, ?_, hslots⟩
          simp [pagerDirectoryInsert, hfirst, hsecond, hempty, HashEntry.fillBucket, ha]
        · refine Or.inr ⟨e, s.heap.count, ?_, hcode⟩
          simp [pagerDirectoryInsert, hfirst, hsecond, hempty, HashEntry.fillBucket, ha]
      · rcases tryAlloc_cases ⟨"src/pager.c", "pager_directory_insert", 218⟩ "bucket->next"
          "sizeof(bucket_t)" 24 s with ha | ⟨e, ha, hcode⟩
        · refine Or.inl ⟨_, s.heap.count, ?_, hslots⟩
          simp [pagerDirectoryInsert, hfirst, hsecond, hfill, hempty, ha]
        · refine Or.inr ⟨e, s.heap.count, ?_, hcode⟩
          simp [pagerDirectoryInsert, hfirst, hsecond, hfill, hempty, ha]

theorem handleForward_success {α : Type} {site : Site} {text : String} {call : Call α}
    {body : Call Unit} {s s' : Sys} {a : α} (h : call s = .success a s') :
    handleForward site text call body s = .success a s' :=
  recover_success h

theorem handleForward_failure {α : Type} (site : Site) (text : String) {call : Call α}
    {body : Call Unit} {s s' t : Sys} (h : call s = .failure s') (hbody : body s' = .success () t)
    (hcode : t.err.code ≠ 0) :
    ∃ e, handleForward site text call body s = .failure { t with err := e } ∧
      e.code = t.err.code := by
  obtain ⟨e, he, hec⟩ := failure_apply (α := α) site hcode ["handler for: " ++ text] t
  refine ⟨e, ?_, hec⟩
  rw [handleForward, recover_failure h]
  simpa [hbody, errorGetCode] using he

theorem handleForward_fault {α : Type} {site : Site} {text : String} {call : Call α}
    {body : Call Unit} {s : Sys} {r : Fault} (h : call s = .fault r) :
    handleForward site text call body s = .fault r :=
  recover_fault h

/-- The ring entry has a header afterwards, or is released again. -/
theorem allocateHeader_cases (f : Nat) (s : Sys) :
    (∃ header heap, allocateHeader f s = .success () { s with
        pager := s.pager.setRing f ⟨(s.pager.ring f).pageId, true, header⟩, heap := heap }) ∨
    (∃ e heap, allocateHeader f s = .failure { s with
        pager := s.pager.setRingId f 0, err := e, heap := heap } ∧ e.code ≠ 0) := by
  by_cases halloc : (s.pager.ring f).allocated = true
  · refine Or.inl ⟨(s.pager.ring f).header, s.heap, ?_⟩
    have hring : s.pager.setRing f ⟨(s.pager.ring f).pageId, true, (s.pager.ring f).header⟩ =
        s.pager := by
      rw [← halloc]
      simp [setRing]
    rw [hring]
    simp [allocateHeader, halloc]
  by_cases hrefuse : s.heap.refuse s.heap.mallocs
  · obtain ⟨e, he, hcode⟩ := failure_apply (α := Unit) ⟨"src/pager.c", "pager_create", 269⟩
      (show ENOMEM ≠ 0 by decide) ["failed to allocate memory for page"]
      { s with pager := s.pager.setRingId f 0, heap := s.heap.count }
    refine Or.inr ⟨e, s.heap.count, ?_, by rw [hcode]; decide⟩
    rw [← he]
    simp [allocateHeader, halloc, malloc, hrefuse]
  · refine Or.inl ⟨⟨0, 0, 0, s.heap.count.garbage s.heap.mallocs⟩, s.heap.count, ?_⟩
    simp [allocateHeader, halloc, malloc, hrefuse]

theorem pagerCreate_cases (id : PageId) (s : Sys) (h : Ok 1 s.pager) (hid : id ≠ 0)
    (hnew : s.pager.locate id = none) :
    (∃ f p heap, pagerCreate (pagerHash s.pager.mask id) id s =
        .success f { s with pager := p, heap := heap } ∧ Creates s.pager p id f) ∨
    (∃ p e heap, pagerCreate (pagerHash s.pager.mask id) id s =
        .failure { s with pager := p, err := e, heap := heap } ∧ e.code ≠ 0 ∧
        Scanned 1 s.pager p) := by
  rcases acquireRingEntry_cases id (2 * s.pager.size + 1) s h.sizePos with
    ⟨f, c, hacquire, hf, hfree⟩ | hacquire
  swap
  · exact absurd hacquire (acquireRingEntry_ne_fault h _)
  rcases allocateHeader_cases f { s with
      pager := (s.pager.setRingId f id).setCreateHead c } with
    ⟨header, heap, halloc⟩ | ⟨e, heap, halloc, hcode⟩
  swap
  · -- the entry is released before the failure is reported
    refine Or.inr ⟨_, e, heap, ?_, hcode,
      h.setFree hfree { s.pager.ring f with pageId := 0 } rfl c⟩
    simp only [pagerCreate, bind_apply, getPager_apply, Outcome.bind_success, hacquire, halloc,
      Outcome.bind_failure]
    simp [setRingId, setRing, setCreateHead]
  have hrun : pagerCreate (pagerHash s.pager.mask id) id s =
      (handleForward ⟨"src/pager.c", "pager_create", 278⟩
        "pager_directory_insert(hash_entry, ring_entry->header)"
        (pagerDirectoryInsert (pagerHash s.pager.mask id) ⟨id, f⟩)
        (modifyPager fun p => p.setRingId f 0) >>= fun _ => pure f) { s with
          pager := (s.pager.setRing f ⟨id, true, ⟨id, 0, 0, header.data⟩⟩).setCreateHead c,
          heap := heap } := by
    simp only [pagerCreate, bind_apply, getPager_apply, Outcome.bind_success, hacquire, halloc,
      modifyPager_apply]
    simp [setHeader, setRingId, setRing, setCreateHead, Pager.header]
  rw [hrun]
  rcases pagerDirectoryInsert_cases (pagerHash s.pager.mask id) ⟨id, f⟩ { s with
      pager := (s.pager.setRing f ⟨id, true, ⟨id, 0, 0, header.data⟩⟩).setCreateHead c,
      heap := heap } with
    ⟨entry, heap', hinsert, hslots⟩ | ⟨e, heap', hinsert, hcode⟩
  · refine Or.inl ⟨f, s.pager.created id f c header.data entry, heap', ?_,
      h.creates hf hfree hid hnew hslots⟩
    rw [bind_apply, handleForward_success hinsert]
    rfl
  · obtain ⟨e', hfail, hcode'⟩ := handleForward_failure
      ⟨"src/pager.c", "pager_create", 278⟩
      "pager_directory_insert(hash_entry, ring_entry->header)" hinsert
      (modifyPager_apply (fun p => p.setRingId f 0) _) hcode
    refine Or.inr ⟨_, e', heap', ?_, by rw [hcode']; exact hcode,
      h.setFree hfree ⟨0, true, ⟨id, 0, 0, header.data⟩⟩ rfl c⟩
    rw [bind_apply, hfail]
    simp [setRingId, setRing, setCreateHead]

end Wednesday
