import Wednesday.PagerThreads

/-!
What a client of the pager holds and knows, apart from the point it is at: the
hash entry it latched, the page latches it holds, and one fact about the page
its call is for. The clients' views and the shared memory are consistent, and
every move of the protocol keeps them so.
-/

namespace Wednesday

open Lib

/-- A page latch in hand: shared, exclusive, or exclusive with the flag set. -/
inductive Hold where
  | shared
  | taken
  | marked
  deriving DecidableEq

structure Pin where
  page : PageRef
  hold : Hold
  deriving DecidableEq

/-- What a client knows under the latch of a hash entry. -/
inductive Fact where
  | nothing
  | found (id : PageId) (f : Nat)
  | quiet (id : PageId) (f : Nat)
  | missing (id : PageId)
  | owned (id : PageId) (f : Nat)
  | cleared (id : PageId) (f : Nat)
  | fresh (id : PageId) (f : Nat)

structure View where
  entry : Option (Nat × Bool)
  pins : Multiset Pin
  fact : Fact

namespace SharedPager

/-- The frame the directory maps the id to. -/
def locate (s : SharedPager) (id : PageId) : Option Nat :=
  HashEntry.find id (s.entry (s.hash id)).slots

variable (s : SharedPager) (f g h flags count : Nat) (w : Int) (id j : PageId) (e : HashEntry)

@[simp] theorem locate_setLatch : (s.setLatch f w).locate id = s.locate id := rfl
@[simp] theorem locate_setFlags : (s.setFlags f flags).locate id = s.locate id := rfl
@[simp] theorem locate_setRingId : (s.setRingId f j).locate id = s.locate id := rfl
@[simp] theorem locate_setAllocated : (s.setAllocated f).locate id = s.locate id := rfl
@[simp] theorem locate_setEntryLatch : (s.setEntryLatch h w).locate id = s.locate id := rfl
@[simp] theorem hash_setEntry : (s.setEntry h e).hash id = s.hash id := rfl
@[simp] theorem ringId_setEntry : (s.setEntry h e).ringId = s.ringId := rfl
@[simp] theorem latch_setEntry : (s.setEntry h e).latch = s.latch := rfl
@[simp] theorem flags_setEntry : (s.setEntry h e).flags = s.flags := rfl

theorem locate_setEntry_ne (hne : s.hash id ≠ h) : (s.setEntry h e).locate id = s.locate id := by
  rw [hash] at hne
  simp [locate, setEntry, hash, Function.update_of_ne hne]

theorem locate_setEntry_self (heq : s.hash id = h) :
    (s.setEntry h e).locate id = HashEntry.find id e.slots := by
  subst heq
  simp [locate, setEntry, hash]

/-- Only the header of the frame changes: its latch or its flags. -/
structure Touches (s s' : SharedPager) (f : Nat) : Prop where
  mask : s'.mask = s.mask
  entryLatch : s'.entryLatch = s.entryLatch
  entry : s'.entry = s.entry
  ringId : s'.ringId = s.ringId
  latch : ∀ g, g ≠ f → s'.latch g = s.latch g
  flags : ∀ g, g ≠ f → s'.flags g = s.flags g

theorem touches_setLatch : Touches s (s.setLatch f w) f :=
  ⟨rfl, rfl, rfl, rfl, fun _ hg => Function.update_of_ne hg _ _, fun _ _ => rfl⟩

theorem touches_setFlags : Touches s (s.setFlags f flags) f :=
  ⟨rfl, rfl, rfl, rfl, fun _ _ => rfl, fun _ hg => Function.update_of_ne hg _ _⟩

theorem Touches.hash {s s' : SharedPager} {f : Nat} (ht : Touches s s' f) (id : PageId) :
    s'.hash id = s.hash id := by
  rw [SharedPager.hash, SharedPager.hash, ht.mask]

theorem Touches.locate {s s' : SharedPager} {f : Nat} (ht : Touches s s' f) (id : PageId) :
    s'.locate id = s.locate id := by
  rw [SharedPager.locate, SharedPager.locate, ht.entry, ht.hash]

end SharedPager

open SharedPager

namespace Fact

/-- The frame the client keeps others from using. -/
def owns : Fact → Option Nat
  | .owned _ f | .cleared _ f | .fresh _ f => some f
  | _ => none

/-- A fact is about a page whose hash entry is latched, exclusively unless the
fact is just that the page was found. -/
def Guarded (s : SharedPager) (entry : Option (Nat × Bool)) : Fact → Prop
  | .nothing => True
  | .found id _ => ∃ w, entry = some (s.hash id, w)
  | .quiet id _ | .missing id | .owned id _ | .cleared id _ | .fresh id _ =>
      entry = some (s.hash id, true)

/-- The client is filling the ring entry for a page the directory misses. -/
structure Owned (s : SharedPager) (id : PageId) (f : Nat) : Prop where
  ne : id ≠ 0
  miss : s.locate id = none
  ring : s.ringId f = id

def Holds (s : SharedPager) : Fact → Prop
  | .nothing => True
  | .found id f => id ≠ 0 ∧ s.locate id = some f
  | .quiet id f => id ≠ 0 ∧ s.locate id = some f ∧ s.latch f = 0
  | .missing id => id ≠ 0 ∧ s.locate id = none
  | .owned id f => Owned s id f
  | .cleared id f => Owned s id f ∧ s.flags f &&& PAGE_FLAG_EXCLUSIVE = 0
  | .fresh id f => Owned s id f ∧ s.flags f &&& PAGE_FLAG_EXCLUSIVE = 0 ∧ s.latch f = 0

variable {s : SharedPager} {F : Fact} {f : Nat}

/-- An owner knows the page, and that its frame is not mapped. -/
theorem owned_of_owns (h : F.owns = some f) (hF : F.Holds s) : ∃ id, Owned s id f := by
  cases F with
  | owned id g => exact ⟨id, by cases h; exact hF⟩
  | cleared id g => exact ⟨id, by cases h; exact hF.1⟩
  | fresh id g => exact ⟨id, by cases h; exact hF.1⟩
  | _ => cases h

theorem entry_of_owns {entry : Option (Nat × Bool)} (h : F.owns = some f)
    (hG : F.Guarded s entry) (hF : F.Holds s) : entry = some (s.hash (s.ringId f), true) := by
  cases F with
  | owned id g =>
      cases h
      rw [hF.ring]
      exact hG
  | cleared id g =>
      cases h
      rw [hF.1.ring]
      exact hG
  | fresh id g =>
      cases h
      rw [hF.1.ring]
      exact hG
  | _ => cases h

theorem guarded_congr {s' : SharedPager} {entry : Option (Nat × Bool)}
    (hhash : ∀ id, s'.hash id = s.hash id) (hG : F.Guarded s entry) : F.Guarded s' entry := by
  cases F with
  | nothing => trivial
  | found id g =>
      rw [Guarded, hhash]
      exact hG
  | _ =>
      rw [Guarded, hhash]
      exact hG

theorem Owned.touches {s' : SharedPager} {id : PageId} {g : Nat} (ht : Touches s s' f)
    (hF : Owned s id g) : Owned s' id g :=
  ⟨hF.ne, (ht.locate id).trans hF.miss, (congrFun ht.ringId g).trans hF.ring⟩

theorem holds_touches {s' : SharedPager} (ht : Touches s s' f) (hF : F.Holds s)
    (hquiet : s'.latch f = s.latch f ∨ ∀ id, F ≠ .quiet id f) (howns : F.owns ≠ some f) :
    F.Holds s' := by
  have hg : ∀ g, F.owns = some g → g ≠ f := by
    rintro g hg rfl
    exact howns hg
  cases F with
  | nothing => trivial
  | found id g => exact ⟨hF.1, (ht.locate id).trans hF.2⟩
  | quiet id g =>
      refine ⟨hF.1, (ht.locate id).trans hF.2.1, ?_⟩
      rw [← hF.2.2]
      by_cases hgf : g = f
      · subst hgf
        exact hquiet.resolve_right fun h => h id rfl
      · exact ht.latch g hgf
  | missing id => exact ⟨hF.1, (ht.locate id).trans hF.2⟩
  | owned id g => exact hF.touches ht
  | cleared id g => exact ⟨hF.1.touches ht, (ht.flags g (hg g rfl)) ▸ hF.2⟩
  | fresh id g =>
      exact ⟨hF.1.touches ht, (ht.flags g (hg g rfl)) ▸ hF.2.1,
        (ht.latch g (hg g rfl)).trans hF.2.2⟩

theorem Owned.setRingId {id j : PageId} {g : Nat} (hF : Owned s id g) (hg : g ≠ f) :
    Owned (s.setRingId f j) id g :=
  ⟨hF.ne, hF.miss, (Function.update_of_ne hg _ _).trans hF.ring⟩

theorem holds_setRingId {j : PageId} (hF : F.Holds s) (howns : F.owns ≠ some f) :
    F.Holds (s.setRingId f j) := by
  have hg : ∀ g, F.owns = some g → g ≠ f := by
    rintro g hg rfl
    exact howns hg
  cases F with
  | owned id g => exact hF.setRingId (hg g rfl)
  | cleared id g => exact ⟨hF.1.setRingId (hg g rfl), hF.2⟩
  | fresh id g => exact ⟨hF.1.setRingId (hg g rfl), hF.2⟩
  | _ => exact hF

/-- Another hash entry changed. -/
theorem holds_setEntry {h : Nat} {e : HashEntry} {entry : Option (Nat × Bool)}
    (hF : F.Holds s) (hG : F.Guarded s entry) (hne : ∀ w, entry ≠ some (h, w)) :
    F.Holds (s.setEntry h e) := by
  cases F with
  | nothing => trivial
  | found id g =>
      obtain ⟨w, hw⟩ := hG
      have hid : s.hash id ≠ h := fun heq => hne w (heq ▸ hw)
      exact ⟨hF.1, (locate_setEntry_ne _ _ _ _ hid).trans hF.2⟩
  | quiet id g =>
      have hid : s.hash id ≠ h := fun heq => hne true (heq ▸ hG)
      exact ⟨hF.1, (locate_setEntry_ne _ _ _ _ hid).trans hF.2.1, hF.2.2⟩
  | missing id =>
      have hid : s.hash id ≠ h := fun heq => hne true (heq ▸ hG)
      exact ⟨hF.1, (locate_setEntry_ne _ _ _ _ hid).trans hF.2⟩
  | owned id g =>
      have hid : s.hash id ≠ h := fun heq => hne true (heq ▸ hG)
      exact ⟨hF.ne, (locate_setEntry_ne _ _ _ _ hid).trans hF.miss, hF.ring⟩
  | cleared id g =>
      have hid : s.hash id ≠ h := fun heq => hne true (heq ▸ hG)
      exact ⟨⟨hF.1.ne, (locate_setEntry_ne _ _ _ _ hid).trans hF.1.miss, hF.1.ring⟩, hF.2⟩
  | fresh id g =>
      have hid : s.hash id ≠ h := fun heq => hne true (heq ▸ hG)
      exact ⟨⟨hF.1.ne, (locate_setEntry_ne _ _ _ _ hid).trans hF.1.miss, hF.1.ring⟩, hF.2⟩

end Fact

namespace View

/-- The hash-entry latches in hand: at most one. -/
def entries (v : View) : Multiset (Nat × Bool) := v.entry.elim 0 ({·})

@[simp] theorem entries_some (e : Nat × Bool) (pins : Multiset Pin) (F : Fact) :
    entries ⟨some e, pins, F⟩ = {e} := rfl

@[simp] theorem entries_none (pins : Multiset Pin) (F : Fact) : entries ⟨none, pins, F⟩ = 0 := rfl

theorem mem_entries {v : View} {e : Nat × Bool} : e ∈ v.entries ↔ v.entry = some e := by
  rw [entries]
  cases hv : v.entry with
  | none => simp
  | some e' => simp [eq_comm]

end View

/-- The latch and the flag of a page agree with those who hold it. -/
structure PageOk (word : Int) (flags shared taken marked : Nat) : Prop where
  counted : Counted word shared (taken + marked)
  flag : flags &&& PAGE_FLAG_EXCLUSIVE ≠ 0 ↔ marked ≠ 0

variable {κ : Type} [Fintype κ]

/-- The latches of the hash entries agree with those who hold them. -/
def EntriesOk (s : SharedPager) (v : κ → View) : Prop :=
  ∀ h, Counted (s.entryLatch h) ((total View.entries v).count (h, false))
    ((total View.entries v).count (h, true))

/-- The pins are on mapped pages, whose latches agree with them. -/
structure PagesOk (s : SharedPager) (v : κ → View) : Prop where
  pinned : ∀ pin ∈ total View.pins v, pin.page.id ≠ 0 ∧ s.locate pin.page.id = some pin.page.frame
  pages : ∀ id f, id ≠ 0 → s.locate id = some f →
    PageOk (s.latch f) (s.flags f) ((total View.pins v).count ⟨⟨id, f⟩, .shared⟩)
      ((total View.pins v).count ⟨⟨id, f⟩, .taken⟩) ((total View.pins v).count ⟨⟨id, f⟩, .marked⟩)

/-- The directory maps a page once, in the entry of its hash, to a ring entry
that carries its id. -/
structure MapsOk (s : SharedPager) : Prop where
  distinct : ∀ h, HashEntry.Distinct (s.entry h).slots
  hashed : ∀ h, ∀ m ∈ (s.entry h).slots, m.pageId ≠ 0 → s.hash m.pageId = h
  mapped : ∀ id f, id ≠ 0 → s.locate id = some f → s.ringId f = id

/-- The facts hold, and a ring entry in use is mapped unless its owner is at
work on it. -/
structure FactsOk (s : SharedPager) (v : κ → View) : Prop where
  guarded : ∀ c, (v c).fact.Guarded s (v c).entry
  holds : ∀ c, (v c).fact.Holds s
  ringed : ∀ f, s.ringId f ≠ 0 → s.locate (s.ringId f) = some f ∨ ∃ c, (v c).fact.owns = some f

structure Consistent (s : SharedPager) (v : κ → View) : Prop where
  entries : EntriesOk s v
  pages : PagesOk s v
  maps : MapsOk s
  facts : FactsOk s v

namespace Consistent

variable {s : SharedPager} {v : κ → View} {c d : κ} {id j : PageId} {f h : Nat} {w : Bool}

/-- Two pages are in different frames. -/
theorem locate_inj (hc : Consistent s v) (hid : id ≠ 0) (hj : j ≠ 0) (hidf : s.locate id = some f)
    (hjf : s.locate j = some f) : id = j :=
  (hc.maps.mapped id f hid hidf).symm.trans (hc.maps.mapped j f hj hjf)

/-- A mapped frame has no owner. -/
theorem not_owns (hc : Consistent s v) (hid : id ≠ 0) (hf : s.locate id = some f) (d : κ) :
    (v d).fact.owns ≠ some f := by
  intro howns
  obtain ⟨j, hj⟩ := Fact.owned_of_owns howns (hc.facts.holds d)
  have hring := hc.maps.mapped id f hid hf
  rw [hj.ring] at hring
  rw [← hring, hj.miss] at hf
  cases hf

section

variable [DecidableEq κ]

/-- The exclusive latch of a hash entry excludes every other holder. -/
theorem entry_alone (hc : Consistent s v) (hv : (v c).entry = some (h, true))
    (hw : (v d).entry = some (h, w)) : c = d := by
  by_contra hne
  have hmem := View.mem_entries.mpr hv
  have hpos : (total View.entries v).count (h, true) ≠ 0 := by
    rw [Multiset.count_ne_zero, mem_total]
    exact ⟨c, hmem⟩
  obtain ⟨hone, hnone, -⟩ := (hc.entries h).alone hpos
  cases w with
  | true =>
      have htwo := two_le_count hne hmem (View.mem_entries.mpr hw)
      omega
  | false =>
      refine Multiset.count_eq_zero.mp hnone ?_
      rw [mem_total]
      exact ⟨d, View.mem_entries.mpr hw⟩

theorem owner_unique (hc : Consistent s v) (howns : (v c).fact.owns = some f)
    (hd : (v d).fact.owns = some f) : c = d :=
  hc.entry_alone (Fact.entry_of_owns howns (hc.facts.guarded c) (hc.facts.holds c))
    (Fact.entry_of_owns hd (hc.facts.guarded d) (hc.facts.holds d))

/-- No two ring entries carry the same page. -/
theorem ring_inj (hc : Consistent s v) {g : Nat} (hf : s.ringId f ≠ 0)
    (heq : s.ringId f = s.ringId g) : f = g := by
  rcases hc.facts.ringed f hf with hmap | ⟨c, howns⟩
  · rcases hc.facts.ringed g (heq ▸ hf) with hmap' | ⟨d, howns'⟩
    · rw [heq, hmap'] at hmap
      exact (Option.some.inj hmap).symm
    · obtain ⟨j, hj⟩ := Fact.owned_of_owns howns' (hc.facts.holds d)
      rw [heq, hj.ring, hj.miss] at hmap
      cases hmap
  · rcases hc.facts.ringed g (heq ▸ hf) with hmap' | ⟨d, howns'⟩
    · obtain ⟨j, hj⟩ := Fact.owned_of_owns howns (hc.facts.holds c)
      rw [← heq, hj.ring, hj.miss] at hmap'
      cases hmap'
    · have hentry := Fact.entry_of_owns howns (hc.facts.guarded c) (hc.facts.holds c)
      have hentry' := Fact.entry_of_owns howns' (hc.facts.guarded d) (hc.facts.holds d)
      rw [heq] at hentry
      have hcd := hc.entry_alone hentry hentry'
      subst hcd
      exact Option.some.inj (howns.symm.trans howns')

/-- A ring entry whose id's hash entry is latched exclusively, by a client that
owns nothing, is mapped. -/
theorem located_of_ring (hc : Consistent s v) (hf : s.ringId f ≠ 0)
    (hentry : (v c).entry = some (s.hash (s.ringId f), true)) (howns : (v c).fact.owns = none) :
    s.locate (s.ringId f) = some f := by
  refine (hc.facts.ringed f hf).resolve_right ?_
  rintro ⟨d, hd⟩
  have hcd := hc.entry_alone hentry
    (Fact.entry_of_owns hd (hc.facts.guarded d) (hc.facts.holds d))
  subst hcd
  rw [howns] at hd
  cases hd

end

end Consistent

end Wednesday
