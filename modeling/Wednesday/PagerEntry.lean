import Wednesday.PagerCache
import Wednesday.Lib.Runs

/-!
A hash entry over the calls that change it. It maps the ids that were inserted
and not removed since, wherever in the slots and the chain they stand. Id zero
marks a free slot; `pager_fix` refuses it.
-/

namespace Wednesday

open Lib Prog

/-- `entry_directory_lookup` on the entry at an index of the directory. -/
def lookupAt (h : Nat) (id : PageId) (s : Sys) : Option Nat := (s.pager.directory h).lookup id

/-- `pager_directory_remove`. -/
def pagerDirectoryRemove (h : Nat) (id : PageId) : Call Unit :=
  modifyPager fun p => p.setEntry h ((p.directory h).remove id)

/-- The calls on one entry, and how they ended. -/
inductive EntryEvent where
  | inserted (m : Mapping)
  | refused (m : Mapping)
  | removed (id : PageId)
  | lookedUp (id : PageId) (found : Option Nat)

inductive EntryStep (h : Nat) : Sys → EntryEvent → Sys → Prop where
  | inserted {s s' : Sys} {m : Mapping} (hrun : pagerDirectoryInsert h m s = .success () s') :
      EntryStep h s (.inserted m) s'
  | refused {s s' : Sys} {m : Mapping} (hrun : pagerDirectoryInsert h m s = .failure s') :
      EntryStep h s (.refused m) s'
  | removed {s s' : Sys} {id : PageId} (hrun : pagerDirectoryRemove h id s = .success () s') :
      EntryStep h s (.removed id) s'
  | lookedUp (s : Sys) (id : PageId) : EntryStep h s (.lookedUp id (lookupAt h id s)) s

/-- The id was inserted with the header and has not been removed since. -/
def Present (es : List EntryEvent) (id : PageId) (header : Nat) : Prop :=
  ∃ before after, es = before ++ .inserted ⟨id, header⟩ :: after ∧ .removed id ∉ after

/-- Every id that is inserted is not zero and not present. -/
def InsertsNew (es : List EntryEvent) : Prop :=
  ∀ before m after, es = before ++ .inserted m :: after →
    m.pageId ≠ 0 ∧ ∀ header, ¬ Present before m.pageId header

/-- The entry finds what is present. Calls on one id do not change what is found
for another, and a refused insert changes nothing that is found. -/
structure IsFiniteMap (h : Nat) (es : List EntryEvent) (s : Sys) : Prop where
  lookup : ∀ id header, id ≠ 0 → (lookupAt h id s = some header ↔ Present es id header)
  inserted : ∀ m s' id, pagerDirectoryInsert h m s = .success () s' → id ≠ 0 → id ≠ m.pageId →
    lookupAt h id s' = lookupAt h id s
  removed : ∀ other s' id, pagerDirectoryRemove h other s = .success () s' → id ≠ 0 → id ≠ other →
    lookupAt h id s' = lookupAt h id s
  refused : ∀ m s' id, pagerDirectoryInsert h m s = .failure s' → lookupAt h id s' = lookupAt h id s

/-! ### The calls on the slots -/

section

variable {h : Nat} {s s' : Sys} {m : Mapping} {id other : PageId} {header : Nat}

/-- The slots of the entry. -/
def slotsAt (h : Nat) (s : Sys) : List Mapping := (s.pager.directory h).slots

theorem lookupAt_eq (h : Nat) (id : PageId) (s : Sys) :
    lookupAt h id s = HashEntry.find id (slotsAt h s) :=
  HashEntry.lookup_eq _ id

theorem slotsAt_inserted (hrun : pagerDirectoryInsert h m s = .success () s') :
    slotsAt h s' = HashEntry.fill m (slotsAt h s) := by
  rcases pagerDirectoryInsert_cases h m s with ⟨entry, heap, hsuccess,
    hslots⟩ | ⟨e, heap, hfailure, -⟩
  · obtain rfl := (Outcome.success.inj (hrun.symm.trans hsuccess)).2
    simp only [slotsAt, Pager.setEntry, Function.update_self]
    exact hslots
  · cases hrun.symm.trans hfailure

theorem slotsAt_refused (hrun : pagerDirectoryInsert h m s = .failure s') :
    slotsAt h s' = slotsAt h s := by
  rcases pagerDirectoryInsert_cases h m s with ⟨entry, heap, hsuccess, -⟩ | ⟨e, heap, hfailure, -⟩
  · cases hrun.symm.trans hsuccess
  · obtain rfl := Outcome.failure.inj (hrun.symm.trans hfailure)
    rfl

theorem slotsAt_removed (hrun : pagerDirectoryRemove h id s = .success () s') :
    slotsAt h s' = HashEntry.removeBucket id (slotsAt h s) := by
  rw [pagerDirectoryRemove, modifyPager_apply] at hrun
  obtain rfl := (Outcome.success.inj hrun).2
  simp only [slotsAt, Pager.setEntry, Function.update_self]
  exact HashEntry.slots_remove _ id

theorem lookupAt_inserted_ne (hrun : pagerDirectoryInsert h m s = .success () s') (hid : id ≠ 0)
    (hne : id ≠ m.pageId) : lookupAt h id s' = lookupAt h id s := by
  rw [lookupAt_eq, lookupAt_eq, slotsAt_inserted hrun, HashEntry.find_fill_ne hne hid]

theorem lookupAt_removed_ne (hrun : pagerDirectoryRemove h other s = .success () s') (hid : id ≠ 0)
    (hne : id ≠ other) : lookupAt h id s' = lookupAt h id s := by
  rw [lookupAt_eq, lookupAt_eq, slotsAt_removed hrun, HashEntry.find_removeBucket_ne hne hid]

theorem lookupAt_refused (hrun : pagerDirectoryInsert h m s = .failure s') (id : PageId) :
    lookupAt h id s' = lookupAt h id s := by
  rw [lookupAt_eq, lookupAt_eq, slotsAt_refused hrun]

/-! ### What is present -/

theorem not_present_nil : ¬ Present [] id header := by
  rintro ⟨before, after, hes, -⟩
  simp at hes

/-- The last call decides, or leaves what was present before. -/
theorem present_snoc {es : List EntryEvent} {ev : EntryEvent} :
    Present (es ++ [ev]) id header ↔ ev = .inserted ⟨id, header⟩ ∨ ev ≠ .removed id ∧
      Present es id header := by
  constructor
  · rintro ⟨before, after, hes, hkept⟩
    rcases List.eq_nil_or_concat after with rfl | ⟨rest, last, rfl⟩
    · exact .inl (List.singleton_inj.mp (List.append_inj' hes rfl).2)
    · rw [List.concat_eq_append] at hes hkept
      rw [← List.cons_append, ← List.append_assoc] at hes
      obtain ⟨rfl, hlast⟩ := List.append_inj' hes rfl
      obtain rfl := List.singleton_inj.mp hlast
      refine .inr ⟨?_, before, rest, rfl, fun hmem => hkept (List.mem_append_left _ hmem)⟩
      rintro rfl
      exact hkept (List.mem_append_right _ (List.mem_singleton_self _))
  · rintro (rfl | ⟨hne, before, after, rfl, hkept⟩)
    · exact ⟨es, [], rfl, List.not_mem_nil⟩
    · refine ⟨before, after ++ [ev], by simp, fun hmem => ?_⟩
      rcases List.mem_append.mp hmem with hmem | hmem
      · exact hkept hmem
      · exact hne (List.mem_singleton.mp hmem).symm

theorem insertsNew_nil : InsertsNew [] := by
  intro before m after hes
  simp at hes

theorem InsertsNew.snoc {es : List EntryEvent} {ev : EntryEvent} (hes : InsertsNew es)
    (hnew : ∀ m, ev = .inserted m → m.pageId ≠ 0 ∧ ∀ header, ¬ Present es m.pageId header) :
    InsertsNew (es ++ [ev]) := by
  intro before m after hsplit
  rcases List.eq_nil_or_concat after with rfl | ⟨rest, last, rfl⟩
  · obtain ⟨rfl, hlast⟩ := List.append_inj' hsplit rfl
    exact hnew m (List.singleton_inj.mp hlast)
  · rw [List.concat_eq_append, ← List.cons_append, ← List.append_assoc] at hsplit
    exact hes before m rest (List.append_inj' hsplit rfl).1

/-! ### Runs -/

/-- No id stands twice, and what is found in the slots is present. -/
structure EntryHolds (h : Nat) (es : List EntryEvent) (s : Sys) : Prop where
  distinct : HashEntry.Distinct (slotsAt h s)
  found : ∀ id header, id ≠ 0 → (HashEntry.find id (slotsAt h s) = some header ↔
    Present es id header)

variable {es es' : List EntryEvent} {ev : EntryEvent}

theorem entryHolds_empty (hempty : ∀ m ∈ slotsAt h s, m.pageId = 0) : EntryHolds h [] s := by
  constructor
  · apply List.pairwise_of_forall_mem_list
    exact fun a ha b _ hne => absurd (hempty a ha) hne
  · intro id header hid
    apply iff_of_false _ not_present_nil
    have hnone : HashEntry.find id (slotsAt h s) = none :=
      HashEntry.find_eq_none.mpr fun m hm heq => hid (heq.symm.trans (hempty m hm))
    rw [hnone]
    exact (Option.some_ne_none _).symm

theorem EntryHolds.inserted (hholds : EntryHolds h es s) (hid : m.pageId ≠ 0)
    (hnew : ∀ header, ¬ Present es m.pageId header)
    (hrun : pagerDirectoryInsert h m s = .success () s') :
    EntryHolds h (es ++ [.inserted m]) s' := by
  have habsent : HashEntry.find m.pageId (slotsAt h s) = none := by
    apply Option.eq_none_iff_forall_ne_some.mpr
    exact fun header hfound => hnew header ((hholds.found _ header hid).mp hfound)
  constructor
  · rw [slotsAt_inserted hrun]
    exact hholds.distinct.fill habsent
  · intro id header hid'
    rw [slotsAt_inserted hrun, present_snoc]
    rcases eq_or_ne id m.pageId with rfl | hne
    · -- The slot that is filled is the only one with the id.
      rw [HashEntry.find_fill_self habsent, Option.some.injEq]
      constructor
      · rintro rfl
        exact .inl rfl
      · rintro (hev | ⟨-, hpresent⟩)
        · exact congrArg Mapping.header (EntryEvent.inserted.inj hev)
        · exact absurd hpresent (hnew header)
    · rw [HashEntry.find_fill_ne hne hid', hholds.found id header hid']
      constructor
      · exact fun hpresent => .inr ⟨EntryEvent.noConfusion, hpresent⟩
      · rintro (hev | ⟨-, hpresent⟩)
        · exact absurd (congrArg Mapping.pageId (EntryEvent.inserted.inj hev)).symm hne
        · exact hpresent

theorem EntryHolds.removed (hholds : EntryHolds h es s)
    (hrun : pagerDirectoryRemove h other s = .success () s') :
    EntryHolds h (es ++ [.removed other]) s' := by
  constructor
  · rw [slotsAt_removed hrun]
    exact hholds.distinct.removeBucket
  · intro id header hid
    rw [slotsAt_removed hrun, present_snoc]
    rcases eq_or_ne id other with rfl | hne
    · -- No second slot has the id.
      rw [HashEntry.find_removeBucket_self hholds.distinct hid]
      apply iff_of_false (Option.some_ne_none _).symm
      rintro (hev | ⟨hev, -⟩)
      · cases hev
      · exact hev rfl
    · rw [HashEntry.find_removeBucket_ne hne hid, hholds.found id header hid]
      constructor
      · intro hpresent
        refine .inr ⟨fun hev => hne ?_, hpresent⟩
        exact (EntryEvent.removed.inj hev).symm
      · rintro (hev | ⟨-, hpresent⟩)
        · cases hev
        · exact hpresent

/-- A call that keeps the slots and neither inserts nor removes. -/
theorem EntryHolds.same (hholds : EntryHolds h es s) (hslots : slotsAt h s' = slotsAt h s)
    (hinsert : ∀ m, ev ≠ .inserted m) (hremove : ∀ id, ev ≠ .removed id) :
    EntryHolds h (es ++ [ev]) s' := by
  constructor
  · rw [hslots]
    exact hholds.distinct
  · intro id header hid
    rw [hslots, present_snoc, hholds.found id header hid]
    constructor
    · exact fun hpresent => .inr ⟨hremove id, hpresent⟩
    · rintro (hev | ⟨-, hpresent⟩)
      · exact absurd hev (hinsert _)
      · exact hpresent

theorem EntryHolds.step (hholds : EntryHolds h es s)
    (hnew : ∀ m, ev = .inserted m → m.pageId ≠ 0 ∧ ∀ header, ¬ Present es m.pageId header)
    (hstep : EntryStep h s ev s') : EntryHolds h (es ++ [ev]) s' := by
  cases hstep with
  | inserted hrun =>
      obtain ⟨hid, habsent⟩ := hnew _ rfl
      exact hholds.inserted hid habsent hrun
  | refused hrun =>
      exact hholds.same (slotsAt_refused hrun) (fun _ hev => by cases hev) fun _ hev => by cases hev
  | removed hrun => exact hholds.removed hrun
  | lookedUp id => exact hholds.same rfl (fun _ hev => by cases hev) fun _ hev => by cases hev

theorem EntryHolds.run (hholds : EntryHolds h es s) (hnew : InsertsNew (es ++ es'))
    (hrun : Run (EntryStep h) s es' s') : EntryHolds h (es ++ es') s' := by
  induction hrun generalizing es with
  | nil =>
      rw [List.append_nil]
      exact hholds
  | @cons _ _ _ ev rest head _ ih =>
      rw [show es ++ ev :: rest = (es ++ [ev]) ++ rest by simp] at hnew ⊢
      apply ih (hholds.step (fun m hev => ?_) head) hnew
      apply hnew es m rest
      rw [hev, List.append_assoc]
      rfl

theorem EntryHolds.isFiniteMap (hholds : EntryHolds h es s) : IsFiniteMap h es s where
  lookup id header hid := by
    rw [lookupAt_eq]
    exact hholds.found id header hid
  inserted _ _ _ hrun hid hne := lookupAt_inserted_ne hrun hid hne
  removed _ _ _ hrun hid hne := lookupAt_removed_ne hrun hid hne
  refused _ _ id hrun := lookupAt_refused hrun id

/-- A hash entry that starts empty is a finite map after all calls that insert
only ids that are not present. -/
theorem entry_is_finite_map (hempty : ∀ m ∈ slotsAt h s, m.pageId = 0) (hnew : InsertsNew es)
    (hrun : Run (EntryStep h) s es s') : IsFiniteMap h es s' :=
  ((entryHolds_empty hempty).run hnew hrun).isFiniteMap

end

/-- The second id takes the slot of the first. -/
def slotReused : List EntryEvent := [.inserted ⟨3, 0⟩, .removed 3, .inserted ⟨4, 1⟩]

theorem insertsNew_slotReused : InsertsNew slotReused := by
  have hfirst : InsertsNew [.inserted ⟨3, 0⟩] := insertsNew_nil.snoc (by simp [not_present_nil])
  have hremoved : InsertsNew [.inserted ⟨3, 0⟩, .removed 3] := hfirst.snoc (by simp)
  apply hremoved.snoc
  rintro m hev
  obtain rfl := EntryEvent.inserted.inj hev
  refine ⟨by decide, fun header hpresent => ?_⟩
  rcases present_snoc.mp (show Present ([.inserted ⟨3, 0⟩] ++ [.removed 3]) 4 header
    from hpresent) with
    hlast | ⟨-, hpresent⟩
  · cases hlast
  · rcases present_snoc.mp (show Present ([] ++ [.inserted ⟨3, 0⟩]) 4 header from hpresent) with
      hlast | ⟨-, hpresent⟩
    · cases hlast
    · exact not_present_nil hpresent

theorem entry_is_finite_map_once : ∃ s, Run (EntryStep 0) (freshSys 16 4) slotReused s ∧
    IsFiniteMap 0 slotReused s := by
  have hrun : ∃ s, Run (EntryStep 0) (freshSys 16 4) slotReused s :=
    ⟨_, .cons (.inserted rfl) (.cons (.removed rfl) (.cons (.inserted rfl) (.nil _)))⟩
  obtain ⟨s, hrun⟩ := hrun
  exact ⟨s, hrun, entry_is_finite_map (by decide) insertsNew_slotReused hrun⟩

end Wednesday
