import Wednesday.Pager

/-!
The entries of the directory as lists of slots: first, second, and the
overflow buckets. A slot whose page id is zero is free.
-/

namespace Wednesday

open Lib

namespace HashEntry

def slots (entry : HashEntry) : List Mapping := entry.first :: entry.second :: entry.overflow

/-- The header of the first slot that maps the id. -/
def find (id : PageId) (ms : List Mapping) : Option Nat :=
  (ms.find? fun m => m.pageId = id).map Mapping.header

/-- Fill the first free slot, or append one. -/
def fill (m : Mapping) : List Mapping → List Mapping
  | [] => [m]
  | s :: ss => if s.pageId = 0 then m :: ss else s :: fill m ss

/-- No page id is mapped twice. -/
def Distinct (ms : List Mapping) : Prop :=
  ms.Pairwise fun a b => a.pageId ≠ 0 → b.pageId ≠ a.pageId

/-- Two slots that map the same page are one. -/
theorem Distinct.index_inj {ms : List Mapping} (h : Distinct ms) {i j : Nat} {m m' : Mapping}
    (hm : ms[i]? = some m) (hm' : ms[j]? = some m') (hne : m.pageId ≠ 0)
    (heq : m.pageId = m'.pageId) : i = j := by
  obtain ⟨hi, rfl⟩ := List.getElem?_eq_some_iff.mp hm
  obtain ⟨hj, rfl⟩ := List.getElem?_eq_some_iff.mp hm'
  rcases Nat.lt_trichotomy i j with hlt | rfl | hlt
  · exact absurd heq.symm (List.pairwise_iff_getElem.mp h i j hi hj hlt hne)
  · rfl
  · exact absurd heq (List.pairwise_iff_getElem.mp h j i hj hi hlt (heq ▸ hne))

theorem find_nil (id : PageId) : find id [] = none := rfl

theorem find_cons (id : PageId) (m : Mapping) (ms : List Mapping) :
    find id (m :: ms) = if m.pageId = id then some m.header else find id ms := by
  simp only [find, List.find?_cons]
  by_cases h : m.pageId = id <;> simp [h]

theorem lookup_eq (entry : HashEntry) (id : PageId) : entry.lookup id = find id entry.slots := by
  simp only [slots, find_cons, lookup]
  rfl

theorem slots_remove (entry : HashEntry) (id : PageId) :
    (entry.remove id).slots = removeBucket id entry.slots := by
  simp only [remove, slots, removeBucket]
  split
  · rfl
  · split <;> rfl

theorem fill_of_fillBucket {m : Mapping} {ms ms' : List Mapping}
    (h : fillBucket m ms = some ms') : fill m ms = ms' := by
  induction ms generalizing ms' with
  | nil => simp [fillBucket] at h
  | cons s ss ih =>
      simp only [fillBucket] at h
      simp only [fill]
      split
      · simpa [*] using h
      · simp only [*, if_false, Option.map_eq_some_iff] at h
        obtain ⟨ss', hss, rfl⟩ := h
        rw [ih hss]

theorem fill_of_full {m : Mapping} {ms : List Mapping} (h : fillBucket m ms = none) :
    fill m ms = ms ++ [m] := by
  induction ms with
  | nil => rfl
  | cons s ss ih =>
      simp only [fillBucket] at h
      split at h
      · simp at h
      · rw [Option.map_eq_none_iff] at h
        simp only [fill, *, if_false, List.cons_append]

variable {ms : List Mapping} {id j : PageId}

theorem find_eq_none : find id ms = none ↔ ∀ m ∈ ms, m.pageId ≠ id := by
  simp [find]

theorem find_eq_some (hd : Distinct ms) (hid : id ≠ 0) {f : Nat} :
    find id ms = some f ↔ (⟨id, f⟩ : Mapping) ∈ ms := by
  induction ms with
  | nil => simp [find]
  | cons m ms ih =>
      obtain ⟨hm, hms⟩ := List.pairwise_cons.mp hd
      rw [find_cons, List.mem_cons, ← ih hms]
      split
      · rename_i h
        constructor
        · rintro h'
          obtain rfl := Option.some.inj h'
          exact Or.inl (by rw [← h])
        · rintro (h' | h')
          · rw [← h']
          · rw [ih hms] at h'
            exact absurd h.symm (hm _ h' (by rw [h]; exact hid))
      · rename_i h
        refine ⟨Or.inr, fun h' => h'.resolve_left fun h'' => h ?_⟩
        rw [← h'']

theorem find_removeBucket_ne (hj : j ≠ id) (hj0 : j ≠ 0) :
    find j (removeBucket id ms) = find j ms := by
  induction ms with
  | nil => rfl
  | cons m ms ih =>
      rw [removeBucket]
      split
      · rename_i h
        rw [find_cons, find_cons, h, if_neg (Ne.symm hj0), if_neg (Ne.symm hj)]
      · rw [find_cons, find_cons, ih]

theorem find_removeBucket_self (hd : Distinct ms) (hid : id ≠ 0) :
    find id (removeBucket id ms) = none := by
  induction ms with
  | nil => rfl
  | cons m ms ih =>
      obtain ⟨hm, hms⟩ := List.pairwise_cons.mp hd
      rw [removeBucket]
      split
      · rename_i h
        rw [find_cons, if_neg (Ne.symm hid), find_eq_none]
        intro m' hm'
        rw [← h]
        exact hm m' hm' (by rwa [h])
      · rename_i h
        rw [find_cons, if_neg h, ih hms]

theorem mem_removeBucket {m : Mapping} (h : m ∈ removeBucket id ms) :
    m.pageId = 0 ∨ m ∈ ms := by
  induction ms with
  | nil => simp [removeBucket] at h
  | cons s ss ih =>
      rw [removeBucket] at h
      split at h
      · rcases List.mem_cons.mp h with rfl | h
        · exact Or.inl rfl
        · exact Or.inr (List.mem_cons_of_mem _ h)
      · rcases List.mem_cons.mp h with rfl | h
        · exact Or.inr (List.mem_cons_self ..)
        · exact (ih h).imp_right (List.mem_cons_of_mem _)

theorem Distinct.removeBucket (hd : Distinct ms) : Distinct (removeBucket id ms) := by
  induction ms with
  | nil => exact hd
  | cons m ms ih =>
      obtain ⟨hm, hms⟩ := List.pairwise_cons.mp hd
      rw [HashEntry.removeBucket]
      split
      · exact List.pairwise_cons.mpr ⟨fun _ _ h => absurd rfl h, hms⟩
      · refine List.pairwise_cons.mpr ⟨fun m' hm' hne => ?_, ih hms⟩
        rcases mem_removeBucket hm' with h | h
        · rw [h]
          exact hne.symm
        · exact hm m' h hne

theorem find_fill_ne {m : Mapping} (hj : j ≠ m.pageId) (hj0 : j ≠ 0) :
    find j (fill m ms) = find j ms := by
  induction ms with
  | nil => simp [fill, find_cons, Ne.symm hj]
  | cons s ss ih =>
      rw [fill]
      split
      · rename_i h
        rw [find_cons, find_cons, h, if_neg (Ne.symm hj0), if_neg (Ne.symm hj)]
      · rw [find_cons, find_cons, ih]

theorem find_fill_self {m : Mapping} (hnew : find m.pageId ms = none) :
    find m.pageId (fill m ms) = some m.header := by
  induction ms with
  | nil => simp [fill, find_cons]
  | cons s ss ih =>
      rw [find_cons] at hnew
      split at hnew
      · simp at hnew
      · rw [fill]
        split
        · simp [find_cons]
        · rw [find_cons, if_neg (by assumption), ih hnew]

theorem mem_fill {m m' : Mapping} (h : m' ∈ fill m ms) : m' = m ∨ m' ∈ ms := by
  induction ms with
  | nil => simpa [fill] using h
  | cons s ss ih =>
      rw [fill] at h
      split at h
      · exact (List.mem_cons.mp h).imp_right (List.mem_cons_of_mem _)
      · rcases List.mem_cons.mp h with rfl | h
        · exact Or.inr (List.mem_cons_self ..)
        · exact (ih h).imp_right (List.mem_cons_of_mem _)

theorem Distinct.fill {m : Mapping} (hd : Distinct ms) (hnew : find m.pageId ms = none) :
    Distinct (fill m ms) := by
  rw [find_eq_none] at hnew
  induction ms with
  | nil => exact List.pairwise_singleton _ _
  | cons s ss ih =>
      obtain ⟨hs, hss⟩ := List.pairwise_cons.mp hd
      rw [HashEntry.fill]
      split
      · exact List.pairwise_cons.mpr
          ⟨fun m' hm' _ => hnew m' (List.mem_cons_of_mem _ hm'), hss⟩
      · refine List.pairwise_cons.mpr
          ⟨fun m' hm' hne => ?_, ih hss fun m' hm' => hnew m' (List.mem_cons_of_mem _ hm')⟩
        rcases mem_fill hm' with rfl | h
        · exact (hnew s (List.mem_cons_self ..)).symm
        · exact hs m' h hne

end HashEntry

end Wednesday
