import Wednesday.TreeRows

/-!
Tables whose ids are below `2 ^ 31`. There `key_compare` is the order of the ids,
so the pages of a table are a search tree of the rows inserted.
-/

namespace Wednesday

open Lib Prog Pager FenceTree

/-- What `key_compare` sees of the id of a key. -/
def idRank (key : Bytes) : Nat := keyId key % 2 ^ 32

/-- Between such keys `key_compare` does not overflow. -/
def ShortId (key : Bytes) : Prop := idRank key < 2 ^ 31

theorem orders_idRank : Orders ShortId idRank := by
  constructor
  · intro a b ha hb
    unfold ShortId idRank at *
    rw [idCompare, Int.bmod_def]
    omega
  · intro a b ha hb
    unfold ShortId idRank at *
    rw [idCompare, Int.bmod_def]
    omega

/-- A key that is not short compares equal to no short one. -/
theorem idCompare_ne_zero {a b : Bytes} (ha : ShortId a) (hb : ¬ ShortId b) :
    idCompare (keyId a) (keyId b) ≠ 0 := by
  unfold ShortId idRank at *
  rw [idCompare, Int.bmod_def]
  omega

/-- The ids of the inserts, also of those that fail. -/
def insertIds (es : List TreeEvent) : List Nat :=
  es.filterMap fun
    | .insert key _ => some (keyId key.bytes)
    | .insertFails key _ => some (keyId key.bytes)
    | _ => none

/-- The ids of the inserts are distinct and below `2 ^ 31`. -/
def DistinctIds (es : List TreeEvent) : Prop :=
  (insertIds es).Nodup ∧ ∀ id ∈ insertIds es, id < 2 ^ 31

instance (es : List TreeEvent) : Decidable (DistinctIds es) := inferInstanceAs (Decidable (_ ∧ _))

section

variable {type : Nat} {nodes : PageId → TreeNode} {F : Fences} {R : TreeRow → Prop} {s s₀ t : Sys}
  {key value : Blob} {es : List TreeEvent} {e : TreeEvent}

theorem shortId_of_lt {k : Bytes} (h : keyId k < 2 ^ 31) : ShortId k ∧ idRank k = keyId k := by
  unfold ShortId idRank
  omega

/-- The key of the next insert is in order with the rows, and new. -/
theorem inOrder_of_short (hkey : KeyEncoded type key.bytes) (hid : ShortId key.bytes)
    (hrows : ∀ row, R row → keyId row.key < 2 ^ 31) : InOrder type ShortId idRank R key :=
  ⟨hkey, orders_idRank, fun row hrow => (shortId_of_lt (hrows row hrow)).1, hid⟩

/-- A tree whose rows have short ids. -/
structure ShortTree (type : Nat) (R : TreeRow → Prop) (s : Sys) : Prop where
  ok : s.PagerOk
  short : ∀ row, R row → keyId row.key < 2 ^ 31
  fenced : ∃ nodes F, PagesHold type nodes s ∧ Fenced idRank R nodes F s

theorem ShortTree.fresh (h : ShortTree type R s) (hid : keyId key.bytes < 2 ^ 31)
    (hnew : ∀ row, R row → keyId row.key ≠ keyId key.bytes) :
    ∀ row, R row → idRank row.key ≠ idRank key.bytes := by
  intro row hrow
  rw [(shortId_of_lt (h.short row hrow)).2, (shortId_of_lt hid).2]
  exact hnew row hrow

theorem insertIds_eq (es : List TreeEvent) : insertIds es = (insertKeys es).map keyId := by
  rw [insertIds, insertKeys, List.map_filterMap]
  refine List.filterMap_congr fun e _ => ?_
  cases e <;> rfl

theorem orders_short : Orders (fun k => keyId k < 2 ^ 31) idRank :=
  orders_idRank.mono fun _ hk => (shortId_of_lt hk).1

/-- The tree after a run from its creation. -/
theorem shortTree_of_run (hcreated : TreeCreated type s₀) (htype : IsTreeType type)
    (hsize : sizeofHeader ≤ s₀.tree.pageSize) (hids : DistinctIds es)
    (hrun : Run (WholeStep type) s₀ es s) :
    ShortTree type (rowsOf es) s := by
  obtain ⟨hnodup, hlt⟩ := hids
  rw [insertIds_eq] at hnodup hlt
  have hshort : ∀ k ∈ insertKeys es, keyId k < 2 ^ 31 := fun k hk => hlt _ (List.mem_map_of_mem hk)
  have hapart : (insertKeys es).Pairwise fun a b => idRank a ≠ idRank b := by
    refine (List.pairwise_map.mp hnodup).imp_of_mem fun ha hb hne => ?_
    rwa [(shortId_of_lt (hshort _ ha)).2, (shortId_of_lt (hshort _ hb)).2]
  have htree := orderedTree_of_run orders_short hcreated htype hsize hshort hapart hrun
  exact ⟨htree.ok, htree.rows, htree.fenced⟩

end

end Wednesday
