import Wednesday.BlobCodec
import Wednesday.TreeCalls
import Wednesday.TreeProgress

/-!
Tables as finite maps. A client inserts rows and looks them up; what it is told
is compared with a finite map that is given the same calls.
-/

namespace Wednesday

open Lib Prog Pager FenceTree

/-- A call on a table. -/
inductive TableCall where
  | insert (id : Nat) (value : Blob)
  | lookup (id : Nat)

/-- What a call reports. -/
inductive TableReply where
  | inserted
  | found (value : Bytes)
  | failed (code : Int)

/-! ### The finite map -/

abbrev RowMap : Type := Nat → Option Bytes

/-- A call on a finite map. -/
def mapCall (m : RowMap) : TableCall → TableReply × RowMap
  | .insert id value =>
      match m id with
      | none => (.inserted, Function.update m id (some value.bytes))
      | some _ => (.failed EEXIST, m)
  | .lookup id =>
      match m id with
      | none => (.failed ENOENT, m)
      | some value => (.found value, m)

/-- What the calls report of a finite map, and the map after them. -/
def mapRun (m : RowMap) : List TableCall → List TableReply × RowMap
  | [] => ([], m)
  | c :: cs => ((mapCall m c).1 :: (mapRun (mapCall m c).2 cs).1, (mapRun (mapCall m c).2 cs).2)

/-- The map after these calls on an empty one. -/
def mapAfter (cs : List TableCall) : RowMap := (mapRun (fun _ => none) cs).2

/-! ### The table -/

/-- A call on the table, with what it reports. -/
def tableCall (fuel : Nat) (s : Sys) : TableCall → Option (TableReply × Sys)
  | .insert id value =>
      match btreeTableInsert fuel id value s with
      | .success _ t => some (.inserted, t)
      | .failure t => some (.failed (errorGetCode t.err), t)
      | .fault _ => none
  | .lookup id =>
      match btreeTableLookup fuel id s with
      | .success blob t => some (.found blob.bytes, t)
      | .failure t => some (.failed (errorGetCode t.err), t)
      | .fault _ => none

/-- The calls of one client, each made under a condition on the calls before it and
the state it begins in. In between the client may clear its errors, and the
stack keeps nothing. -/
inductive TableRun (C : List TableCall → Sys → TableCall → Prop) (s₀ : Sys) :
    List (TableCall × TableReply) → Sys → Prop where
  | nil : TableRun C s₀ [] s₀
  | call {es : List (TableCall × TableReply)} {s t : Sys} {fuel : Nat}
      {c : TableCall} {r : TableReply}
      (hrun : TableRun C s₀ es s) (hc : C (es.map Prod.fst) s c)
      (hcall : tableCall fuel s c = some (r, t)) :
      TableRun C s₀ (es ++ [(c, r)]) t
  | errorClear {es : List (TableCall × TableReply)} {s : Sys} (hrun : TableRun C s₀ es s) :
      TableRun C s₀ es { s with err := errorClear s.err }
  | scratch {es : List (TableCall × TableReply)} {s : Sys} (hrun : TableRun C s₀ es s)
      (stack : Mem) :
      TableRun C s₀ es { s with stack := stack }

/-- The cell of the row fits in an empty leaf. -/
def CellFits (id : Nat) (value : Blob) (s : Sys) : Prop :=
  sizeofHeader + 2 + varintPutLen id + varintPutLen value.size + value.size ≤ s.tree.pageSize

/-- `key_compare` is a strict order of these ids, and never 0 between two of them. -/
def TellsIdsApart (ids : List Nat) : Prop := OrdersList (fun a b => idCompare a b < 0) ids

instance (ids : List Nat) : Decidable (TellsIdsApart ids) :=
  inferInstanceAs (Decidable (OrdersList _ _))

/-- The ids of the inserts. -/
def insertedIds (cs : List TableCall) : List Nat :=
  cs.filterMap fun
    | .insert id _ => some id
    | .lookup _ => none

/-- The id is new and in order with those inserted before, no error is recorded, the
pager has pages for every split, no page is compacted, and the checks of free
space are right wherever the insert comes. -/
structure InsertFits (ids : List Nat) (id : Nat) (value : Blob) (s : Sys) : Prop where
  short : id < 2 ^ 56
  apart : TellsIdsApart (ids ++ [id])
  clear : errorGetCode s.err = 0
  cell : CellFits id value s
  pages : HasPages (tableKey s.stack id) (tableValue s.stack value) s
  space : Uncompacted (tableKey s.stack id) (tableValue s.stack value) s
  fits : RowFits (tableKey s.stack id) (tableValue s.stack value) s

/-- The condition under which a call on the table is one on the map. -/
def CallFits (cs : List TableCall) (s : Sys) : TableCall → Prop
  | .insert id value => InsertFits (insertedIds cs) id value s
  | .lookup id => id < 2 ^ 56 ∧ ∀ i ∈ insertedIds cs, idCompare i id = 0 → i = id

/-- What a client may call: an id of 64 bits, a row that fits in an empty leaf, and a pager
that has pages for every split. -/
def CallPossible (_ : List TableCall) (s : Sys) : TableCall → Prop
  | .insert id value =>
      id < 2 ^ 64 ∧ CellFits id value s ∧
        HasPages (tableKey s.stack id) (tableValue s.stack value) s
  | .lookup id => id < 2 ^ 64

/-- The row that stands for a value of the map. -/
structure RowFor (id : Nat) (value : Bytes) (row : TreeRow) : Prop where
  key : keyId row.key = id
  value : ∀ src : Mem, src.Holds 0 row.value → (blobGet src).1.bytes = value

/-- The rank of a key among these ids. -/
def idsRank (ids : List Nat) (key : Bytes) : Nat :=
  listRank (fun a b => idCompare a b < 0) ids (keyId key)

/-- The rows are those of the map. -/
structure RowsFor (m : RowMap) (R : TreeRow → Prop) : Prop where
  mapped : ∀ row, R row → ∃ id value, m id = some value ∧ RowFor id value row
  stored : ∀ id value, m id = some value → ∃ row, R row ∧ RowFor id value row

/-- The table is a search tree of the rows of the map, whose ids are in the list, and
nothing is latched. -/
structure Represents (ids : List Nat) (m : RowMap) (s : Sys) : Prop where
  quiet : Quiet [] s
  unrefused : s.Unrefused
  tree : ∃ R, OrderedTree PAGE_FLAG_TABLE (fun k => keyId k ∈ ids) (idsRank ids) R s ∧ RowsFor m R

section

variable {fuel fuel' id : Nat} {value : Blob} {ids ids' : List Nat} {m : RowMap}
  {s s₀ t : Sys} {c : TableCall}
  {nodes : PageId → TreeNode} {F : Fences} {R : TreeRow → Prop} {leaf : PageId} {data : Mem}
  {es : List (TableCall × TableReply)} {C : List TableCall → Sys → TableCall → Prop}
    {x y : TableReply × Sys}

/-! ### Keys and values -/

theorem tableKey_spec (stack : Mem) (hid : id < 2 ^ 56) :
    KeyEncoded PAGE_FLAG_TABLE (tableKey stack id).bytes ∧ keyId (tableKey stack id).bytes = id ∧
      (varintGet (tableKey stack id).data).1 = id ∧ (tableKey stack id).size = varintPutLen id := by
  obtain ⟨d, n, hput, -, -, hlen, hget, -⟩ := varintPut_spec stack hid
  have hkey : tableKey stack id = ⟨n, d⟩ := by
    simp only [tableKey, hput]
  have hread : ∀ i < varintGetLen d, d i = Mem.ofBytes (Blob.bytes ⟨n, d⟩) i := by
    intro i hi
    rw [hlen] at hi
    have hself := Mem.holds_ofBytes (Blob.bytes ⟨n, d⟩) i (by rwa [Blob.length_bytes])
    rw [Nat.zero_add] at hself
    rw [hself]
    simp [Blob.bytes, Mem.read]
  obtain ⟨hlen', hget'⟩ := varintGet_congr hread
  rw [hkey]
  refine ⟨?_, hget'.trans hget, hget, ?_⟩
  · rw [KeyEncoded, if_neg (by decide), hlen', hlen, Blob.length_bytes]
  · rw [varintPutLen_eq stack hid, hput]

theorem tableValue_spec (stack : Mem) (hsize : value.size < 2 ^ 56) :
    ValueEncoded PAGE_FLAG_TABLE (tableValue stack value).bytes ∧
      (∀ src : Mem, src.Holds 0 (tableValue stack value).bytes →
        (blobGet src).1.bytes = value.bytes) ∧
      (tableValue stack value).size = varintPutLen value.size + value.size := by
  obtain ⟨d, n, hput, -, -, hblob, hget⟩ := blobPut_spec stack hsize
  obtain ⟨e, k, henc⟩ := exists_encodes stack hsize
  have hvalue : tableValue stack value = ⟨n, d⟩ := by
    simp only [tableValue, hput]
  have hn : n = k + value.size := congrArg Prod.snd (hput.symm.trans henc.run)
  rw [hvalue]
  refine ⟨?_, hget, ?_⟩
  · rw [ValueEncoded, if_neg (by decide)]
    exact hblob
  · rw [henc.vintLen]
    exact hn

/-! ### The bound on the walks -/

theorem extends_btreeTableLookup (h : fuel ≤ fuel') (id : Nat) :
    Extends (btreeTableLookup fuel id) (btreeTableLookup fuel' id) :=
  (Extends.refl _).bind fun _ => ((extends_btreeLookup h _).recover _).bind fun _ => .refl _

theorem extends_btreeTableInsert (h : fuel ≤ fuel') (id : Nat) (value : Blob) :
    Extends (btreeTableInsert fuel id value) (btreeTableInsert fuel' id value) :=
  (Extends.refl _).bind fun _ => extends_btreeInsert h _ _

theorem tableCall_mono (h : fuel ≤ fuel') (hcall : tableCall fuel s c = some x) :
    tableCall fuel' s c = some x := by
  cases c with
  | insert id value =>
      rcases extends_btreeTableInsert h id value s with ⟨r, hfault⟩ | heq
      · rw [tableCall, hfault] at hcall
        cases hcall
      · rwa [tableCall, heq]
  | lookup id =>
      rcases extends_btreeTableLookup h id s with ⟨r, hfault⟩ | heq
      · rw [tableCall, hfault] at hcall
        cases hcall
      · rwa [tableCall, heq]

theorem tableCall_unique (h : tableCall fuel s c = some x)
    (h' : tableCall fuel' s c = some y) : x = y :=
  Option.some.inj ((tableCall_mono (le_max_left fuel fuel') h).symm.trans
    (tableCall_mono (le_max_right fuel fuel') h'))

/-! ### One call -/

theorem wp_btreeTableLookup {type : Nat} {nodes : PageId → TreeNode} (hok : s.PagerOk)
    (hnodes : PagesHold type nodes s)
    (hs : s.Unrefused)
    (hreturns : wp (btreeLookup fuel (tableKey s.stack id)) (fun _ _ => True) (fun _ => True)
      (fun _ => False) s) :
    wp (btreeTableLookup fuel id)
      (fun blob t => Looked s t ∧ ∃ leaf data offset,
        ValueAt s (tableKey s.stack id) leaf data offset ∧
        blob = (blobGet (data.drop offset)).1)
      (fun t => Looked s t ∧ Missing s (tableKey s.stack id) ∧ errorGetCode t.err = ENOENT)
      (fun _ => False) s := by
  simp only [btreeTableLookup, wp_bind, wp_get]
  refine wp_tryCall (wp_mono (hreturns.and (btreeLookup_route hok hnodes))
    (fun ptr t ht => ?_) (fun t ht => ?_)
    fun _ hr => hr.1)
  · obtain ⟨-, hlooked, leaf, hvalue⟩ := ht
    exact ⟨hlooked, leaf, _, _, hvalue, rfl⟩
  · obtain ⟨-, hlooked, ⟨n, hn⟩ | ⟨hmissing, hcode⟩⟩ := ht
    · rw [hs.calls] at hn
      cases hn
    · refine ⟨by rw [hcode]; decide, fun e he => ⟨?_, hmissing, he.trans hcode⟩⟩
      exact ⟨hlooked.ok, hlooked.same.err e, hlooked.quiet, hlooked.outage⟩

theorem TellsIdsApart.orders (h : TellsIdsApart ids) :
    Orders (fun k => keyId k ∈ ids) (idsRank ids) :=
  orders_listRank (g := fun i => i) (fun _ => rfl) h

/-- A search for an id that is not in the map does not find it. -/
theorem RowsFor.missing {rank : Bytes → Nat} (h : RowsFor m R) (hfenced : Fenced rank R nodes F s)
    (hnodes : PagesHold PAGE_FLAG_TABLE nodes s)
    (hroute : Route s (tableKey s.stack id) s.tree.root leaf)
    (hpage : s.pageAt leaf = some data) (hid : id < 2 ^ 56)
    (hapart : ∀ i, m i ≠ none → idCompare i id = 0 → i = id)
    (hm : m id = none) : (pageFindPointer data (tableKey s.stack id)).1 = false := by
  obtain ⟨-, -, hget, -⟩ := tableKey_spec s.stack hid
  refine hfenced.not_found hnodes hroute hpage fun row hrow heq => ?_
  obtain ⟨i, v, hi, hfor⟩ := h.mapped row hrow
  rw [hget, hfor.key] at heq
  obtain rfl := hapart i (by simp [hi]) heq
  rw [hm] at hi
  cases hi

/-- A search for an id of the map finds its value. -/
theorem RowsFor.found {v : Bytes} (h : RowsFor m R)
    (htree : OrderedTree PAGE_FLAG_TABLE (fun k => keyId k ∈ ids) (idsRank ids) R s)
    (hids : TellsIdsApart ids)
    (hfenced : Fenced (idsRank ids) R nodes F s) (hnodes : PagesHold PAGE_FLAG_TABLE nodes s)
    (hroute : Route s (tableKey s.stack id) s.tree.root leaf) (hpage : s.pageAt leaf = some data)
    (hid : id < 2 ^ 56)
    (hm : m id = some v) :
    (pageFindPointer data (tableKey s.stack id)).1 = true ∧
      (blobGet (data.drop (pageCell data (pageFindPointer data (tableKey s.stack id)).2 +
        payloadGetValuePtr (pageFlags data)
          (pageGetPayload data (pageFindPointer data (tableKey s.stack id)).2)))).1.bytes = v := by
  obtain ⟨hkey, hkeyId, -, -⟩ := tableKey_spec s.stack hid
  obtain ⟨row, hrow, hfor⟩ := h.stored id v hm
  have hown : keyId (tableKey s.stack id).bytes ∈ ids := by
    rw [hkeyId, ← hfor.key]
    exact htree.rows row hrow
  have hrank : idsRank ids row.key = idsRank ids (tableKey s.stack id).bytes := by
    rw [idsRank, idsRank, hfor.key, hkeyId]
  obtain ⟨rows, rows', right, hnode, hsearch⟩ :=
    hfenced.leaf_found (htree.inOrder hids.orders hkey hown) hnodes hroute hpage hrow hrank
  have hholds := hnodes.node leaf _ hpage
  rw [hnode] at hholds
  rw [hsearch]
  exact ⟨rfl, hfor.value _ hholds.value_found.1⟩

theorem Represents.looked (h : Represents ids m s) (hlooked : Looked s t) (ht : t.Unrefused) :
    Represents ids m t := by
  obtain ⟨R, htree, hrows⟩ := h.tree
  exact ⟨hlooked.quiet h.quiet, ht, R, htree.same hlooked.ok hlooked.same, hrows⟩

/-- A lookup reports what the map does. -/
theorem Represents.lookup (h : Represents ids m s) (hids : TellsIdsApart ids) (hid : id < 2 ^ 56)
    (hapart : ∀ i, m i ≠ none → idCompare i id = 0 → i = id) :
    ∃ n t, tableCall n s (.lookup id) = some ((mapCall m (.lookup id)).1, t) ∧
      Represents ids m t := by
  obtain ⟨R, htree, hrows⟩ := h.tree
  obtain ⟨nodes, F, hnodes, hfenced⟩ := htree.fenced
  obtain ⟨leaf, hroute⟩ := hnodes.exists_route (tableKey s.stack id) hnodes.root
  obtain ⟨n, hn⟩ := btreeLookup_returns hroute htree.ok hnodes h.quiet h.unrefused.calls
  have hwp := (wp_btreeTableLookup htree.ok hnodes h.unrefused (hn n le_rfl)).and
    (kept_unrefused.btreeTableLookup n id s h.unrefused)
  cases hrun : btreeTableLookup n id s with
  | fault r => exact (hwp.fault hrun).1.elim
  | success blob t =>
      obtain ⟨⟨hlooked, leaf, data, offset, hvalue, rfl⟩, ht⟩ := hwp.success hrun
      refine ⟨n, t, ?_, h.looked hlooked ht⟩
      cases hm : m id with
      | none =>
          have hmissing := hrows.missing hfenced hnodes hvalue.route hvalue.page hid hapart hm
          rw [hvalue.found] at hmissing
          cases hmissing
      | some v =>
          have hfound := hrows.found htree hids hfenced hnodes hvalue.route hvalue.page hid hm
          simp only [tableCall, hrun, mapCall, hm]
          rw [hvalue.offset, hfound.2]
  | failure t =>
      obtain ⟨⟨hlooked, ⟨leaf, data, hroute, hpage, hmissing⟩, hcode⟩, ht⟩ := hwp.failure hrun
      refine ⟨n, t, ?_, h.looked hlooked ht⟩
      cases hm : m id with
      | none => simp only [tableCall, hrun, mapCall, hm, hcode]
      | some v =>
          have hfound := hrows.found htree hids hfenced hnodes hroute hpage hid hm
          rw [hmissing] at hfound
          cases hfound.1

theorem RowsFor.insert {key row : Blob} (h : RowsFor m R) (hnew : m id = none)
    (hrow : RowFor id value.bytes ⟨key.bytes, row.bytes⟩) :
    RowsFor (Function.update m id (some value.bytes)) fun r => rowsOf [.insert key row] r ∨
      R r := by
  constructor
  · rintro r (⟨k, v, hmem, rfl⟩ | hr)
    · cases List.mem_singleton.mp hmem
      exact ⟨id, value.bytes, Function.update_self .., hrow⟩
    · obtain ⟨i, v, hi, hfor⟩ := h.mapped r hr
      refine ⟨i, v, ?_, hfor⟩
      rwa [Function.update_of_ne]
      rintro rfl
      rw [hnew] at hi
      cases hi
  · intro i v hi
    by_cases hid : i = id
    · rw [hid, Function.update_self] at hi
      obtain rfl := Option.some.inj hi
      exact ⟨_, Or.inl ⟨key, row, List.mem_singleton_self _, rfl⟩, hid ▸ hrow⟩
    · rw [Function.update_of_ne hid] at hi
      obtain ⟨r, hr, hfor⟩ := h.stored i v hi
      exact ⟨r, Or.inr hr, hfor⟩

/-- An insert with nothing in its way is one into the map. -/
theorem Represents.insert (h : Represents ids m s) (hids : TellsIdsApart ids) (hid : id ∈ ids)
    (hfits : InsertFits ids' id value s) (hnew : m id = none) :
    ∃ n t, tableCall n s (.insert id value) = some (.inserted, t) ∧
      Represents ids (Function.update m id (some value.bytes)) t := by
  obtain ⟨R, htree, hrows⟩ := h.tree
  obtain ⟨nodes, F, hnodes, hfenced⟩ := htree.fenced
  obtain ⟨hkey, hkeyId, -, hkeySize⟩ := tableKey_spec s.stack hfits.short
  have hsmall : s.tree.pageSize < 65536 := by
    obtain ⟨data, hdata⟩ := Option.ne_none_iff_exists'.mp hnodes.root
    exact (hnodes.node _ _ hdata).small
  have hcell := hfits.cell
  unfold CellFits at hcell
  have hshortValue : value.size < 2 ^ 56 := by omega
  obtain ⟨hvalue, hget, hvalueSize⟩ := tableValue_spec s.stack hshortValue
  have hallowed : Insertable PAGE_FLAG_TABLE (tableKey s.stack id) (tableValue s.stack value) s :=
    ⟨hkey, hvalue, hfits.pages, hfits.space⟩
  have hown : keyId (tableKey s.stack id).bytes ∈ ids := by rwa [hkeyId]
  have hfresh : ∀ row, R row → idsRank ids row.key ≠ idsRank ids (tableKey s.stack id).bytes := by
    intro row hrow heq
    obtain ⟨i, v, hi, hfor⟩ := hrows.mapped row hrow
    have hsame : keyId row.key = keyId (tableKey s.stack id).bytes :=
      hids.rank_injective (htree.rows row hrow) hown heq
    rw [hfor.key, hkeyId] at hsame
    rw [hsame, hnew] at hi
    cases hi
  have hway : FreeWay PAGE_FLAG_TABLE (fun k => keyId k ∈ ids) (idsRank ids) R (tableKey s.stack id)
      (tableValue s.stack value) s :=
    ⟨htree, hids.orders, hown, hfresh, hallowed, by omega, hfits.fits, h.unrefused, h.quiet⟩
  obtain ⟨n, t, hrun⟩ := hway.succeeds hfits.clear
  have hins := hrun n le_rfl
  refine ⟨n, t, by rw [tableCall, btreeTableInsert_apply, hins], ?_, ?_, ?_⟩
  · exact (btreeInsert_balanced htree.ok hfits.clear hins).quiet h.quiet
  · exact (kept_unrefused.btreeInsert _ _ _).success h.unrefused hins
  · have hstep : WholeStep PAGE_FLAG_TABLE s
        (.insert (tableKey s.stack id) (tableValue s.stack value)) t :=
      ⟨⟨hallowed, .insert hins⟩, fun _ _ he => by cases he⟩
    refine ⟨_, htree.step hids.orders hstep fun k hk => ?_, hrows.insert hnew ⟨hkeyId, hget⟩⟩
    obtain rfl := List.mem_singleton.mp hk
    exact ⟨hown, hfresh⟩

/-! ### The calls of a client -/

theorem mapRun_append (m : RowMap) (cs ds : List TableCall) :
    mapRun m (cs ++ ds) = ((mapRun m cs).1 ++ (mapRun (mapRun m cs).2 ds).1,
      (mapRun (mapRun m cs).2 ds).2) := by
  induction cs generalizing m with
  | nil => rfl
  | cons c cs ih => simp only [List.cons_append, mapRun, ih]

theorem mapAfter_snoc (cs : List TableCall) (c : TableCall) :
    mapAfter (cs ++ [c]) = (mapCall (mapAfter cs) c).2 := by
  rw [mapAfter, mapRun_append]
  rfl

theorem insertedIds_snoc (cs : List TableCall) (c : TableCall) :
    insertedIds (cs ++ [c]) = insertedIds cs ++ insertedIds [c] :=
  List.filterMap_append

/-- Only the ids of inserts are in the map. -/
theorem mem_insertedIds {cs : List TableCall} (h : mapAfter cs id ≠ none) :
    id ∈ insertedIds cs := by
  induction cs using List.reverseRecOn with
  | nil => exact absurd rfl h
  | append_singleton cs c ih =>
      rw [mapAfter_snoc] at h
      rw [insertedIds_snoc, List.mem_append]
      cases c with
      | lookup i =>
          refine Or.inl (ih ?_)
          cases hm : mapAfter cs i <;> rwa [mapCall, hm] at h
      | insert i v =>
          cases hm : mapAfter cs i with
          | some w =>
              rw [mapCall, hm] at h
              exact Or.inl (ih h)
          | none =>
              simp only [mapCall, hm] at h
              by_cases hid : id = i
              · exact Or.inr (by simp [insertedIds, hid])
              · rw [Function.update_of_ne hid] at h
                exact Or.inl (ih h)

theorem Represents.between (h : Represents ids m s) (hpager : t.pager = s.pager)
    (htree : t.tree = s.tree)
    (ht : t.Unrefused) : Represents ids m t := by
  obtain ⟨R, hordered, hrows⟩ := h.tree
  have hpages : t.pageAt = s.pageAt := by
    unfold Sys.pageAt
    rw [hpager]
  have hsame : SamePages s t := ⟨hpages, htree, by rw [hpager]⟩
  have hok : t.PagerOk := by
    rw [Sys.PagerOk, hpager]
    exact hordered.ok
  have hquiet : Quiet [] t := by
    unfold Quiet
    rw [hpager]
    exact h.quiet
  exact ⟨hquiet, ht, R, hordered.same hok hsame, hrows⟩

/-- One call on the table is one on the map. -/
theorem Represents.call {cs : List TableCall} (h : Represents ids (mapAfter cs) s)
    (hids : TellsIdsApart ids)
    (hc : CallFits cs s c) (hin : ∀ i ∈ insertedIds (cs ++ [c]), i ∈ ids) :
    ∃ n t, tableCall n s c = some ((mapCall (mapAfter cs) c).1, t) ∧
      Represents ids (mapAfter (cs ++ [c])) t := by
  rw [mapAfter_snoc]
  cases c with
  | insert id value =>
      have hfits : InsertFits (insertedIds cs) id value s := hc
      have hnew : mapAfter cs id = none := by
        by_contra hmem
        exact (List.nodup_append.mp hfits.apart.nodup).2.2 id (mem_insertedIds hmem) id
          (List.mem_singleton_self id) rfl
      obtain ⟨n, t, hrun, ht⟩ := h.insert hids (hin id (by simp [insertedIds])) hfits hnew
      simp only [mapCall, hnew]
      exact ⟨n, t, hrun, ht⟩
  | lookup id =>
      have hkept : (mapCall (mapAfter cs) (.lookup id)).2 = mapAfter cs := by
        cases hm : mapAfter cs id <;> rw [mapCall, hm]
      rw [hkept]
      exact h.lookup hids hc.1 fun i hi => hc.2 i (mem_insertedIds hi)

theorem CallFits.tellsIdsApart {cs : List TableCall} (hc : CallFits cs s c)
    (h : TellsIdsApart (insertedIds cs)) :
    TellsIdsApart (insertedIds (cs ++ [c])) := by
  rw [insertedIds_snoc]
  cases c with
  | insert id value => exact InsertFits.apart hc
  | lookup id => rwa [show insertedIds [TableCall.lookup id] = [] from rfl, List.append_nil]

theorem TableRun.tellsIdsApart (hrun : TableRun CallFits s₀ es s) :
    TellsIdsApart (insertedIds (es.map Prod.fst)) := by
  induction hrun with
  | nil => decide
  | call _ hc _ ih =>
      rw [List.map_append]
      exact CallFits.tellsIdsApart hc ih
  | errorClear _ ih => exact ih
  | scratch _ _ ih => exact ih

/-- After calls that fit the table stands for the map, and has reported what the map does. -/
theorem TableRun.represents (hstart : Represents ids (fun _ => none) s₀) (hids : TellsIdsApart ids)
    (hrun : TableRun CallFits s₀ es s) (hin : ∀ i ∈ insertedIds (es.map Prod.fst), i ∈ ids) :
    Represents ids (mapAfter (es.map Prod.fst)) s ∧ (mapRun (fun _ => none) (es.map Prod.fst)).1 =
      es.map Prod.snd := by
  induction hrun with
  | nil => exact ⟨hstart, rfl⟩
  | @call es s t fuel c r _ hc hcall ih =>
      rw [List.map_append, List.map_singleton] at hin ⊢
      obtain ⟨hs, hreplies⟩ := ih fun i hi => hin i (by
        rw [insertedIds_snoc]
        exact List.mem_append_left _ hi)
      obtain ⟨n, u, hrun, hu⟩ := hs.call hids hc hin
      obtain ⟨rfl, rfl⟩ := Prod.mk.inj (tableCall_unique hcall hrun)
      refine ⟨hu, ?_⟩
      rw [mapRun_append, hreplies, List.map_append]
      rfl
  | errorClear _ ih =>
      obtain ⟨hs, hreplies⟩ := ih hin
      exact ⟨hs.between rfl rfl ⟨hs.unrefused.calls, hs.unrefused.mallocs⟩, hreplies⟩
  | scratch _ stack ih =>
      obtain ⟨hs, hreplies⟩ := ih hin
      exact ⟨hs.between rfl rfl ⟨hs.unrefused.calls, hs.unrefused.mallocs⟩, hreplies⟩

theorem CallFits.possible {cs : List TableCall} (hc : CallFits cs s c) : CallPossible cs s c := by
  cases c with
  | insert id value =>
      have hfits : InsertFits (insertedIds cs) id value s := hc
      have hshort := hfits.short
      exact ⟨by omega, hfits.cell, hfits.pages⟩
  | lookup id =>
      have hshort : id < 2 ^ 56 := hc.1
      exact show id < 2 ^ 64 by omega

theorem TableRun.possible (hrun : TableRun CallFits s₀ es s) : TableRun CallPossible s₀ es s := by
  induction hrun with
  | nil => exact .nil
  | call _ hc hcall ih => exact .call ih (CallFits.possible hc) hcall
  | errorClear _ ih => exact .errorClear ih
  | scratch _ stack ih => exact .scratch ih stack

/-- A table that was just created stands for the empty map. -/
theorem TreeCreated.represents (h : TreeCreated PAGE_FLAG_TABLE s)
    (hsize : sizeofHeader ≤ s.tree.pageSize)
    (hs : s.Unrefused) (ids : List Nat) : Represents ids (fun _ => none) s := by
  have hone := h.oneLeaf
  refine ⟨hone.quiet, hs, fun _ => False, ⟨h.pagerOk, fun _ hrow => hrow.elim, _, _,
    hone.pagesHold (Or.inl rfl) hsize, hone.fenced _⟩, fun _ hrow => hrow.elim,
      fun _ _ hm => by cases hm⟩

/-- As long as the calls fit, a table is the finite map of its rows: every call has reported
what the map does, and the next one will, from some bound on its walk on. -/
theorem table_refines_map (hcreated : TreeCreated PAGE_FLAG_TABLE s₀)
    (hsize : sizeofHeader ≤ s₀.tree.pageSize)
    (hs : s₀.Unrefused) (hrun : TableRun CallFits s₀ es s) :
    (mapRun (fun _ => none) (es.map Prod.fst)).1 = es.map Prod.snd ∧
      ∀ c, CallFits (es.map Prod.fst) s c → ∃ n t, ∀ fuel, n ≤ fuel →
        tableCall fuel s c = some ((mapCall (mapAfter (es.map Prod.fst)) c).1, t) := by
  have hstart := hcreated.represents hsize hs
  have hids := hrun.tellsIdsApart
  refine ⟨(hrun.represents (hstart _) hids fun _ hi => hi).2, fun c hc => ?_⟩
  -- the ranks are those among the ids of the run and the one the next call may insert
  have hids' := hc.tellsIdsApart hids
  obtain ⟨hreached, -⟩ := hrun.represents (hstart _) hids' fun i hi => by
    rw [insertedIds_snoc]
    exact List.mem_append_left _ hi
  obtain ⟨n, t, hcall, -⟩ := hreached.call hids' hc fun _ hi => hi
  exact ⟨n, t, fun fuel hfuel => tableCall_mono hfuel hcall⟩

/-! ### Computed runs -/

/-- The free space is right on the root, as long as the insert goes no further. -/
def fitsOnRoot (key value : Blob) (s : Sys) : Bool :=
  (rootVisit s).any fun (x : PageRef × Sys) =>
    if needsSplit (x.2.page x.1) key value then
      decide (2 ≤ cellCount (x.2.page x.1) ∧
        HalfTakes key (roomNeeded key value (x.2.page x.1)) x.2.tree.pageSize (x.2.page x.1))
    else decide (roomNeeded key value (x.2.page x.1) ≤ freeSpace (x.2.page x.1))

theorem rowFits_of_fitsOnRoot {key value : Blob} {page p : PageRef} {u : Sys}
    (h : LeafVisited key value s page p t u)
    (hfits : fitsOnRoot key value s = true) : RowFits key value s := by
  obtain ⟨⟨q, v⟩, hroot, hfits⟩ := Option.any_eq_true _ _ |>.mp hfits
  obtain ⟨-, rfl, rfl⟩ := h.visits (visit_of_rootVisit hroot)
  refine ⟨fun above q w hvisit hstay => ?_, fun above q w hvisit hfull => ?_,
    fun above q w hvisit _ => ?_⟩
  · obtain ⟨-, rfl, rfl⟩ := h.visits hvisit
    simpa [hstay] using hfits
  · obtain ⟨-, rfl, rfl⟩ := h.visits hvisit
    simpa [hfull] using hfits
  · obtain ⟨rfl, -, -⟩ := h.visits hvisit
    trivial

theorem tableCall_walks_not {page p : PageRef} {u : Sys}
    (h : LeafVisited (tableKey s.stack id) (tableValue s.stack value) s page p t u)
    (fuel fuel' : Nat) :
    tableCall fuel s (.insert id value) = tableCall fuel' s (.insert id value) := by
  have hinsert : ∀ n, btreeTableInsert n id value s =
      btreeInsert n (tableKey s.stack id) (tableValue s.stack value) s := fun _ => rfl
  rw [tableCall, tableCall, hinsert, hinsert, h.walks_not fuel fuel']

/-- The decisions of the insert of a row that is placed on the root or one of its halves. -/
def checksRow (ids : List Nat) (id : Nat) (value : Blob) (s : Sys) : Bool :=
  decide (id < 2 ^ 56) && decide (TellsIdsApart (ids ++ [id])) && decide (errorGetCode s.err = 0) &&
    decide (sizeofHeader + 2 + varintPutLen id + varintPutLen value.size +
      value.size ≤ s.tree.pageSize) &&
    checksLeaf (tableKey s.stack id) (tableValue s.stack value) s &&
    fitsOnRoot (tableKey s.stack id) (tableValue s.stack value) s

theorem insertFits_of_checksRow (h : checksRow ids id value s = true) :
    InsertFits ids id value s := by
  simp only [checksRow, Bool.and_eq_true, decide_eq_true_eq] at h
  obtain ⟨⟨⟨⟨⟨hshort, hapart⟩, hclear⟩, hcell⟩, hchecks⟩, hfits⟩ := h
  obtain ⟨page, p, t, u, hchecked⟩ := leafChecked_of_checksLeaf hchecks
  exact ⟨hshort, hapart, hclear, hcell, hchecked.hasPages, hchecked.uncompacted,
    rowFits_of_fitsOnRoot hchecked.toLeafVisited hfits⟩

/-- Insert rows one after the other, each checked. -/
def insertTableRows (fuel : Nat) (es : List (TableCall × TableReply)) (s : Sys) :
    List (Nat × Blob) → Option (List (TableCall × TableReply) × Sys)
  | [] => some (es, s)
  | (id, value) :: rows =>
      if checksRow (insertedIds (es.map Prod.fst)) id value s then do
        let (r, t) ← tableCall fuel s (.insert id value)
        insertTableRows fuel (es ++ [(.insert id value, r)]) t rows
      else none

theorem tableRun_of_insertTableRows {rows : List (Nat × Blob)}
    {y : List (TableCall × TableReply) × Sys}
    (hrun : TableRun CallFits s₀ es s) (h : insertTableRows fuel es s rows = some y) :
    TableRun CallFits s₀ y.1 y.2 := by
  induction rows generalizing es s with
  | nil =>
      obtain rfl := Option.some.inj h
      exact hrun
  | cons row rows ih =>
      obtain ⟨id, value⟩ := row
      simp only [insertTableRows] at h
      split at h
      · rename_i hcheck
        simp only [Option.bind_eq_bind, Option.bind_eq_some_iff, Prod.exists] at h
        obtain ⟨r, t, hcall, hrest⟩ := h
        have hfits : CallFits (es.map Prod.fst) s (.insert id value) :=
          insertFits_of_checksRow hcheck
        exact ih (.call hrun hfits hcall) hrest
      · cases h

theorem unrefused_of_createdTree {type pageSize directorySize : Nat}
    (hfresh : (freshSys pageSize directorySize).Unrefused)
    (h : createdTree type pageSize directorySize = some s) : s.Unrefused := by
  simp only [createdTree, Option.bind_eq_bind, Option.bind_eq_some_iff, Prod.exists,
    Outcome.value?_eq_some, Option.some.injEq] at h
  obtain ⟨object, tree, t, hrun, rfl⟩ := h
  have ht :=
    (kept_unrefused.btreeCreate (preserves_btreeOpen_unrefused true) type).success hfresh hrun
  exact ⟨ht.calls, ht.mallocs⟩

/-- A table with some rows. -/
def filledRows (pageSize : Nat) (rows : List (Nat × Blob)) :
    Option (Sys × List (TableCall × TableReply) × Sys) := do
  let s₀ ← createdTree PAGE_FLAG_TABLE pageSize 16
  let (es, s) ← insertTableRows 2 [] s₀ rows
  some (s₀, es, s)

theorem exists_filledRows (pageSize : Nat) (rows : List (Nat × Blob))
    (hopen : PagerOpened (freshSys pageSize 16))
    (hsize : pageSize < 65536) {p : Sys → List (TableCall × TableReply) → Sys → Bool}
    (h : (filledRows pageSize rows).any (fun x => p x.1 x.2.1 x.2.2) = true) :
    ∃ s₀ es s, TreeCreated PAGE_FLAG_TABLE s₀ ∧ s₀.Unrefused ∧ TableRun CallFits s₀ es s ∧
      p s₀ es s = true := by
  obtain ⟨⟨s₀, es, s⟩, hsome, hp⟩ := Option.any_eq_true _ _ |>.mp h
  simp only [filledRows, Option.bind_eq_bind, Option.bind_eq_some_iff,
    Option.some.injEq, Prod.mk.injEq, Prod.exists] at hsome
  obtain ⟨_, hcreated, _, _, hrun, rfl, rfl, rfl⟩ := hsome
  have hfresh : (freshSys pageSize 16).Unrefused := ⟨fun _ => rfl, fun _ => rfl⟩
  exact ⟨_, _, _, treeCreated_of_createdTree hopen hsize hcreated,
    unrefused_of_createdTree hfresh hcreated, tableRun_of_insertTableRows .nil hrun, hp⟩

end

/-- The third row splits the root. -/
theorem table_refines_map_once : ∃ s₀ es s n t, TableRun CallFits s₀ es s ∧
    s.tree.root ≠ s₀.tree.root ∧
    ∀ fuel, n ≤ fuel → tableCall fuel s (.lookup 2) = some (.found (List.replicate 8 2), t) := by
  obtain ⟨s₀, es, s, hcreated, hs, hrun, hp⟩ := exists_filledRows 40
    [(1, Blob.ofBytes (List.replicate 8 1)), (2, Blob.ofBytes (List.replicate 8 2)),
      (3, Blob.ofBytes (List.replicate 8 3))]
    ⟨40, 16, ⟨0, 1, 2⟩, freshSys 40 16, _, by decide, rfl⟩ (by decide)
    (p := fun s₀ es s => decide (s₀.tree.pageSize = 40) && decide (s.tree.root ≠ s₀.tree.root) &&
      decide (insertedIds (es.map Prod.fst) = [1, 2, 3]) &&
        decide (mapAfter (es.map Prod.fst) 2 = some (List.replicate 8 2)))
    (by decide +kernel)
  simp only [Bool.and_eq_true, decide_eq_true_eq] at hp
  obtain ⟨⟨⟨hsize, hroot⟩, hids⟩, hvalue⟩ := hp
  have hfits : CallFits (es.map Prod.fst) s (.lookup 2) := by
    refine ⟨by decide, ?_⟩
    rw [hids]
    decide
  obtain ⟨n, t, hfound⟩ := (table_refines_map hcreated (by rw [hsize]; decide) hs hrun).2 _ hfits
  rw [mapCall, hvalue] at hfound
  exact ⟨s₀, es, s, n, t, hrun, hroot, hfound⟩

/-- A row is inserted and then its id again. -/
theorem second_insert_aborts : ¬ ∀ (s₀ s : Sys) (es : List (TableCall × TableReply))
    (c : TableCall), TreeCreated PAGE_FLAG_TABLE s₀ → sizeofHeader ≤ s₀.tree.pageSize →
    s₀.Unrefused →
    TableRun CallPossible s₀ es s → CallPossible (es.map Prod.fst) s c → ∃ n t, ∀ fuel, n ≤ fuel →
      tableCall fuel s c = some ((mapCall (mapAfter (es.map Prod.fst)) c).1, t) := by
  intro h
  obtain ⟨s₀, es, s, hcreated, hs, hrun, hp⟩ :=
    exists_filledRows 64 [(1, Blob.ofBytes (List.replicate 8 1))]
    ⟨64, 16, ⟨0, 1, 2⟩, freshSys 64 16, _, by decide, rfl⟩ (by decide)
    (p := fun s₀ _ s => decide (s₀.tree.pageSize = 64) && decide (s.tree.pageSize = 64) &&
      checksLeaf (tableKey s.stack 1) (tableValue s.stack (Blob.ofBytes (List.replicate 8 1))) s &&
      (tableCall 1 s (.insert 1 (Blob.ofBytes (List.replicate 8 1)))).isNone)
    (by decide +kernel)
  simp only [Bool.and_eq_true, decide_eq_true_eq, Option.isNone_iff_eq_none] at hp
  obtain ⟨⟨⟨hsize₀, hsize⟩, hcheck⟩, habort⟩ := hp
  obtain ⟨page, p, t, u, hchecked⟩ := leafChecked_of_checksLeaf hcheck
  obtain ⟨n, w, hreturns⟩ := h s₀ s es (.insert 1 (Blob.ofBytes (List.replicate 8 1))) hcreated
    (by rw [hsize₀]; decide) hs hrun.possible
    ⟨by decide, by rw [CellFits, hsize]; decide, hchecked.hasPages⟩
  -- no bound on the walk helps: the row is found on the root
  have hcall := hreturns n le_rfl
  rw [tableCall_walks_not hchecked.toLeafVisited n 1, habort] at hcall
  cases hcall

end Wednesday
