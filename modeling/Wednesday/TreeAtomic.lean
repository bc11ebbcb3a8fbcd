import Wednesday.Lib.Atomic
import Wednesday.TreeShared
import Wednesday.TreeValues

/-!
Clients of one table and the finite map as an atomic object. An insert takes effect when
its row is placed, a lookup when it searches its leaf.
-/

namespace Wednesday

open Lib Prog Pager FenceTree

/-- The finite map, of whose replies something is seen. -/
def mapObject {ρ : Type} (f : TableReply → ρ) (m : RowMap) (call : TableCall) : ρ × RowMap :=
  (f (mapCall m call).1, (mapCall m call).2)

/-- Nothing is seen of the value a lookup reports. -/
def Blind {ρ : Type} (f : TableReply → ρ) : Prop := ∀ v w, f (.found v) = f (.found w)

def TableCall.id : TableCall → Nat
  | .insert id _ => id
  | .lookup id => id

section

variable {κ ρ : Type}

/-- What is seen of an event. -/
def TreeThreadEvent.see (f : TableReply → ρ) : TreeThreadEvent κ → Option (CallEvent κ TableCall ρ)
  | .begins c call => some (.calls c call)
  | .returns c call reply => some (.replies c call (f reply))
  | _ => none

/-- The calls of a run, in the order they have begun. -/
def begunCalls (es : List (TreeThreadEvent κ)) : List TableCall :=
  es.filterMap fun
    | .begins _ call => some call
    | _ => none

/-- `key_compare` tells the ids of the calls apart, and no id is inserted twice. -/
structure OrderlyCalls (ids : List Nat) (calls : List TableCall) : Prop where
  apart : TellsIdsApart ids
  ids : ∀ call ∈ calls, call.id ∈ ids
  distinct : (insertedIds calls).Nodup

/-- Where an insert is. -/
def InsertPoint.phase (f : TableReply → ρ) (call : TableCall) : InsertPoint → Phase TableCall ρ
  | .exit _ _ _ => .done call (f .inserted)
  | _ => .called call

/-- Where a lookup is, as long as it has found nothing. -/
def LookupPoint.phase (f : TableReply → ρ) (call : TableCall) : LookupPoint → Phase TableCall ρ
  | .exit _ none => .done call (f (.failed ENOENT))
  | _ => .called call

/-- A lookup that has found a row has its value to report. -/
def LookupPoint.Reports (f : TableReply → ρ) (call : TableCall) (s : Sys)
    (phase : Phase TableCall ρ) (p : LookupPoint) :
    Prop :=
  ∃ id v, call = .lookup id ∧ phase = .done call (f (.found v)) ∧
    (Blind f ∨ ∃ row, RowFor id v row ∧ p.Finds s row.value)

/-- The client is where the client of the atomic object is. -/
def TreeClient.Agrees (c : TreeClient) (f : TableReply → ρ) (s : Sys)
    (phase : Phase TableCall ρ) : Prop :=
  match c.point with
  | .idle => phase = .idle
  | .insert p => phase = p.phase f c.call
  | .lookup p =>
      (p.HasFound → p.Reports f c.call s phase) ∧ (¬ p.HasFound → phase = p.phase f c.call) ∧
        ∀ page, p = .exit page none → errorGetCode c.err = ENOENT

/-- The pages are a search tree of the rows of the map, and the clients are where those
of the map are. -/
structure Mirrored (f : TableReply → ρ) (ids : List Nat) (es : List (TreeThreadEvent κ))
    (S : TreeThreads κ)
    (a : AtomicState κ RowMap TableCall ρ) : Prop where
  shared : ∃ nodes whole F root R,
    SharedTree (fun k => keyId k ∈ ids) (idsRank ids) R nodes whole F root S ∧ RowsFor a.value R
  agrees : ∀ c, (S.client c).Agrees f S.shared (a.phase c)
  begun : ∀ c, (S.client c).point ≠ .idle → .begins c (S.client c).call ∈ es
  inserted : ∀ id, a.value id ≠ none → id ∈ insertedIds (begunCalls es)

variable {f : TableReply → ρ} {ids : List Nat} {es : List (TreeThreadEvent κ)} {S T : TreeThreads κ}
  {e : TreeThreadEvent κ}
  {a b : AtomicState κ RowMap TableCall ρ} {c d : κ} {call : TableCall}
    {nodes nodes' : PageId → TreeNode} {s t : Sys}
  {phase : Phase TableCall ρ} {m : RowMap} {R : TreeRow → Prop} {id : Nat} {v : Bytes}

/-! ### Calls and ids -/

theorem begunCalls_snoc (es : List (TreeThreadEvent κ)) (e : TreeThreadEvent κ) :
    begunCalls (es ++ [e]) = begunCalls es ++ begunCalls [e] := List.filterMap_append ..

theorem mem_begunCalls (h : .begins c call ∈ es) : call ∈ begunCalls es :=
  List.mem_filterMap.mpr ⟨_, h, rfl⟩

theorem mem_insertedIds_begun {value : Blob} (h : .begins c (.insert id value) ∈ es) :
    id ∈ insertedIds (begunCalls es) := List.mem_filterMap.mpr ⟨_, mem_begunCalls h, rfl⟩

theorem OrderlyCalls.of_initial {calls calls' : List TableCall} (h : OrderlyCalls ids calls')
    (hpre : calls <+: calls') :
    OrderlyCalls ids calls :=
  ⟨h.apart, fun call hcall => h.ids call (hpre.subset hcall),
    h.distinct.sublist (hpre.filterMap _).sublist⟩

theorem idsRank_eq_iff (h : TellsIdsApart ids) {k k' : Bytes} (hk : keyId k ∈ ids)
    (hk' : keyId k' ∈ ids) :
    idsRank ids k = idsRank ids k' ↔ keyId k = keyId k' := by
  refine ⟨h.rank_injective hk hk', fun heq => ?_⟩
  rw [idsRank, idsRank, heq]

/-- A row with the id of a call is the row the map has under it. -/
theorem RowsFor.value_of_row (h : RowsFor m R) {row : TreeRow} (hrow : R row)
    (hid : keyId row.key = id) :
    ∃ v, m id = some v ∧ RowFor id v row := by
  obtain ⟨i, v, hi, hfor⟩ := h.mapped row hrow
  obtain rfl : i = id := hfor.key.symm.trans hid
  exact ⟨v, hi, hfor⟩

theorem RowsFor.none_of_rows (h : RowsFor m R) (hnone : ∀ row, R row → keyId row.key ≠ id) :
    m id = none := by
  cases hm : m id with
  | none => rfl
  | some v =>
      obtain ⟨row, hrow, hfor⟩ := h.stored id v hm
      exact absurd hfor.key (hnone row hrow)

/-- The key of a client in a call is that of the id. -/
theorem Interleaved.keyId_call (h : Interleaved nodes S) (hcall : (S.client c).point ≠ .idle) :
    keyId (S.client c).key.bytes = (S.client c).call.id := by
  have hserves := h.serves c
  cases hpoint : (S.client c).point with
  | idle => exact absurd hpoint hcall
  | insert p =>
      simp only [TreeClient.Serves, hpoint] at hserves
      obtain ⟨id, value, hinserts⟩ := hserves
      rw [hinserts.call]
      exact hinserts.rowFor.key
  | lookup p =>
      simp only [TreeClient.Serves, hpoint] at hserves
      obtain ⟨id, hlooks⟩ := hserves
      rw [hlooks.call]
      exact hlooks.keyId_bytes

/-! ### The other clients -/

theorem TreeClient.Agrees.kept {client : TreeClient} (h : client.Agrees f s phase)
    (hfinds : ¬ Blind f → ∀ p v, client.point = .lookup p → p.HasFound →
      p.Finds s v → p.Finds t v) :
    client.Agrees f t phase := by
  unfold TreeClient.Agrees at h ⊢
  split at h
  · exact h
  · exact h
  · rename_i p hpoint
    refine ⟨fun hfound => ?_, h.2⟩
    obtain ⟨id, v, hcall, hphase, hreports⟩ := h.1 hfound
    refine ⟨id, v, hcall, hphase, ?_⟩
    by_cases hblind : Blind f
    · exact Or.inl hblind
    · obtain ⟨row, hrow, hold⟩ := hreports.resolve_left hblind
      exact Or.inr ⟨row, hrow, hfinds hblind p _ hpoint hfound hold⟩

variable [DecidableEq κ]

/-- A step of one client, with one of the client of the map or none. -/
theorem Mirrored.of_moves (h : Mirrored f ids es S a) (hI : Interleaved nodes S)
    (hmove : ThreadMoves nodes S e T nodes')
    (hfits : StepFits S e) (hkept : Blind f ∨ DecodesKept S e)
    (hshared : ∃ nodes whole F root R,
      SharedTree (fun k => keyId k ∈ ids) (idsRank ids) R nodes whole F root T ∧ RowsFor b.value R)
    (hphase : ∀ d, d ≠ e.client → b.phase d = a.phase d)
    (hagrees : (T.client e.client).Agrees f T.shared (b.phase e.client))
    (hinserted : ∀ id, b.value id ≠ none → id ∈ insertedIds (begunCalls (es ++ [e]))) :
    Mirrored f ids (es ++ [e]) T b := by
  refine ⟨hshared, fun d => ?_, hmove.begun h.begun, hinserted⟩
  by_cases hd : d = e.client
  · rwa [hd]
  · rw [hmove.client_ne hd, hphase d hd]
    exact (h.agrees d).kept fun hblind p v hpoint hfound hold =>
      hmove.finds hI hfits (hkept.resolve_left hblind) hd hpoint hfound hold

omit [DecidableEq κ] in
theorem Mirrored.inserted_snoc (h : Mirrored f ids es S a) (e : TreeThreadEvent κ)
    (hid : a.value id ≠ none) :
    id ∈ insertedIds (begunCalls (es ++ [e])) := by
  rw [begunCalls_snoc, insertedIds, List.filterMap_append]
  exact List.mem_append_left _ (h.inserted id hid)

/-- A client begins a call, and no row has the id of an insert that begins. -/
theorem SharedTree.begins {whole : PageId → TreeNode} {F : Fences} {root : PageId}
    (h : SharedTree (fun k => keyId k ∈ ids) (idsRank ids) R nodes whole F root S)
    (hcalls : OrderlyCalls ids (begunCalls (es ++ [.begins c call])))
    (hidle : (S.client c).point = .idle)
    (hfits : StepFits S (.begins c call))
    (hrows : ∀ row, R row → keyId row.key ∈ insertedIds (begunCalls es))
    (hbegun : ∀ d, (S.client d).point ≠ .idle → .begins d (S.client d).call ∈ es) :
    SharedTree (fun k => keyId k ∈ ids) (idsRank ids) R nodes whole F root
      (S.set c ((S.client c).begin call)) := by
  have hmove : ThreadMoves nodes S (.begins c call) _ nodes := .begins hidle call
  have hheld := hmove.interleaved h.held hfits h.held.unrefused
  have hown : call.id ∈ ids :=
    hcalls.ids call (mem_begunCalls (List.mem_append_right _ (List.mem_singleton_self _)))
  have hself : (S.set c ((S.client c).begin call)).client c = (S.client c).begin call :=
    S.client_set_self ..
  have hcall : ((S.client c).begin call).point ≠ .idle := by cases call <;> simp [TreeClient.begin]
  have hbegin : ((S.client c).begin call).call = call := by cases call <;> rfl
  have hkey : keyId ((S.client c).begin call).key.bytes = call.id := by
    have hkeyId := hheld.keyId_call (c := c) (by rwa [hself])
    rwa [hself, hbegin] at hkeyId
  -- the id of an insert is not that of one before it
  have hnew {p : InsertPoint} (hpoint : ((S.client c).begin call).point = .insert p) {k : Bytes}
      (hk : keyId k ∈ insertedIds (begunCalls es)) (hown' : keyId k ∈ ids) :
      idsRank ids k ≠ idsRank ids ((S.client c).begin call).key.bytes := by
    rw [Ne, idsRank_eq_iff hcalls.apart hown' (hkey ▸ hown), hkey]
    have hdistinct := hcalls.distinct
    rw [begunCalls_snoc, insertedIds, List.filterMap_append, List.nodup_append] at hdistinct
    refine hdistinct.2.2 _ hk _ ?_
    cases call with
    | insert id value => exact List.mem_singleton_self id
    | lookup id => cases hpoint
  refine h.set hidle hheld (fun p hp => ?_) ?_ (fun _ => hkey ▸ hown) (fun p hp row hrow => ?_)
    fun d p q hd hp hq => ?_
  · cases call <;> cases hp
    exact not_false
  · cases call <;> trivial
  · exact hnew hp (hrows row hrow) (h.rows row hrow)
  · have hcall' : (S.client d).point ≠ .idle := by simp [hq]
    refine (hnew hp ?_ (h.own d hcall')).symm
    have hserves := h.held.serves d
    simp only [TreeClient.Serves, hq] at hserves
    obtain ⟨id, value, hinserts⟩ := hserves
    rw [hinserts.rowFor.key]
    exact mem_insertedIds_begun (hinserts.call ▸ hbegun d hcall')

/-- A client in no call stays there. -/
theorem SharedTree.idles {whole : PageId → TreeNode} {F : Fences} {root : PageId} {K : Bytes → Prop}
    {rank : Bytes → Nat}
    {client : TreeClient} (h : SharedTree K rank R nodes whole F root S)
      (hidle : (S.client c).point = .idle)
    (hclient : client.point = .idle) (hheld : Interleaved nodes (S.set c client)) :
    SharedTree K rank R nodes whole F root (S.set c client) := by
  refine h.set hidle hheld (by simp [hclient]) ?_ (fun hcall => absurd hclient hcall)
    (by simp [hclient])
    (by simp [hclient])
  rw [TreeClient.OnTree, hclient]
  trivial

/-- A client begins a call. -/
theorem Mirrored.begins (h : Mirrored f ids es S a)
    (hcalls : OrderlyCalls ids (begunCalls (es ++ [.begins c call])))
    (hidle : (S.client c).point = .idle) (hfits : StepFits S (.begins c call))
    (hkept : Blind f ∨ DecodesKept S (.begins c call)) :
    Mirrored f ids (es ++ [.begins c call]) (S.set c ((S.client c).begin call))
      (a.set c (.called call)) := by
  obtain ⟨nodes, whole, F, root, R, hshared, hrows⟩ := h.shared
  have hbegun : SharedTree _ _ _ _ _ _ _ _ := hshared.begins hcalls hidle hfits (fun row hrow => by
    obtain ⟨i, v, hi, hfor⟩ := hrows.mapped row hrow
    exact hfor.key ▸ h.inserted i (by simp [hi])) h.begun
  refine h.of_moves hshared.held (.begins hidle call) hfits hkept
    ⟨nodes, whole, F, root, R, hbegun, hrows⟩
    (fun d hd => AtomicState.phase_set_ne a hd _) ?_ fun id hid => h.inserted_snoc _ hid
  rw [TreeThreadEvent.client, S.client_set_self, AtomicState.phase_set_self]
  cases call with
  | insert id value => rfl
  | lookup id => exact ⟨fun hfound => hfound.elim, fun _ => rfl, fun page hpage => by cases hpage⟩

/-- A client in no call clears its errors or its stack. -/
theorem Mirrored.idles {client : TreeClient} (h : Mirrored f ids es S a)
    (hidle : (S.client e.client).point = .idle) (hclient : client.point = .idle)
    (hmove : ∀ nodes, ThreadMoves nodes S e (S.set e.client client) nodes) (hfits : StepFits S e)
    (hkept : Blind f ∨ DecodesKept S e) : Mirrored f ids (es ++ [e]) (S.set e.client client) a := by
  obtain ⟨nodes, whole, F, root, R, hshared, hrows⟩ := h.shared
  have hheld := (hmove nodes).interleaved hshared.held hfits hshared.held.unrefused
  refine h.of_moves hshared.held (hmove nodes) hfits hkept
    ⟨nodes, whole, F, root, R, hshared.idles hidle hclient hheld, hrows⟩ (fun _ _ => rfl) ?_
    fun id hid => h.inserted_snoc _ hid
  have hagrees := h.agrees e.client
  rw [S.client_set_self]
  simp only [TreeClient.Agrees, hidle, hclient] at hagrees ⊢
  exact hagrees

/-! ### Inserts -/

omit [DecidableEq κ] in
theorem RowsFor.place {key value : Blob} {x : Bytes} (h : RowsFor m R) (hnone : m id = none)
    (hrow : RowFor id x ⟨key.bytes, value.bytes⟩) :
    RowsFor (Function.update m id (some x)) (withRow R key value) := by
  constructor
  · rintro row (rfl | hold)
    · exact ⟨id, x, Function.update_self .., hrow⟩
    · obtain ⟨i, v, hi, hfor⟩ := h.mapped row hold
      refine ⟨i, v, ?_, hfor⟩
      rwa [Function.update_of_ne]
      rintro rfl
      rw [hnone] at hi
      cases hi
  · intro i v hi
    by_cases hid : i = id
    · rw [hid, Function.update_self] at hi
      obtain rfl := Option.some.inj hi
      exact ⟨_, Or.inl rfl, hid ▸ hrow⟩
    · rw [Function.update_of_ne hid] at hi
      obtain ⟨row, hold, hfor⟩ := h.stored i v hi
      exact ⟨row, Or.inr hold, hfor⟩

omit [DecidableEq κ] in
/-- A step of an insert has an effect where it places the row, and no other step has. -/
theorem InsertMoves.effect {type : Nat} {key value : Blob} {p q : InsertPoint}
    (hmove : InsertMoves type key value nodes s p (.goto q) t nodes') (R : TreeRow → Prop)
    (f : TableReply → ρ)
    (call : TableCall) :
    rowsAfter R key value p (.goto q) = R ∧ q.phase f call = p.phase f call ∨
      rowsAfter R key value p (.goto q) = withRow R key value ∧ p.Unplaced ∧
        p.phase f call = .called call ∧
        q.phase f call = .done call (f .inserted) := by
  cases hmove with
  | place => exact Or.inr ⟨rfl, trivial, rfl, rfl⟩
  | fixRoot =>
      refine Or.inl ⟨rfl, ?_⟩
      split <;> rfl
  | fixChild =>
      refine Or.inl ⟨rfl, ?_⟩
      split <;> rfl
  | _ => exact Or.inl ⟨rfl, rfl⟩

theorem Mirrored.insertActs {whole : PageId → TreeNode} {F : Fences}
    {root : PageId} {p q : InsertPoint}
    (h : Mirrored f ids es S a) (hids : TellsIdsApart ids)
    (hshared : SharedTree (fun k => keyId k ∈ ids) (idsRank ids) R nodes whole F root S)
    (hrows : RowsFor a.value R)
    (hpoint : (S.client c).point = .insert p)
    (hmove : InsertMoves PAGE_FLAG_TABLE (S.client c).key (S.client c).value nodes
      (S.seen c) p (.goto q) t nodes')
    (hfits : StepFits S (.acts c)) (hroot : RootKept S c)
    (hkept : Blind f ∨ DecodesKept S (.acts c))
    (hT : t.Unrefused) :
    ∃ b, AtomicRun (mapObject f) a [] b ∧
      Mirrored f ids (es ++ [.acts c]) (S.after c (.insert q) t) b := by
  have hthread : ThreadMoves nodes S (.acts c) (S.after c (.insert q) t) nodes' :=
    .insertActs hpoint hmove
  have hheld := hthread.interleaved hshared.held hfits hT
  obtain ⟨whole', F', root', hshared', -⟩ :=
    hshared.insert hids.orders hpoint hmove (hfits p hpoint).1 hroot hheld
  have hserves := hshared.held.serves c
  have hagrees := h.agrees c
  simp only [TreeClient.Serves, TreeClient.Agrees, hpoint] at hserves hagrees
  obtain ⟨id, value, hinserts⟩ := hserves
  have hself : ((S.after c (.insert q) t).client c).Agrees f t (q.phase f (S.client c).call) := by
    rw [S.client_after_self]
    rfl
  have heffect := hmove.effect R f (S.client c).call
  rcases heffect with ⟨hsame, hphase⟩ | ⟨hplaced, hunplaced, hcalled, hdone⟩
  · refine ⟨a, .nil a, h.of_moves hshared.held hthread hfits hkept ⟨nodes', whole', F',
      root', R, ?_, hrows⟩
      (fun _ _ => rfl) ?_ fun id hid => h.inserted_snoc _ hid⟩
    · rw [← hsame]
      exact hshared'
    · rw [TreeThreadEvent.client, hagrees, ← hphase]
      exact hself
  · have hnone : a.value id = none := by
      refine hrows.none_of_rows fun row hrow heq => hshared.fresh c p hpoint hunplaced row hrow ?_
      rw [idsRank, idsRank, heq, hinserts.rowFor.key]
    have heffect : mapObject f a.value (S.client c).call =
        (f .inserted, Function.update a.value id (some value.bytes)) := by
      rw [hinserts.call]
      simp only [mapObject, mapCall, hnone]
    refine ⟨_, .of_step (.effect (hagrees.trans hcalled)),
      h.of_moves hshared.held hthread hfits hkept
      ⟨nodes', whole', F', root', withRow R (S.client c).key (S.client c).value, ?_, ?_⟩
      (fun d hd => AtomicState.phase_effect_ne a hd _ _) ?_ fun i hi => ?_⟩
    · rw [← hplaced]
      exact hshared'
    · rw [AtomicState.value_effect, heffect]
      exact hrows.place hnone hinserts.rowFor
    · rw [TreeThreadEvent.client, AtomicState.phase_effect_self, heffect, ← hdone]
      exact hself
    · by_cases hid : i = id
      · rw [hid]
        have hbegun := h.begun c (by simp [hpoint])
        rw [hinserts.call] at hbegun
        exact mem_insertedIds_begun (List.mem_append_left _ hbegun)
      · rw [AtomicState.value_effect, heffect] at hi
        exact h.inserted_snoc _ (by rwa [← Function.update_of_ne hid (some value.bytes) a.value])

theorem Mirrored.insertReturns {whole : PageId → TreeNode} {F : Fences}
    {root : PageId} {p : InsertPoint}
    {reply : TableReply} (h : Mirrored f ids es S a) (hids : TellsIdsApart ids)
    (hshared : SharedTree (fun k => keyId k ∈ ids) (idsRank ids) R nodes whole F root S)
    (hrows : RowsFor a.value R)
    (hpoint : (S.client c).point = .insert p)
    (hmove : InsertMoves PAGE_FLAG_TABLE (S.client c).key (S.client c).value nodes (S.seen c) p
      (.ret reply) t nodes')
    (hfits : StepFits S (.returns c (S.client c).call reply)) (hroot : RootKept S c)
    (hkept : Blind f ∨ DecodesKept S (.returns c (S.client c).call reply)) (hT : t.Unrefused) :
    ∃ b, AtomicRun (mapObject f) a [.replies c (S.client c).call (f reply)] b ∧
      Mirrored f ids (es ++ [.returns c (S.client c).call reply]) (S.after c .idle t) b := by
  have hthread : ThreadMoves nodes S (.returns c (S.client c).call reply)
      (S.after c .idle t) nodes' :=
    .insertReturns hpoint hmove
  have hheld := hthread.interleaved hshared.held hfits hT
  obtain ⟨whole', F', root', hshared', -⟩ :=
    hshared.insert hids.orders hpoint hmove (hfits p hpoint).1 hroot hheld
  have hagrees := h.agrees c
  simp only [TreeClient.Agrees, hpoint] at hagrees
  cases hmove with
  | inserted =>
      refine ⟨_, .of_step (.replies hagrees), h.of_moves hshared.held hthread hfits hkept
        ⟨nodes, whole', F', root', R, hshared', hrows⟩
          (fun d hd => AtomicState.phase_set_ne a hd _) ?_
        fun id hid => h.inserted_snoc _ hid⟩
      rw [TreeThreadEvent.client, S.client_after_self, AtomicState.phase_set_self]
      rfl

/-! ### Lookups -/

section

variable {whole : PageId → TreeNode} {F : Fences} {root : PageId}
  {page : PageRef} {p q : LookupPoint}

omit [DecidableEq κ] in
/-- A lookup finds the value of the map. -/
theorem SharedTree.finds
    (h : SharedTree (fun k => keyId k ∈ ids) (idsRank ids) R nodes whole F root S)
    (hids : TellsIdsApart ids) (hrows : RowsFor m R)
    (hpoint : (S.client c).point = .lookup (.visit page []))
    (hlooks : (S.client c).LooksUp id) (hleaf : pageIsLeaf (pageFlags (S.shared.page page)) = true)
    (hfound : (pageFindPointer (S.shared.page page) (S.client c).key).1 = true) :
    ∃ v row, m id = some v ∧ RowFor id v row ∧
      ValueStands S.shared page.id ⟨page.frame, pageCell (S.shared.page page)
        (pageFindPointer (S.shared.page page) (S.client c).key).2 + payloadGetValuePtr
        (pageFlags (S.shared.page page))
          (pageGetPayload (S.shared.page page)
            (pageFindPointer (S.shared.page page) (S.client c).key).2)⟩ row.value := by
  have hheld := h.held.holding c
  rw [hpoint] at hheld
  obtain ⟨rows, row, rows', right, hnode, -, heq, hstands⟩ :=
    h.held.pages.value_stands hheld hleaf hfound
  have hrow : R row := (h.searches hids.orders hpoint hleaf).2 _ _ hnode row (by simp)
  have hcall : (S.client c).point ≠ .idle := by simp [hpoint]
  have hrank := ((h.inOrder hids.orders hcall).eq ⟨row, hrow, rfl⟩).mp heq
  rw [idsRank_eq_iff hids (h.rows row hrow) (h.own c hcall), hlooks.keyId_bytes] at hrank
  obtain ⟨v, hv, hfor⟩ := hrows.value_of_row hrow hrank
  exact ⟨v, row, hv, hfor, hstands⟩

omit [DecidableEq κ] in
/-- Where a lookup finds nothing, the map has nothing. -/
theorem SharedTree.misses
    (h : SharedTree (fun k => keyId k ∈ ids) (idsRank ids) R nodes whole F root S)
    (hids : TellsIdsApart ids) (hrows : RowsFor m R)
    (hpoint : (S.client c).point = .lookup (.visit page []))
    (hlooks : (S.client c).LooksUp id) (hleaf : pageIsLeaf (pageFlags (S.shared.page page)) = true)
    (hmissing : (pageFindPointer (S.shared.page page) (S.client c).key).1 = false) :
    m id = none := by
  refine hrows.none_of_rows fun row hrow heq => ?_
  have hfound := (h.searches hids.orders hpoint hleaf).1 row hrow
      (by rw [idsRank, idsRank, heq, hlooks.keyId_bytes])
  rw [hmissing] at hfound
  cases hfound

/-- A step of a lookup: the map keeps its value, and the lookup may have its effect. -/
theorem Mirrored.lookupActs (h : Mirrored f ids es S a) (hids : TellsIdsApart ids)
    (hshared : SharedTree (fun k => keyId k ∈ ids) (idsRank ids) R nodes whole F root S)
    (hrows : RowsFor a.value R)
    (hpoint : (S.client c).point = .lookup p)
    (hmove : LookupMoves (S.client c).key (S.seen c) p (.goto q) t)
    (hfits : StepFits S (.acts c)) (hroot : RootKept S c)
    (hkept : Blind f ∨ DecodesKept S (.acts c))
    (hT : t.Unrefused) :
    ∃ b, AtomicRun (mapObject f) a [] b ∧
      Mirrored f ids (es ++ [.acts c]) (S.after c (.lookup q) t) b := by
  have hthread : ThreadMoves nodes S (.acts c) (S.after c (.lookup q) t) nodes :=
    .lookupActs hpoint hmove
  have hheld := hthread.interleaved hshared.held hfits hT
  have hshared' := hshared.lookup hids.orders hpoint hmove hroot hheld
  have hserves := hshared.held.serves c
  have hagrees := h.agrees c
  simp only [TreeClient.Serves, TreeClient.Agrees, hpoint] at hserves hagrees
  obtain ⟨id, hlooks⟩ := hserves
  obtain ⟨hreports, hcalled, -⟩ := hagrees
  have hstays (hself : ((S.after c (.lookup q) t).client c).Agrees f t (a.phase c)) :
      ∃ b, AtomicRun (mapObject f) a [] b ∧
        Mirrored f ids (es ++ [.acts c]) (S.after c (.lookup q) t) b :=
    ⟨a, .nil a, h.of_moves hshared.held hthread hfits hkept ⟨nodes, whole, F, root, R, hshared',
      hrows⟩ (fun _ _ => rfl)
      hself fun i hi => h.inserted_snoc _ hi⟩
  have heffect {r : TableReply} (hphase : a.phase c = .called (S.client c).call)
      (hmap : mapCall a.value (.lookup id) = (r, a.value))
      (hself : ((S.after c (.lookup q) t).client c).Agrees f t (.done (S.client c).call (f r))) :
      ∃ b, AtomicRun (mapObject f) a [] b ∧
        Mirrored f ids (es ++ [.acts c]) (S.after c (.lookup q) t) b := by
    have hresult : mapObject f a.value (S.client c).call = (f r, a.value) := by
      rw [hlooks.call, mapObject, hmap]
    refine ⟨_, .of_step (.effect hphase), h.of_moves hshared.held hthread hfits hkept
      ⟨nodes, whole, F, root, R, hshared', ?_⟩ (fun d hd => AtomicState.phase_effect_ne a hd _ _) ?_
        fun i hi => ?_⟩
    · rw [AtomicState.value_effect, hresult]
      exact hrows
    · rw [TreeThreadEvent.client, AtomicState.phase_effect_self, hresult]
      exact hself
    · rw [AtomicState.value_effect, hresult] at hi
      exact h.inserted_snoc _ hi
  rw [S.client_after_self] at hstays heffect
  cases hmove with
  | @found page hleaf hfound =>
      obtain ⟨v, row, hv, hfor, hstands⟩ := hshared.finds hids hrows hpoint hlooks hleaf hfound
      have hmap : mapCall a.value (.lookup id) = (.found v, a.value) := by
        rw [mapCall, hv]
      refine heffect (hcalled not_false) hmap ⟨fun _ => ?_, fun hno => absurd trivial hno,
        fun page hpage => by cases hpage⟩
      exact ⟨id, v, hlooks.call, rfl, Or.inr ⟨row, hfor, hstands⟩⟩
  | @missing page err hleaf hmissing herr =>
      have hmap : mapCall a.value (.lookup id) = (.failed ENOENT, a.value) := by
        rw [mapCall, hshared.misses hids hrows hpoint hlooks hleaf hmissing]
      exact heffect (hcalled not_false) hmap ⟨fun hno => hno.elim, fun _ => rfl, fun _ _ => herr⟩
  | @exitFound page ptr =>
      obtain ⟨i, v, hcall, hphase, hvalue⟩ := hreports trivial
      refine hstays ⟨fun _ => ⟨i, v, hcall, hphase, ?_⟩, fun hno => absurd trivial hno,
        fun page hpage => by cases hpage⟩
      refine hvalue.imp (fun hblind => hblind) fun hold => ?_
      obtain ⟨row, hfor, hold⟩ := hold
      refine ⟨row, hfor, ?_⟩
      have hmove : LookupMoves (S.client c).key (S.seen c) (.exit page (some ptr))
          (.goto (.decode ptr)) _ := .exitFound
      exact (hmove.stillFinds trivial hold).2
  | _ =>
      exact hstays ⟨fun hno => hno.elim, fun _ => hcalled not_false,
        fun page hpage => by cases hpage⟩

theorem Mirrored.lookupReturns {reply : TableReply} (h : Mirrored f ids es S a)
    (hids : TellsIdsApart ids)
    (hshared : SharedTree (fun k => keyId k ∈ ids) (idsRank ids) R nodes whole F root S)
    (hrows : RowsFor a.value R)
    (hpoint : (S.client c).point = .lookup p)
    (hmove : LookupMoves (S.client c).key (S.seen c) p (.ret reply) t)
    (hfits : StepFits S (.returns c (S.client c).call reply)) (hroot : RootKept S c)
    (hkept : Blind f ∨ DecodesKept S (.returns c (S.client c).call reply)) (hT : t.Unrefused) :
    ∃ b, AtomicRun (mapObject f) a [.replies c (S.client c).call (f reply)] b ∧
      Mirrored f ids (es ++ [.returns c (S.client c).call reply]) (S.after c .idle t) b := by
  have hthread : ThreadMoves nodes S (.returns c (S.client c).call reply)
      (S.after c .idle t) nodes :=
    .lookupReturns hpoint hmove
  have hheld := hthread.interleaved hshared.held hfits hT
  have hshared' := hshared.lookup hids.orders hpoint hmove hroot hheld
  have hagrees := h.agrees c
  simp only [TreeClient.Agrees, hpoint] at hagrees
  obtain ⟨hreports, hphase, herr⟩ := hagrees
  have hdone : a.phase c = .done (S.client c).call (f reply) := by
    cases hmove with
    | @exitMissing page =>
        rw [hphase not_false, LookupPoint.phase]
        exact congrArg (fun code => Phase.done (S.client c).call (f (.failed code)))
          (herr page rfl).symm
    | @decode ptr =>
        obtain ⟨i, v, hcall, hdone, hblind | ⟨row, hfor, page, hstands⟩⟩ := hreports trivial
        · rw [hdone, hblind]
        · have hread := hfor.value _ hstands.read
          rw [hdone, ← hread]
          rfl
  refine ⟨_, .of_step (.replies hdone), h.of_moves hshared.held hthread hfits hkept
    ⟨nodes, whole, F, root, R, hshared', hrows⟩ (fun d hd => AtomicState.phase_set_ne a hd _) ?_
    fun id hid => h.inserted_snoc _ hid⟩
  rw [TreeThreadEvent.client, S.client_after_self, AtomicState.phase_set_self]
  rfl

end

/-! ### Runs -/

/-- A fitting step in which a client that fixes the root finds it to be the root still. -/
def RootedStep (S : TreeThreads κ) (e : TreeThreadEvent κ) (T : TreeThreads κ) : Prop :=
  RootKept S e.client ∧ FittingStep S e T

theorem Mirrored.step (h : Mirrored f ids es S a)
    (hcalls : OrderlyCalls ids (begunCalls (es ++ [e])))
    (hstep : RootedStep S e T) (hkept : Blind f ∨ DecodesKept S e) :
    ∃ b, AtomicRun (mapObject f) a (e.see f).toList b ∧ Mirrored f ids (es ++ [e]) T b := by
  obtain ⟨hroot, hfits, hstep⟩ := hstep
  have hshared := h.shared
  obtain ⟨nodes, whole, F, root, R, hshared, hrows⟩ := hshared
  have hT := hstep.unrefused hshared.held.unrefused
  obtain ⟨nodes', hmove⟩ := hshared.held.moves hfits hstep
  cases hmove with
  | @begins c hidle call =>
      have hagrees := h.agrees c
      simp only [TreeClient.Agrees, hidle] at hagrees
      exact ⟨_, .of_step (.calls hagrees call), h.begins hcalls hidle hfits hkept⟩
  | insertActs hpoint hmove =>
      exact h.insertActs hcalls.apart hshared hrows hpoint hmove hfits hroot hkept hT
  | insertReturns hpoint hmove =>
      exact h.insertReturns hcalls.apart hshared hrows hpoint hmove hfits hroot hkept hT
  | lookupActs hpoint hmove =>
      exact h.lookupActs hcalls.apart hshared hrows hpoint hmove hfits hroot hkept hT
  | lookupReturns hpoint hmove =>
      exact h.lookupReturns hcalls.apart hshared hrows hpoint hmove hfits hroot hkept hT
  | @errorClear c hidle =>
      exact ⟨a, .nil a, h.idles (e := .errorClear c) hidle hidle
        (fun _ => .errorClear hidle) hfits hkept⟩
  | @scratch c hidle stack =>
      exact ⟨a, .nil a, h.idles (e := .scratch c stack) hidle hidle
        (fun _ => .scratch hidle stack) hfits hkept⟩

omit [DecidableEq κ] in
/-- A new table is the empty map, and its clients are in no call. -/
theorem TreeThreads.Starts.mirrored {s₀ : Sys} (hstart : S.Starts s₀)
    (hcreated : TreeCreated PAGE_FLAG_TABLE s₀)
    (hsize : sizeofHeader ≤ s₀.tree.pageSize) (hs : s₀.Unrefused) (f : TableReply → ρ)
    (ids : List Nat) :
    Mirrored f ids [] S (.fresh κ TableCall ρ fun _ => none) := by
  obtain ⟨F, hshared⟩ := hstart.sharedTree hcreated hsize hs (fun k => keyId k ∈ ids) (idsRank ids)
  refine ⟨⟨_, _, F, _, _, hshared, fun _ hrow => hrow.elim, fun _ _ hm => by cases hm⟩,
    fun c => ?_, fun c hcall => ?_, fun id hid => absurd rfl hid⟩
  · rw [TreeClient.Agrees, hstart.idle]
    rfl
  · exact absurd (hstart.idle c) hcall

/-- What is seen of a run is seen of a run of the atomic map. -/
theorem atomic_of_run {s₀ : Sys} (hcreated : TreeCreated PAGE_FLAG_TABLE s₀)
    (hsize : sizeofHeader ≤ s₀.tree.pageSize)
    (hs : s₀.Unrefused) (hstart : S.Starts s₀) (hcalls : OrderlyCalls ids (begunCalls es))
    (hrun : Run (fun S e T => (Blind f ∨ DecodesKept S e) ∧ RootedStep S e T) S es T) :
    ∃ b, AtomicRun (mapObject f) (.fresh κ TableCall ρ fun _ => none)
      (es.filterMap (TreeThreadEvent.see f)) b := by
  obtain ⟨b, hatomic, -⟩ := AtomicRun.of_run (I := fun es S a => Mirrored f ids es S a) hrun
    (fun pre S e T a hpre h hstep => h.step (hcalls.of_initial (hpre.filterMap _)) hstep.2 hstep.1)
    (hstart.mirrored hcreated hsize hs f ids)
  exact ⟨b, hatomic⟩

/-- What is seen of a reply but for the value. -/
def TableReply.hidden : TableReply → TableReply
  | .found _ => .found []
  | reply => reply

/-- Splits and all, the clients of a table see what the clients of an atomic map see, but
for the values: what is found and what is not is linearizable. -/
theorem found_ids_are_linearizable {s₀ : Sys} (hcreated : TreeCreated PAGE_FLAG_TABLE s₀)
    (hsize : sizeofHeader ≤ s₀.tree.pageSize) (hs : s₀.Unrefused) (hstart : S.Starts s₀)
    (hcalls : OrderlyCalls ids (begunCalls es)) (hrun : Run RootedStep S es T) :
    ∃ b, AtomicRun (mapObject TableReply.hidden) (.fresh κ TableCall TableReply fun _ => none)
      (es.filterMap (TreeThreadEvent.see TableReply.hidden)) b :=
  atomic_of_run hcreated hsize hs hstart hcalls
    (hrun.mono fun _ _ _ hstep => ⟨Or.inl fun _ _ => rfl, hstep⟩)

/-- A lookup that begins after an insert of its id has returned finds it. -/
def InsertsKept (es : List (TreeThreadEvent κ)) : Prop :=
  ∀ pre post rest c d id value reply, es = pre ++ .begins d (.lookup id) ::
    (post ++ .returns d (.lookup id) reply :: rest) →
    .returns c (.insert id value) .inserted ∈ pre → (∀ e ∈ post, e.client = d → e = .acts d) →
      ∃ v, reply = .found v

/-- The value that an insert which has returned has left in the map is there for every call
that begins later. -/
theorem mapObject_reply_after {value : Blob} {reply : ρ}
    {pre mid post rest : List (CallEvent κ TableCall ρ)}
    (hf : f (.failed EEXIST) ≠ f .inserted)
    (h : AtomicRun (mapObject f) (.fresh κ TableCall ρ fun _ => none)
      (pre ++ .replies c (.insert id value) (f .inserted) ::
        (mid ++ .calls d (.lookup id) :: (post ++ .replies d (.lookup id) reply :: rest))) b)
    (hpost : ∀ x ∈ post, x.client ≠ d) : reply = f (.found value.bytes) := by
  have hkeep (m : RowMap) (call : TableCall) (hm : m id = some value.bytes) :
      (mapObject f m call).2 id = some value.bytes := by
    cases call with
    | lookup i =>
        cases hi : m i <;> simp only [mapObject, mapCall, hi, hm]
    | insert i x =>
        cases hi : m i with
        | some v => simp only [mapObject, mapCall, hi, hm]
        | none =>
            have hne : id ≠ i := by
              rintro rfl
              rw [hm] at hi
              cases hi
            simp only [mapObject, mapCall, hi]
            rwa [Function.update_of_ne hne]
  have hmakes (m : RowMap) (hm : (mapObject f m (.insert id value)).1 = f .inserted) :
      (mapObject f m (.insert id value)).2 id = some value.bytes := by
    cases hi : m id with
    | some v =>
        simp only [mapObject, mapCall, hi] at hm
        exact absurd hm hf
    | none =>
        simp only [mapObject, mapCall, hi]
        exact Function.update_self ..
  obtain ⟨m, hm, hreply⟩ := h.reply_after hkeep hmakes hpost
  rw [hreply]
  simp only [mapObject, mapCall, hm]

/-- No insert is lost, as long as every client that fixes the root finds it to be the root still. -/
theorem inserts_are_kept {s₀ : Sys} (hcreated : TreeCreated PAGE_FLAG_TABLE s₀)
    (hsize : sizeofHeader ≤ s₀.tree.pageSize)
    (hs : s₀.Unrefused) (hstart : S.Starts s₀) (hcalls : OrderlyCalls ids (begunCalls es))
    (hrun : Run RootedStep S es T) :
    InsertsKept es := by
  rintro pre post rest c d id value reply rfl hreturned hpost
  obtain ⟨pre, mid, rfl⟩ := List.append_of_mem hreturned
  have hblind : Blind TableReply.hidden := fun _ _ => rfl
  obtain ⟨b, hatomic⟩ := atomic_of_run hcreated hsize hs hstart hcalls
      (hrun.mono fun _ _ _ hstep => ⟨Or.inl hblind, hstep⟩)
  simp only [List.filterMap_append, List.filterMap_cons, TreeThreadEvent.see, List.append_assoc,
    List.cons_append] at hatomic
  have hfound := mapObject_reply_after (by simp [TableReply.hidden]) hatomic fun x hx => ?_
  · cases reply with
    | found v => exact ⟨v, rfl⟩
    | inserted => cases hfound
    | failed code => cases hfound
  · obtain ⟨e, he, hsee⟩ := List.mem_filterMap.mp hx
    intro hd
    have hclient : e.client = d := by
      cases e <;> cases hsee <;> exact hd
    rw [hpost e he hclient] at hsee
    cases hsee

end

/-! ### Computed runs -/

instance (ids : List Nat) (calls : List TableCall) : Decidable (OrderlyCalls ids calls) :=
  decidable_of_iff (TellsIdsApart ids ∧ (∀ call ∈ calls, call.id ∈ ids) ∧ (insertedIds calls).Nodup)
    ⟨fun h => ⟨h.1, h.2.1, h.2.2⟩, fun h => ⟨h.apart, h.ids, h.distinct⟩⟩

/-- A client only makes steps of a lookup of this id, until it is told that it is not there. -/
def isMissed (c : Bool) (id : Nat) : List (TreeThreadEvent Bool) → Bool
  | [.returns d (.lookup i) (.failed _)] => d = c && i = id
  | .acts d :: es => d = c && isMissed c id es
  | _ => false

theorem isMissed_eq_true {c : Bool} {id : Nat} {es : List (TreeThreadEvent Bool)}
    (h : isMissed c id es = true) :
    ∃ post code, es = post ++ [.returns c (.lookup id) (.failed code)] ∧
      ∀ e ∈ post, e = .acts c := by
  induction es with
  | nil => cases h
  | cons e es ih =>
      unfold isMissed at h
      split at h
      · rename_i heq
        cases heq
        simp only [Bool.and_eq_true, decide_eq_true_eq] at h
        obtain ⟨rfl, rfl⟩ := h
        exact ⟨[], _, rfl, List.forall_mem_nil _⟩
      · rename_i heq
        cases heq
        simp only [Bool.and_eq_true, decide_eq_true_eq] at h
        obtain ⟨rfl, h⟩ := h
        obtain ⟨post, code, rfl, hpost⟩ := ih h
        exact ⟨.acts _ :: post, code, rfl, List.forall_mem_cons.mpr ⟨rfl, hpost⟩⟩
      · cases h

/-- An insert of this id has returned before, and the last call is a lookup that misses it. -/
def isLost (id : Nat) : Bool → List (TreeThreadEvent Bool) → Bool
  | _, [] => false
  | returned, .returns _ (.insert i _) .inserted :: es => isLost id (returned || i = id) es
  | returned, .begins d (.lookup i) :: es =>
      returned && i = id && isMissed d id es || isLost id returned es
  | returned, _ :: es => isLost id returned es

theorem isLost_eq_true {id : Nat} {returned : Bool} {es : List (TreeThreadEvent Bool)}
    (h : isLost id returned es = true) :
    ∃ pre d post code, es = pre ++ .begins d (.lookup id) ::
      (post ++ [.returns d (.lookup id) (.failed code)]) ∧
      (returned = true ∨ ∃ c value, .returns c (.insert id value) .inserted ∈ pre) ∧
      ∀ e ∈ post, e = .acts d := by
  induction es generalizing returned with
  | nil => cases h
  | cons e es ih =>
      have hlater {pre : List (TreeThreadEvent Bool)}
          (h : ∃ c value, .returns c (.insert id value) .inserted ∈ pre) :
          ∃ c value, .returns c (.insert id value) .inserted ∈ e :: pre := by
        obtain ⟨c, value, hmem⟩ := h
        exact ⟨c, value, List.mem_cons_of_mem _ hmem⟩
      unfold isLost at h
      split at h
      · rename_i heq
        cases heq
      · rename_i heq
        cases heq
        obtain ⟨pre, d, post, code, rfl, hreturned, hpost⟩ := ih h
        refine ⟨_ :: pre, d, post, code, rfl, ?_, hpost⟩
        rcases hreturned with hreturned | hreturned
        · simp only [Bool.or_eq_true, decide_eq_true_eq] at hreturned
          rcases hreturned with hreturned | rfl
          · exact Or.inl hreturned
          · exact Or.inr ⟨_, _, List.mem_cons_self ..⟩
        · exact Or.inr (hlater hreturned)
      · rename_i heq
        cases heq
        simp only [Bool.or_eq_true, Bool.and_eq_true, decide_eq_true_eq] at h
        rcases h with ⟨⟨hreturned, rfl⟩, hmissed⟩ | h
        · obtain ⟨post, code, rfl, hpost⟩ := isMissed_eq_true hmissed
          exact ⟨[], _, post, code, rfl, Or.inl hreturned, hpost⟩
        · obtain ⟨pre, d, post, code, rfl, hreturned, hpost⟩ := ih h
          exact ⟨_ :: pre, d, post, code, rfl, hreturned.imp_right hlater, hpost⟩
      · rename_i heq
        cases heq
        obtain ⟨pre, d, post, code, rfl, hreturned, hpost⟩ := ih h
        exact ⟨_ :: pre, d, post, code, rfl, hreturned.imp_right hlater, hpost⟩

theorem not_insertsKept_of_isLost {id : Nat} {es : List (TreeThreadEvent Bool)}
    (h : isLost id false es = true) :
    ¬ InsertsKept es := by
  intro hkept
  obtain ⟨pre, d, post, code, heq, hreturned, hpost⟩ := isLost_eq_true h
  obtain ⟨c, value, hmem⟩ := hreturned.resolve_left Bool.false_ne_true
  obtain ⟨v, hv⟩ := hkept pre post [] c d id value _ heq hmem fun e he _ => hpost e he
  cases hv

/-- The leaf of a value is split before the value is decoded, and the value of another id is
reported. -/
theorem found_ids_are_linearizable_once : ∃ (S : TreeThreads Bool)
    (es : List (TreeThreadEvent Bool)) (T : TreeThreads Bool)
    (b : AtomicState Bool RowMap TableCall TableReply), Run RootedStep S es T ∧
      lastFound es = some (3, List.replicate 8 1) ∧
      AtomicRun (mapObject TableReply.hidden) (.fresh Bool TableCall TableReply fun _ => none)
        (es.filterMap (TreeThreadEvent.see TableReply.hidden)) b := by
  obtain ⟨s₀, es, T, hcreated, hs, hrun, hp⟩ := exists_played
    (callTurns true (.insert 3 (Blob.ofBytes (List.replicate 8 3))) 5 ++
      callTurns true (.insert 2 (Blob.ofBytes (List.replicate 8 2))) 5 ++
      callTurns true (.insert 1 (Blob.ofBytes (List.replicate 8 1))) 5 ++
        callTurns false (.lookup 3) 4 ++
      callTurns true (.insert 4 (Blob.ofBytes (List.replicate 8 4))) 10 ++ [(false, none)])
    (fun S e => decide (StepFits S e) && decide (RootKept S e.client))
    (fun s₀ es _ => decide (s₀.tree.pageSize = 52) &&
      decide (lastFound es = some (3, List.replicate 8 1)) &&
      decide (OrderlyCalls [1, 2, 3, 4] (begunCalls es)))
    ⟨52, 16, ⟨0, 1, 2⟩, freshSys 52 16, _, by decide, rfl⟩ (by decide) (by decide +kernel)
  simp only [Bool.and_eq_true, decide_eq_true_eq] at hp hrun
  obtain ⟨⟨hsize, hlast⟩, hcalls⟩ := hp
  have hrooted : Run RootedStep _ es T := hrun.mono fun _ _ _ h => ⟨h.1.2, h.1.1, h.2⟩
  obtain ⟨b, hatomic⟩ := found_ids_are_linearizable hcreated (by rw [hsize]; decide) hs
      (TreeThreads.starts_ofTree s₀)
    hcalls hrooted
  exact ⟨_, es, T, b, hrooted, hlast, hatomic⟩

/-- The root is split while another insert has begun and has not read the root. -/
theorem inserts_are_kept_once : ∃ (S : TreeThreads Bool) (es : List (TreeThreadEvent Bool))
    (T : TreeThreads Bool), Run RootedStep S es T ∧ T.shared.tree.root ≠ S.shared.tree.root ∧
    lastFound es = some (3, List.replicate 8 3) ∧
      InsertsKept es := by
  obtain ⟨s₀, es, T, hcreated, hs, hrun, hp⟩ := exists_played
    (callTurns true (.insert 1 (Blob.ofBytes (List.replicate 8 1))) 5 ++
      callTurns true (.insert 2 (Blob.ofBytes (List.replicate 8 2))) 5 ++
      callTurns false (.insert 3 (Blob.ofBytes (List.replicate 8 3))) 0 ++
      callTurns true (.insert 4 (Blob.ofBytes (List.replicate 8 4))) 10 ++
        List.replicate 10 (false, none) ++
      callTurns true (.lookup 3) 8)
    (fun S e => decide (StepFits S e) && decide (RootKept S e.client))
    (fun s₀ es T => decide (s₀.tree.pageSize = 40) && decide (T.shared.tree.root ≠ s₀.tree.root) &&
      decide (lastFound es = some (3, List.replicate 8 3)) &&
        decide (OrderlyCalls [1, 2, 3, 4] (begunCalls es)))
    ⟨40, 16, ⟨0, 1, 2⟩, freshSys 40 16, _, by decide, rfl⟩ (by decide) (by decide +kernel)
  simp only [Bool.and_eq_true, decide_eq_true_eq] at hp hrun
  obtain ⟨⟨⟨hsize, hroot⟩, hlast⟩, hcalls⟩ := hp
  have hrooted : Run RootedStep _ es T := hrun.mono fun _ _ _ h => ⟨h.1.2, h.1.1, h.2⟩
  exact ⟨_, es, T, hrooted, hroot, hlast, inserts_are_kept hcreated (by rw [hsize]; decide) hs
    (TreeThreads.starts_ofTree s₀) hcalls hrooted⟩

/-- An insert that has read the root and fixes it after another one has split it is lost. -/
theorem insert_below_old_root_is_lost : ¬ ∀ (s₀ : Sys) (S T : TreeThreads Bool)
    (es : List (TreeThreadEvent Bool)) (ids : List Nat), TreeCreated PAGE_FLAG_TABLE s₀ →
    sizeofHeader ≤ s₀.tree.pageSize → s₀.Unrefused → S.Starts s₀ →
    OrderlyCalls ids (begunCalls es) → Run FittingStep S es T → InsertsKept es := by
  intro h
  obtain ⟨s₀, es, T, hcreated, hs, hrun, hp⟩ := exists_played
    (callTurns true (.insert 1 (Blob.ofBytes (List.replicate 8 1))) 5 ++
      callTurns true (.insert 2 (Blob.ofBytes (List.replicate 8 2))) 5 ++
      callTurns false (.insert 3 (Blob.ofBytes (List.replicate 8 3))) 1 ++
      callTurns true (.insert 4 (Blob.ofBytes (List.replicate 8 4))) 10 ++
        List.replicate 4 (false, none) ++
      callTurns true (.lookup 3) 7)
    (fun S e => decide (StepFits S e))
    (fun s₀ es _ => decide (s₀.tree.pageSize = 40) &&
      decide (OrderlyCalls [1, 2, 3, 4] (begunCalls es)) &&
      isLost 3 false es)
    ⟨40, 16, ⟨0, 1, 2⟩, freshSys 40 16, _, by decide, rfl⟩ (by decide) (by decide +kernel)
  simp only [Bool.and_eq_true, decide_eq_true_eq] at hp hrun
  obtain ⟨⟨hsize, hcalls⟩, hlost⟩ := hp
  exact not_insertsKept_of_isLost hlost (h s₀ _ T es _ hcreated (by rw [hsize]; decide) hs
    (TreeThreads.starts_ofTree s₀)
    hcalls hrun)

end Wednesday
