import Wednesday.TreeMoves

/-!
Clients of one tree, step by step. In every state they reach, the pages stand for
nodes, and the pages of each client are latched for it alone.
-/

namespace Wednesday

open Lib Prog Pager FenceTree

/-! ### Conditions on a run -/

section

variable {κ : Type}

/-- An insert fits on the pages of its way, and its key is on none of them. -/
def WayFits (S : TreeThreads κ) (c : κ) : Prop :=
  ∀ p, (S.client c).point = .insert p →
    p.Fits (S.client c).key (S.client c).value (S.seen c) ∧ p.New (S.client c).key (S.seen c)

/-- The client of an insert has no error recorded, and ids and sizes fit their varints. -/
def StepFits (S : TreeThreads κ) : TreeThreadEvent κ → Prop
  | .begins c (.insert id value) =>
      id < 2 ^ 56 ∧ value.size < 2 ^ 56 ∧ errorGetCode (S.client c).err = 0
  | .begins _ (.lookup id) => id < 2 ^ 56
  | .acts c => WayFits S c
  | .returns c _ _ => WayFits S c
  | .errorClear _ => True
  | .scratch _ _ => True

instance (s : Sys) (n : Nat) : Decidable (s.Spare n) :=
  decidable_of_iff (s.pager.pageCount + n < s.pager.size ∧ n + s.pager.nextPage < 2 ^ 32)
    ⟨fun h => ⟨h.1, h.2⟩, fun h => ⟨h.frames, h.ids⟩⟩

instance (page : Mem) (size : Nat) : Decidable (NotCompacted page size) :=
  inferInstanceAs (Decidable (_ → _))

instance (key value : Blob) (s : Sys) : (p : InsertPoint) → Decidable (p.Fits key value s)
  | .readRoot => inferInstanceAs (Decidable True)
  | .fixRoot _ => inferInstanceAs (Decidable True)
  | .splitRoot _ => inferInstanceAs (Decidable (s.Spare 1))
  | .newRoot _ _ _ => inferInstanceAs (Decidable (s.Spare 1))
  | .setRoot _ _ _ _ => inferInstanceAs (Decidable True)
  | .visit _ _ [] => inferInstanceAs (Decidable (_ → NotCompacted _ _))
  | .visit _ _ (_ :: _) => inferInstanceAs (Decidable True)
  | .fixChild _ _ _ _ => inferInstanceAs (Decidable True)
  | .splitChild _ _ _ _ => inferInstanceAs (Decidable (_ ∧ NotCompacted _ _))
  | .exit _ _ _ => inferInstanceAs (Decidable True)

instance (key : Blob) (s : Sys) : (p : InsertPoint) → Decidable (p.New key s)
  | .visit _ _ [] => inferInstanceAs (Decidable (_ = false))
  | .visit _ _ (_ :: _) => inferInstanceAs (Decidable True)
  | .readRoot => inferInstanceAs (Decidable True)
  | .fixRoot _ => inferInstanceAs (Decidable True)
  | .splitRoot _ => inferInstanceAs (Decidable True)
  | .newRoot _ _ _ => inferInstanceAs (Decidable True)
  | .setRoot _ _ _ _ => inferInstanceAs (Decidable True)
  | .fixChild _ _ _ _ => inferInstanceAs (Decidable True)
  | .splitChild _ _ _ _ => inferInstanceAs (Decidable True)
  | .exit _ _ _ => inferInstanceAs (Decidable True)

instance (S : TreeThreads κ) (c : κ) : Decidable (WayFits S c) :=
  match hpoint : (S.client c).point with
  | .insert p =>
      decidable_of_iff (p.Fits (S.client c).key (S.client c).value (S.seen c) ∧
          p.New (S.client c).key (S.seen c)) <| by
        simp [WayFits, hpoint]
  | .idle => .isTrue fun p h => by simp [hpoint] at h
  | .lookup _ => .isTrue fun p h => by simp [hpoint] at h

instance (S : TreeThreads κ) : (e : TreeThreadEvent κ) → Decidable (StepFits S e)
  | .begins _ (.insert _ _) => inferInstanceAs (Decidable (_ ∧ _ ∧ _))
  | .begins _ (.lookup _) => inferInstanceAs (Decidable (_ < _))
  | .acts c => inferInstanceAs (Decidable (WayFits S c))
  | .returns c _ _ => inferInstanceAs (Decidable (WayFits S c))
  | .errorClear _ => inferInstanceAs (Decidable True)
  | .scratch _ _ => inferInstanceAs (Decidable True)

/-- A step under the condition on the state it is made in. -/
def FittingStep [DecidableEq κ] (S : TreeThreads κ) (e : TreeThreadEvent κ)
    (T : TreeThreads κ) : Prop :=
  StepFits S e ∧ TreeThreadStep S e T

/-- The client inserts this row. -/
structure TreeClient.Inserts (c : TreeClient) (id : Nat) (value : Blob) : Prop where
  call : c.call = .insert id value
  short : id < 2 ^ 56
  small : value.size < 2 ^ 56
  buffers : ∃ stack, c.key = tableKey stack id ∧ c.value = tableValue stack value

/-- The client looks this id up. -/
structure TreeClient.LooksUp (c : TreeClient) (id : Nat) : Prop where
  call : c.call = .lookup id
  short : id < 2 ^ 56
  buffer : ∃ stack, c.key = tableKey stack id

/-- The buffers of a client in a call are those of the call. -/
def TreeClient.Serves (c : TreeClient) : Prop :=
  match c.point with
  | .idle => True
  | .insert _ => ∃ id value, c.Inserts id value
  | .lookup _ => ∃ id, c.LooksUp id

/-- What a client knows of the nodes at its point. -/
def TreeClient.Knows (c : TreeClient) (nodes : PageId → TreeNode) (s : Sys) : Prop :=
  match c.point with
  | .idle => True
  | .insert p => errorGetCode c.err = 0 ∧ p.Knows PAGE_FLAG_TABLE c.key nodes s
  | .lookup p => p.Knows c.key nodes s

/-- The pages stand for nodes, and a latched page is that of one client. -/
structure Interleaved (nodes : PageId → TreeNode) (S : TreeThreads κ) : Prop where
  pages : PagesHold PAGE_FLAG_TABLE nodes S.shared
  unrefused : S.shared.Unrefused
  holding : ∀ c, Holding (S.client c).point.held S.shared
  apart : ∀ c d, c ≠ d → ∀ p ∈ (S.client c).point.held, ∀ q ∈ (S.client d).point.held, p.id ≠ q.id
  latched : ∀ id f, id ≠ 0 → S.shared.pager.locate id = some f →
    (S.shared.pager.header f).latch ≠ 0 →
    ∃ c, ∃ q ∈ (S.client c).point.held, q.id = id
  serves : ∀ c, (S.client c).Serves
  knows : ∀ c, (S.client c).Knows nodes S.shared

/-! ### The moves of the clients -/

variable [DecidableEq κ]

/-- The process after a step that left one client like this. -/
def TreeThreads.put (S : TreeThreads κ) (c : κ) (client : TreeClient) (t : Sys) : TreeThreads κ :=
  { shared := t, client := Function.update S.client c client }

@[simp] theorem TreeThreads.shared_put (S : TreeThreads κ) (c : κ) (client : TreeClient) (t : Sys) :
    (S.put c client t).shared = t := rfl

@[simp] theorem TreeThreads.client_put_self (S : TreeThreads κ) (c : κ)
  (client : TreeClient) (t : Sys) :
    (S.put c client t).client c = client := Function.update_self ..

theorem TreeThreads.client_put_ne (S : TreeThreads κ) {c d : κ} (hne : d ≠ c)
    (client : TreeClient) (t : Sys) :
    (S.put c client t).client d = S.client d := Function.update_of_ne hne ..

@[simp] theorem TreeThreads.client_set_self (S : TreeThreads κ) (c : κ) (client : TreeClient) :
    (S.set c client).client c = client := Function.update_self ..

@[simp] theorem TreeThreads.client_after_self (S : TreeThreads κ) (c : κ)
  (p : TreePoint) (t : Sys) :
    (S.after c p t).client c = { S.client c with err := t.err, stack := t.stack, point := p } :=
      Function.update_self ..

/-- A step of one client, and what it does to the nodes. -/
inductive ThreadMoves (nodes : PageId → TreeNode) (S : TreeThreads κ) :
    TreeThreadEvent κ → TreeThreads κ → (PageId → TreeNode) → Prop where
  | begins {c : κ} (hidle : (S.client c).point = .idle) (call : TableCall) :
      ThreadMoves nodes S (.begins c call) (S.set c ((S.client c).begin call)) nodes
  | insertActs {c : κ} {p q : InsertPoint} {t : Sys} {nodes' : PageId → TreeNode}
      (hpoint : (S.client c).point = .insert p)
      (hmove : InsertMoves PAGE_FLAG_TABLE (S.client c).key (S.client c).value nodes (S.seen c) p
        (.goto q) t nodes') :
      ThreadMoves nodes S (.acts c) (S.after c (.insert q) t) nodes'
  | insertReturns {c : κ} {p : InsertPoint} {reply : TableReply} {t : Sys}
      {nodes' : PageId → TreeNode}
      (hpoint : (S.client c).point = .insert p)
      (hmove : InsertMoves PAGE_FLAG_TABLE (S.client c).key (S.client c).value nodes (S.seen c) p
        (.ret reply) t nodes') :
      ThreadMoves nodes S (.returns c (S.client c).call reply) (S.after c .idle t) nodes'
  | lookupActs {c : κ} {p q : LookupPoint} {t : Sys} (hpoint : (S.client c).point = .lookup p)
      (hmove : LookupMoves (S.client c).key (S.seen c) p (.goto q) t) :
      ThreadMoves nodes S (.acts c) (S.after c (.lookup q) t) nodes
  | lookupReturns {c : κ} {p : LookupPoint} {reply : TableReply} {t : Sys}
      (hpoint : (S.client c).point = .lookup p)
      (hmove : LookupMoves (S.client c).key (S.seen c) p (.ret reply) t) :
      ThreadMoves nodes S (.returns c (S.client c).call reply) (S.after c .idle t) nodes
  | errorClear {c : κ} (hidle : (S.client c).point = .idle) :
      ThreadMoves nodes S (.errorClear c)
        (S.set c { S.client c with err := errorClear (S.client c).err }) nodes
  | scratch {c : κ} (hidle : (S.client c).point = .idle) (stack : Mem) :
      ThreadMoves nodes S (.scratch c stack) (S.set c { S.client c with stack := stack }) nodes

end

/-! ### Nothing is refused -/

section

variable {α : Type} {I : Sys → Prop} {key value : Blob} {s t : Sys}

theorem Kept.retFailure : Preserves I (retFailure : Call (TreeNext α)) :=
  preserves_get.bind fun _ => preserves_pure _

theorem Kept.insertStep (h : Kept I) (key value : Blob) (p : InsertPoint) :
    Preserves I (insertStep key value p) := by
  cases p with
  | readRoot => exact preserves_get.bind fun _ => preserves_pure _
  | fixRoot id =>
      refine Preserves.recover ((h.tryCall (h.fix _)).bind fun _ => ?_) Kept.retFailure
      exact Preserves.bind (preserves_modify fun t ht => h.cleanups t _ ht) fun _ =>
          (Kept.readPage _).bind fun _ =>
        preserves_pure _
  | splitRoot root =>
      exact Preserves.recover ((h.tryCall h.next).bind fun _ => (h.splitPage _ _).bind
        fun _ => preserves_pure _)
        (preserves_pure _)
  | newRoot root split splitKey =>
      refine Preserves.recover ((h.tryCall h.next).bind fun _ => preserves_get.bind fun s => ?_)
        (preserves_pure _)
      exact (Kept.readPage _).bind fun _ => (Kept.readPage _).bind fun _ => (h.write _ _).bind
        fun _ => preserves_pure _
  | setRoot root split new splitKey =>
      refine Preserves.bind (preserves_modify fun t ht => h.tree t _ ht) fun _ => ?_
      split
      · exact preserves_pure _
      · exact preserves_pure _
  | visit root page leave =>
      cases leave with
      | cons q leave => exact (h.unfix _).bind fun _ => preserves_pure _
      | nil =>
          refine (Kept.readPage _).bind fun header => ?_
          split
          · exact Preserves.recover ((h.insertLeaf _ _ _).bind fun _ => preserves_pure _)
              (preserves_pure _)
          · refine (preserves_assert _ _).bind fun _ => ?_
            split
            · exact Preserves.recover (h.failure _ _ _) (preserves_pure _)
            · exact (preserves_assert _ _).bind fun _ => preserves_pure _
  | fixChild root parent index next =>
      exact Preserves.recover ((h.tryCall (h.fix _)).bind fun _ => (Kept.readPage _).bind
        fun _ => preserves_pure _)
        (preserves_pure _)
  | splitChild root parent page index =>
      refine Preserves.recover ((h.tryCall h.next).bind fun _ => (h.splitPage _ _).bind fun _ =>
        (h.insertInner _ _ _ _).bind fun _ => ?_) (preserves_pure _)
      split
      · exact preserves_pure _
      · exact preserves_pure _
  | exit root leave ok =>
      cases leave with
      | cons q leave => exact (h.unfix _).bind fun _ => preserves_pure _
      | nil =>
          refine (h.deferGuard _).bind fun _ => ?_
          split
          · exact preserves_pure _
          · exact Kept.retFailure

theorem Kept.lookupStep (h : Kept I) (key : Blob) (p : LookupPoint) :
    Preserves I (lookupStep key p) := by
  cases p with
  | readRoot => exact preserves_get.bind fun _ => preserves_pure _
  | fixRoot id =>
      exact Preserves.recover ((h.tryCall (h.fix _)).bind fun _ => preserves_pure _) Kept.retFailure
  | visit page leave =>
      cases leave with
      | cons q leave => exact (h.unfix _).bind fun _ => preserves_pure _
      | nil =>
          refine (Kept.readPage _).bind fun header => ?_
          dsimp only
          split
          · exact (preserves_assert _ _).bind fun _ => preserves_pure _
          · split
            · exact preserves_pure _
            · exact Preserves.recover (h.failure _ _ _) (preserves_pure _)
  | fixChild page next =>
      exact Preserves.recover ((h.tryCall (h.fix _)).bind fun _ => preserves_pure _)
        (preserves_pure _)
  | exit page ptr =>
      cases ptr with
      | some ptr => exact (h.unfix _).bind fun _ => preserves_pure _
      | none => exact (h.unfix _).bind fun _ => Kept.retFailure
  | decode ptr => exact preserves_get.bind fun _ => preserves_pure _

theorem Kept.clientStep (h : Kept I) (c : TreeClient) : Preserves I c.step := by
  unfold TreeClient.step
  split
  · exact preserves_abort _
  · exact (h.insertStep _ _ _).bind fun _ => preserves_pure _
  · exact (h.lookupStep _ _).bind fun _ => preserves_pure _

end

/-! ### The steps are moves -/

section

variable {κ : Type} {held : List PageRef} {nodes nodes' : PageId → TreeNode} {S T : TreeThreads κ}
  {e : TreeThreadEvent κ}
  {c d : κ}

/-- What is said of pages and latches is said of them as any client sees them. -/
theorem Holding.seen (h : Holding held S.shared) : Holding held (S.seen c) :=
  ⟨h.ok, h.nodup, h.there, h.latch⟩

theorem PagesHold.seen {type : Nat} (h : PagesHold type nodes S.shared) :
    PagesHold type nodes (S.seen c) :=
  h.congr rfl rfl le_rfl

theorem Sys.Unrefused.seen (h : S.shared.Unrefused) : (S.seen c).Unrefused := ⟨h.calls, h.mallocs⟩

theorem InsertPoint.Knows.seen {type : Nat} {key : Blob} {p : InsertPoint}
    (h : p.Knows type key nodes S.shared) :
    p.Knows type key nodes (S.seen c) := by
  cases p <;> exact h

theorem LookupPoint.Knows.seen {key : Blob} {p : LookupPoint} (h : p.Knows key nodes S.shared) :
    p.Knows key nodes (S.seen c) := by
  cases p <;> exact h

theorem TreeClient.Inserts.encoded {client : TreeClient} {id : Nat} {value : Blob}
    (h : client.Inserts id value) :
    KeyEncoded PAGE_FLAG_TABLE client.key.bytes ∧
      ValueEncoded PAGE_FLAG_TABLE client.value.bytes := by
  obtain ⟨stack, hkey, hvalue⟩ := h.buffers
  rw [hkey, hvalue]
  exact ⟨(tableKey_spec stack h.short).1, (tableValue_spec stack h.small).1⟩

theorem TreeClient.Inserts.rowFor {client : TreeClient} {id : Nat} {value : Blob}
    (h : client.Inserts id value) :
    RowFor id value.bytes ⟨client.key.bytes, client.value.bytes⟩ := by
  obtain ⟨stack, hkey, hvalue⟩ := h.buffers
  rw [hkey, hvalue]
  exact ⟨(tableKey_spec stack h.short).2.1, (tableValue_spec stack h.small).2.1⟩

theorem TreeClient.LooksUp.keyId {client : TreeClient} {id : Nat} (h : client.LooksUp id) :
    (varintGet client.key.data).1 = id := by
  obtain ⟨stack, hkey⟩ := h.buffer
  rw [hkey]
  exact (tableKey_spec stack h.short).2.2.1

theorem TreeClient.LooksUp.keyId_bytes {client : TreeClient} {id : Nat} (h : client.LooksUp id) :
    Wednesday.keyId client.key.bytes = id := by
  obtain ⟨stack, hkey⟩ := h.buffer
  rw [hkey]
  exact (tableKey_spec stack h.short).2.1

theorem TreeClient.Serves.keyEncoded {client : TreeClient} (h : client.Serves)
    (hcall : client.point ≠ .idle) :
    KeyEncoded PAGE_FLAG_TABLE client.key.bytes := by
  cases hpoint : client.point with
  | idle => exact absurd hpoint hcall
  | insert p =>
      simp only [TreeClient.Serves, hpoint] at h
      obtain ⟨id, value, hinserts⟩ := h
      exact hinserts.encoded.1
  | lookup p =>
      simp only [TreeClient.Serves, hpoint] at h
      obtain ⟨id, hlooks⟩ := h
      obtain ⟨stack, hkey⟩ := hlooks.buffer
      rw [hkey]
      exact (tableKey_spec stack hlooks.short).1

theorem Interleaved.wp_insert {p : InsertPoint} (h : Interleaved nodes S)
    (hpoint : (S.client c).point = .insert p)
    (hway : WayFits S c) :
    wp (S.client c).step (fun next t => ∃ n nodes', next = n.map .insert ∧
        InsertMoves PAGE_FLAG_TABLE (S.client c).key (S.client c).value nodes
          (S.seen c) p n t nodes')
      (fun _ => False) (fun _ => True) (S.seen c) := by
  have hknows := h.knows c
  have hserves := h.serves c
  simp only [TreeClient.Knows, TreeClient.Serves, hpoint] at hknows hserves
  obtain ⟨id, value, hinserts⟩ := hserves
  obtain ⟨hkey, hvalue⟩ := hinserts.encoded
  have hheld := h.holding c
  rw [hpoint] at hheld
  obtain ⟨hfits, hnew⟩ := hway p hpoint
  simp only [TreeClient.step, hpoint, wp_bind]
  refine wp_mono (wp_insertStep h.pages.seen h.unrefused.seen hknows.1 hheld.seen hknows.2.seen
    hfits hnew hkey hvalue)
    (fun next t ht => ?_) (fun _ hf => hf) fun _ hf => hf
  obtain ⟨nodes', hmove⟩ := ht
  exact ⟨next, nodes', rfl, hmove⟩

theorem Interleaved.wp_lookup {p : LookupPoint} (h : Interleaved nodes S)
    (hpoint : (S.client c).point = .lookup p) :
    wp (S.client c).step (fun next t => ∃ n, next = n.map .lookup ∧
      LookupMoves (S.client c).key (S.seen c) p n t)
      (fun _ => False) (fun _ => True) (S.seen c) := by
  have hknows := h.knows c
  simp only [TreeClient.Knows, hpoint] at hknows
  have hheld := h.holding c
  rw [hpoint] at hheld
  simp only [TreeClient.step, hpoint, wp_bind]
  exact wp_mono (wp_lookupStep h.pages.seen h.unrefused.seen hheld.seen hknows.seen)
    (fun next t ht => ⟨next, rfl, ht⟩) (fun _ hf => hf) fun _ hf => hf

theorem Interleaved.together (h : Interleaved nodes S) (hne : c ≠ d) :
    Holding ((S.client c).point.held ++ (S.client d).point.held) S.shared := by
  have hc := h.holding c
  have hd := h.holding d
  refine ⟨hc.ok, ?_, fun p hp => ?_, fun p hp => ?_⟩
  · rw [List.map_append]
    refine hc.nodup.append hd.nodup fun id hid hid' => ?_
    obtain ⟨p, hp, rfl⟩ := List.mem_map.mp hid
    obtain ⟨q, hq, heq⟩ := List.mem_map.mp hid'
    exact h.apart c d hne p hp q hq heq.symm
  · exact (List.mem_append.mp hp).elim (hc.there p) (hd.there p)
  · exact (List.mem_append.mp hp).elim (hc.latch p) (hd.latch p)

theorem TreeClient.Knows.kept {client : TreeClient} {s t : Sys} (hknows : client.Knows nodes s)
    (hkeeps : KeepsPages held s t)
    (hsame : ∀ q ∈ client.point.held, nodes' q.id = nodes q.id) : client.Knows nodes' t := by
  unfold TreeClient.Knows at hknows ⊢
  split at hknows <;> rename_i hpoint <;> rw [hpoint] at hsame
  · trivial
  · exact ⟨hknows.1, hknows.2.kept hkeeps hsame⟩
  · exact LookupPoint.Knows.kept hknows hkeeps hsame

variable [DecidableEq κ]

/-- A step of a client in a call is a move. -/
theorem Interleaved.moves (h : Interleaved nodes S) (hfits : StepFits S e)
    (hstep : TreeThreadStep S e T) :
    ∃ nodes', ThreadMoves nodes S e T nodes' := by
  cases hstep with
  | begins hidle call => exact ⟨nodes, .begins hidle call⟩
  | errorClear hidle => exact ⟨nodes, .errorClear hidle⟩
  | scratch hidle stack => exact ⟨nodes, .scratch hidle stack⟩
  | @acts c q t hstep =>
      cases hpoint : (S.client c).point with
      | idle =>
          rw [TreeClient.step, hpoint] at hstep
          cases hstep
      | insert p =>
          obtain ⟨n, nodes', hnext, hmove⟩ := (h.wp_insert hpoint hfits).success hstep
          cases n with
          | goto n =>
              cases hnext
              exact ⟨nodes', .insertActs hpoint hmove⟩
          | ret reply => cases hnext
      | lookup p =>
          obtain ⟨n, hnext, hmove⟩ := (h.wp_lookup hpoint).success hstep
          cases n with
          | goto n =>
              cases hnext
              exact ⟨nodes, .lookupActs hpoint hmove⟩
          | ret reply => cases hnext
  | @returns c reply t hstep =>
      cases hpoint : (S.client c).point with
      | idle =>
          rw [TreeClient.step, hpoint] at hstep
          cases hstep
      | insert p =>
          obtain ⟨n, nodes', hnext, hmove⟩ := (h.wp_insert hpoint hfits).success hstep
          cases n with
          | goto n => cases hnext
          | ret reply =>
              cases hnext
              exact ⟨nodes', .insertReturns hpoint hmove⟩
      | lookup p =>
          obtain ⟨n, hnext, hmove⟩ := (h.wp_lookup hpoint).success hstep
          cases n with
          | goto n => cases hnext
          | ret reply =>
              cases hnext
              exact ⟨nodes, .lookupReturns hpoint hmove⟩

theorem TreeThreadStep.unrefused (hstep : TreeThreadStep S e T) (hs : S.shared.Unrefused) :
    T.shared.Unrefused := by
  cases hstep with
  | begins _ call => exact hs
  | errorClear _ => exact hs
  | scratch _ stack => exact hs
  | acts hstep => exact (kept_unrefused.clientStep _).success hs.seen hstep
  | returns hstep => exact (kept_unrefused.clientStep _).success hs.seen hstep

/-! ### What a step keeps -/

/-- A client has made a step: what the others hold and know stays. -/
theorem Interleaved.moved {client : TreeClient} {t : Sys} (h : Interleaved nodes S)
    (ht : t.Unrefused)
    (hpages : PagesHold PAGE_FLAG_TABLE nodes' t)
    (hheld : ∀ others, Holding ((S.client c).point.held ++ others) S.shared →
      Holding (client.point.held ++ others) t)
    (hlatches : LatchesOnly (S.client c).point.held client.point.held S.shared t)
    (hkeeps : KeepsPages (S.client c).point.held S.shared t)
    (hsame : ∀ id, S.shared.pageAt id ≠ none → (∀ q ∈ (S.client c).point.held, q.id ≠ id) →
      nodes' id = nodes id)
    (hserves : client.Serves) (hknows : client.Knows nodes' t) :
    Interleaved nodes' (S.put c client t) := by
  have hself : Holding client.point.held t := by
    simpa using hheld [] (by simpa using h.holding c)
  have hother {d : κ} (hne : d ≠ c) : Holding (client.point.held ++ (S.client d).point.held) t :=
    hheld _ (h.together hne.symm)
  have hcross {d : κ} (hne : d ≠ c) : ∀ p ∈ client.point.held, ∀ q ∈ (S.client d).point.held,
      p.id ≠ q.id := by
    intro p hp q hq heq
    have hnodup := (hother hne).nodup
    rw [List.map_append, List.nodup_append] at hnodup
    exact hnodup.2.2 p.id (List.mem_map_of_mem hp) q.id (List.mem_map_of_mem hq) heq
  refine ⟨hpages, ht, fun d => ?_, fun d d' hne p hp q hq => ?_, fun id f hid hf hlatch => ?_,
    fun d => ?_, fun d => ?_⟩
  · by_cases hd : d = c
    · rwa [hd, S.client_put_self]
    · rw [S.client_put_ne hd]
      exact (hother hd).sublist (List.sublist_append_right _ _)
  · by_cases hd : d = c <;> by_cases hd' : d' = c
    · exact absurd (hd.trans hd'.symm) hne
    · rw [hd, S.client_put_self] at hp
      rw [S.client_put_ne hd'] at hq
      exact hcross hd' p hp q hq
    · rw [S.client_put_ne hd] at hp
      rw [hd', S.client_put_self] at hq
      exact (hcross hd q hq p hp).symm
    · rw [S.client_put_ne hd] at hp
      rw [S.client_put_ne hd'] at hq
      exact h.apart d d' hne p hp q hq
  · by_cases hown : ∃ q ∈ client.point.held, q.id = id
    · exact ⟨c, by simpa using hown⟩
    · obtain ⟨hne, hf', hlatch'⟩ := hlatches id f hid hf (by simpa using hown) hlatch
      obtain ⟨d, q, hq, heq⟩ := h.latched id f hid hf' hlatch'
      have hd : d ≠ c := by
        rintro rfl
        exact hne q hq heq
      exact ⟨d, q, by rwa [S.client_put_ne hd], heq⟩
  · by_cases hd : d = c
    · rwa [hd, S.client_put_self]
    · rw [S.client_put_ne hd]
      exact h.serves d
  · by_cases hd : d = c
    · rwa [hd, S.client_put_self]
    · rw [S.client_put_ne hd]
      refine (h.knows d).kept hkeeps fun q hq => hsame q.id ?_ fun p hp =>
        h.apart c d (Ne.symm hd) p hp q hq
      rw [(h.holding d).pageAt hq]
      exact Option.some_ne_none _

/-- A client in no call, or that begins one, changes nothing of what is shared. -/
theorem Interleaved.set {client : TreeClient} (h : Interleaved nodes S)
    (hidle : (S.client c).point = .idle)
    (hheld : client.point.held = []) (hserves : client.Serves)
    (hknows : client.Knows nodes S.shared) :
    Interleaved nodes (S.set c client) := by
  have hnone : (S.client c).point.held = [] := by rw [hidle, TreePoint.held]
  refine h.moved h.unrefused h.pages (fun others hothers => ?_) ?_
    ((KeepsPages.refl [] S.shared).mono (by simp))
    (fun _ _ _ => rfl) hserves hknows
  · rwa [hheld, ← hnone]
  · rw [hnone, hheld]
    exact .refl [] S.shared

/-- After a move each page is still latched for at most one client. -/
theorem ThreadMoves.interleaved (hmove : ThreadMoves nodes S e T nodes') (h : Interleaved nodes S)
    (hfits : StepFits S e)
    (hT : T.shared.Unrefused) : Interleaved nodes' T := by
  cases hmove with
  | @begins c hidle call =>
      cases call with
      | insert id value =>
          obtain ⟨hid, hsize, hclear⟩ := hfits
          exact h.set hidle rfl ⟨id, value, rfl, hid, hsize, _, rfl, rfl⟩ ⟨hclear, trivial⟩
      | lookup id => exact h.set hidle rfl ⟨id, rfl, hfits, _, rfl⟩ trivial
  | @insertActs c p q t nodes' hpoint hmove =>
      have hheld := h.holding c
      have hknows := h.knows c
      have hserves := h.serves c
      simp only [TreeClient.Knows, TreeClient.Serves, hpoint] at hheld hknows hserves
      obtain ⟨id, value, hinserts⟩ := hserves
      obtain ⟨hfits, -⟩ := hfits p hpoint
      obtain ⟨hkeeps, hsame⟩ := hmove.keeps h.pages.seen hheld.seen hknows.2.seen hfits
      refine h.moved hT (hmove.pagesHold h.pages.seen hheld.seen hknows.2.seen hfits)
        (fun others hothers => ?_) ?_ ?_ ?_
        ⟨id, value, hinserts.call, hinserts.short, hinserts.small, hinserts.buffers⟩
          ⟨?_, hmove.knows h.pages.seen hheld.seen hknows.2.seen hfits⟩
      · rw [hpoint] at hothers
        exact hmove.holding hothers.seen
      · rw [hpoint]
        exact hmove.latchesOnly hheld.seen
      · rw [hpoint]
        exact ⟨hkeeps.locate, hkeeps.pageAt, hkeeps.pageSize⟩
      · rw [hpoint]
        exact hsame
      · show errorGetCode t.err = 0
        rw [hmove.err]
        exact hknows.1
  | @insertReturns c p reply t nodes' hpoint hmove =>
      have hheld := h.holding c
      have hknows := h.knows c
      simp only [TreeClient.Knows, hpoint] at hheld hknows
      obtain ⟨hfits, -⟩ := hfits p hpoint
      obtain ⟨hkeeps, hsame⟩ := hmove.keeps h.pages.seen hheld.seen hknows.2.seen hfits
      refine h.moved hT (hmove.pagesHold h.pages.seen hheld.seen hknows.2.seen hfits)
        (fun others hothers => ?_) ?_ ?_ ?_
        trivial trivial
      · rw [hpoint] at hothers
        exact hmove.holding hothers.seen
      · rw [hpoint]
        exact hmove.latchesOnly hheld.seen
      · rw [hpoint]
        exact ⟨hkeeps.locate, hkeeps.pageAt, hkeeps.pageSize⟩
      · rw [hpoint]
        exact hsame
  | @lookupActs c p q t hpoint hmove =>
      have hheld := h.holding c
      have hknows := h.knows c
      have hserves := h.serves c
      simp only [TreeClient.Knows, TreeClient.Serves, hpoint] at hheld hknows hserves
      obtain ⟨id, hlooks⟩ := hserves
      obtain ⟨hsame, hkeeps⟩ := hmove.same h.pages.seen hheld.seen hknows.seen
      refine h.moved hT (h.pages.seen.same hsame) (fun others hothers => ?_) ?_ ?_
        (fun _ _ _ => rfl)
        ⟨id, hlooks.call, hlooks.short, hlooks.buffer⟩ (hmove.knows h.pages.seen hheld.seen)
      · rw [hpoint] at hothers
        exact hmove.holding hothers.seen
      · rw [hpoint]
        exact hmove.latchesOnly hheld.seen
      · exact KeepsPages.mono ⟨hkeeps.locate, hkeeps.pageAt, hkeeps.pageSize⟩ (by simp)
  | @lookupReturns c p reply t hpoint hmove =>
      have hheld := h.holding c
      have hknows := h.knows c
      simp only [TreeClient.Knows, hpoint] at hheld hknows
      obtain ⟨hsame, hkeeps⟩ := hmove.same h.pages.seen hheld.seen hknows.seen
      refine h.moved hT (h.pages.seen.same hsame) (fun others hothers => ?_) ?_ ?_
        (fun _ _ _ => rfl) trivial trivial
      · rw [hpoint] at hothers
        exact hmove.holding hothers.seen
      · rw [hpoint]
        exact hmove.latchesOnly hheld.seen
      · exact KeepsPages.mono ⟨hkeeps.locate, hkeeps.pageAt, hkeeps.pageSize⟩ (by simp)
  | @errorClear c hidle =>
      refine h.set hidle ?_ ?_ ?_
      · rw [hidle, TreePoint.held]
      · simp only [TreeClient.Serves, hidle]
      · simp only [TreeClient.Knows, hidle]
  | @scratch c hidle stack =>
      refine h.set hidle ?_ ?_ ?_
      · rw [hidle, TreePoint.held]
      · simp only [TreeClient.Serves, hidle]
      · simp only [TreeClient.Knows, hidle]

/-! ### Runs -/

omit [DecidableEq κ] in
theorem TreeThreads.Starts.interleaved {s₀ : Sys} (hstart : S.Starts s₀)
    (hcreated : TreeCreated PAGE_FLAG_TABLE s₀)
    (hsize : sizeofHeader ≤ s₀.tree.pageSize) (hs : s₀.Unrefused) :
    Interleaved (fun _ => .leaf [] 0) S := by
  obtain ⟨rfl, hidle⟩ := hstart
  have hone := hcreated.oneLeaf
  have hnone (c : κ) : (S.client c).point.held = [] := by rw [hidle, TreePoint.held]
  refine ⟨hone.pagesHold (Or.inl rfl) hsize, hs, fun c => ?_, fun c d _ p hp => ?_,
    fun id f hid hf hlatch => ?_, fun c => ?_, fun c => ?_⟩
  · rw [hnone]
    exact .nil hcreated.pagerOk
  · rw [hnone] at hp
    cases hp
  · exact absurd (hone.quiet id f hid hf (by simp)) hlatch
  · simp only [TreeClient.Serves, hidle]
  · simp only [TreeClient.Knows, hidle]

theorem interleaved_of_run {s₀ : Sys} {es : List (TreeThreadEvent κ)}
    (hcreated : TreeCreated PAGE_FLAG_TABLE s₀)
    (hsize : sizeofHeader ≤ s₀.tree.pageSize) (hs : s₀.Unrefused) (hstart : S.Starts s₀)
    (hrun : Run FittingStep S es T) :
    ∃ nodes, Interleaved nodes T := by
  refine Run.invariant (I := fun T => ∃ nodes, Interleaved nodes T) (fun S e T h hstep => ?_)
    ⟨_, hstart.interleaved hcreated hsize hs⟩ hrun
  obtain ⟨nodes, h⟩ := h
  obtain ⟨nodes', hmove⟩ := h.moves hstep.1 hstep.2
  exact ⟨nodes', hmove.interleaved h hstep.1 (hstep.2.unrefused h.unrefused)⟩

/-- In every state the clients reach, a page they hold is in its frame, latched for one of
them; no other page is latched; and every page stands for a node whose links lead to pages. -/
theorem pages_are_held_apart {s₀ : Sys} {es : List (TreeThreadEvent κ)}
    (hcreated : TreeCreated PAGE_FLAG_TABLE s₀)
    (hsize : sizeofHeader ≤ s₀.tree.pageSize) (hs : s₀.Unrefused) (hstart : S.Starts s₀)
    (hrun : Run FittingStep S es T) :
    (∀ c, ∀ p ∈ (T.client c).point.held,
      T.shared.pager.locate p.id = some p.frame ∧ (T.shared.pager.header p.frame).latch = -1) ∧
    (∀ c d, ∀ p ∈ (T.client c).point.held, ∀ q ∈ (T.client d).point.held, p.id = q.id → c = d) ∧
    (∀ id f, id ≠ 0 → T.shared.pager.locate id = some f → (T.shared.pager.header f).latch ≠ 0 →
      ∃ c, ∃ q ∈ (T.client c).point.held, q.id = id) ∧
    ∃ nodes, PagesHold PAGE_FLAG_TABLE nodes T.shared := by
  obtain ⟨nodes, h⟩ := interleaved_of_run hcreated hsize hs hstart hrun
  refine ⟨fun c p hp => ⟨((h.holding c).there p hp).2, (h.holding c).latch p hp⟩,
    fun c d p hp q hq heq => ?_, h.latched, nodes, h.pages⟩
  by_contra hne
  exact h.apart c d hne p hp q hq heq

/-! ### Computed runs -/

/-- Two clients of a new table, one after the other as the schedule says. -/
def played (pageSize : Nat) (ok : TreeThreads Bool → TreeThreadEvent Bool → Bool)
    (turns : List (Bool × Option TableCall)) :
    Option (Sys × List (TreeThreadEvent Bool) × TreeThreads Bool) := do
  let s₀ ← createdTree PAGE_FLAG_TABLE pageSize 16
  let (es, S) ← (TreeThreads.ofTree Bool s₀).play ok turns
  some (s₀, es, S)

theorem exists_played {pageSize : Nat} (turns : List (Bool × Option TableCall))
    (ok : TreeThreads Bool → TreeThreadEvent Bool → Bool)
    (p : Sys → List (TreeThreadEvent Bool) → TreeThreads Bool → Bool)
    (hopen : PagerOpened (freshSys pageSize 16)) (hsize : pageSize < 65536)
    (h : (played pageSize ok turns).any (fun x => p x.1 x.2.1 x.2.2) = true) :
    ∃ s₀ es S, TreeCreated PAGE_FLAG_TABLE s₀ ∧ s₀.Unrefused ∧
      Run (fun S e T => ok S e = true ∧ TreeThreadStep S e T) (TreeThreads.ofTree Bool s₀) es S ∧
        p s₀ es S = true := by
  obtain ⟨⟨s₀, es, S⟩, hsome, hp⟩ := Option.any_eq_true _ _ |>.mp h
  simp only [played, Option.bind_eq_bind, Option.bind_eq_some_iff, Option.some.injEq, Prod.mk.injEq,
    Prod.exists] at hsome
  obtain ⟨_, hcreated, _, _, hplay, rfl, rfl, rfl⟩ := hsome
  have hfresh : (freshSys pageSize 16).Unrefused := ⟨fun _ => rfl, fun _ => rfl⟩
  exact ⟨_, _, _, treeCreated_of_createdTree hopen hsize hcreated,
    unrefused_of_createdTree hfresh hcreated, run_of_play hplay, hp⟩

/-- A client makes all the steps of a call. -/
def callTurns (c : Bool) (call : TableCall) (steps : Nat) : List (Bool × Option TableCall) :=
  (c, some call) :: List.replicate steps (c, none)

end

/-- One client has fixed the root to split it, while the other one waits for it. -/
theorem pages_are_held_apart_once : ∃ (S : TreeThreads Bool) (p : PageRef),
    p ∈ (S.client true).point.held ∧ (S.client false).step (S.seen false) = .fault .hang ∧
      S.shared.pager.locate p.id = some p.frame ∧ (S.shared.pager.header p.frame).latch = -1 ∧
      p ∉ (S.client false).point.held := by
  obtain ⟨s₀, es, S, hcreated, hs, hrun, hp⟩ := exists_played
    (callTurns true (.insert 1 (Blob.ofBytes (List.replicate 8 1))) 5 ++
      callTurns true (.insert 2 (Blob.ofBytes (List.replicate 8 2))) 5 ++
      callTurns true (.insert 3 (Blob.ofBytes (List.replicate 8 3))) 3 ++
        callTurns false (.lookup 1) 1)
    (fun S e => decide (StepFits S e))
    (fun s₀ _ S => decide (s₀.tree.pageSize = 40) &&
      decide ((S.client true).point.held.length = 2) &&
      decide (((S.client false).step (S.seen false)).fault? = some .hang))
    ⟨40, 16, ⟨0, 1, 2⟩, freshSys 40 16, _, by decide, rfl⟩ (by decide) (by decide +kernel)
  simp only [Bool.and_eq_true, decide_eq_true_eq, Outcome.fault?_eq_some] at hp
  obtain ⟨⟨hsize, hheld⟩, hhang⟩ := hp
  obtain ⟨p, hp⟩ := List.exists_mem_of_length_pos (hheld ▸ Nat.zero_lt_two)
  obtain ⟨hthere, happart, -⟩ := pages_are_held_apart hcreated (by rw [hsize]; decide) hs
      (TreeThreads.starts_ofTree s₀)
    (hrun.mono fun _ _ _ h => (⟨of_decide_eq_true h.1, h.2⟩ : FittingStep _ _ _))
  exact ⟨S, p, hp, hhang, (hthere true p hp).1, (hthere true p hp).2, fun hq => by
    cases happart true false p hp p hq rfl⟩

end Wednesday
