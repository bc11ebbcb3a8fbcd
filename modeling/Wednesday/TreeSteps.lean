import Wednesday.TreeAtomic

/-!
How long calls take. For each level of the tree a client makes at most five steps, and the
tree has no more levels than inserts have begun. So a call ends after a bounded number of
steps of its own, whatever the other clients do in the meantime.
-/

namespace Wednesday

open Lib Prog Pager FenceTree

/-! ### What is left to do -/

/-- The insert may put a page above the root. -/
def InsertPoint.MayRaise : InsertPoint → Prop
  | .readRoot => True
  | .fixRoot _ => True
  | .splitRoot _ => True
  | .newRoot _ _ _ => True
  | _ => False

/-- The page an insert goes on from. -/
def InsertPoint.page (key : Blob) : InsertPoint → Option PageId
  | .splitRoot root => some root.id
  | .newRoot root _ _ => some root.id
  | .setRoot root split _ splitKey => some (halves key splitKey root split).1.id
  | .visit _ page _ => some page.id
  | .fixChild _ parent _ _ => some parent.id
  | .splitChild _ parent _ _ => some parent.id
  | _ => none

/-- The steps an insert makes at most before it returns, from a page on this level, in a
tree that gets no more than `m` levels. -/
def InsertPoint.work (m level : Nat) : InsertPoint → Nat
  | .readRoot => 5 * m + 4
  | .fixRoot _ => 5 * m + 3
  | .splitRoot _ => 5 * level + 7
  | .newRoot _ _ _ => 5 * level + 6
  | .setRoot _ _ _ _ => 5 * level + 5
  | .visit _ _ leave => 5 * level + 2 + leave.length
  | .fixChild _ _ _ _ => 5 * level + 1
  | .splitChild _ _ _ _ => 5 * level
  | .exit _ leave _ => leave.length

def LookupPoint.page : LookupPoint → Option PageId
  | .visit page _ => some page.id
  | .fixChild page _ => some page.id
  | _ => none

def LookupPoint.work (m level : Nat) : LookupPoint → Nat
  | .readRoot => 3 * m + 4
  | .fixRoot _ => 3 * m + 3
  | .visit _ leave => 3 * level + 2 + leave.length
  | .fixChild _ _ => 3 * level + 1
  | .exit _ (some _) => 1
  | .exit _ none => 0
  | .decode _ => 0

def TreePoint.page (key : Blob) : TreePoint → Option PageId
  | .idle => none
  | .insert p => p.page key
  | .lookup p => p.page

def TreePoint.work (m level : Nat) : TreePoint → Nat
  | .idle => 0
  | .insert p => p.work m level
  | .lookup p => p.work m level

/-- The steps a client has made that has not fixed the root yet. -/
def TreePoint.before : TreePoint → Option Nat
  | .insert .readRoot => some 0
  | .insert (.fixRoot _) => some 1
  | .lookup .readRoot => some 0
  | .lookup (.fixRoot _) => some 1
  | _ => none

/-- The level of a page, if there is one. -/
def Fences.levelOf (F : Fences) (page : Option PageId) : Nat := (page.map F.level).getD 0

def TreeClient.work (c : TreeClient) (F : Fences) (m : Nat) : Nat :=
  c.point.work m (F.levelOf (c.point.page c.key))

section

variable {κ : Type} {K : Bytes → Prop} {rank : Bytes → Nat} {R : TreeRow → Prop}
  {nodes nodes' whole : PageId → TreeNode}
  {F F' : Fences} {root id : PageId} {S T : TreeThreads κ} {c d : κ} {s t : Sys} {m : Nat}

/-! ### Levels -/

theorem Fenced.level_le (h : Fenced rank R nodes F s) (id : PageId) : F.level id ≤ F.height := by
  cases hplace : F.place id with
  | none =>
      rw [Fences.level, hplace]
      exact Nat.zero_le _
  | some p =>
      rw [F.level_eq hplace]
      exact h.tree.level id p hplace

theorem Fenced.levelOf_le (h : Fenced rank R nodes F s) (page : Option PageId) :
    F.levelOf page ≤ F.height := by
  cases page with
  | none => exact Nat.zero_le _
  | some id => exact h.level_le id

theorem Covers.placed {k : Bytes} (h : Covers rank F k id) : F.place id ≠ none := by
  obtain ⟨p, hp, -⟩ := h
  rw [hp]
  exact Option.some_ne_none p

/-- The page a client goes on from is in the tree. -/
theorem SharedTree.page_placed (h : SharedTree K rank R nodes whole F root S)
    (hid : (S.client c).point.page (S.client c).key = some id) : F.place id ≠ none := by
  have hroot : F.place root ≠ none := (h.fenced.covers_root []).placed
  have honTree := h.onTree c
  cases hpoint : (S.client c).point with
  | idle =>
      rw [hpoint] at hid
      cases hid
  | insert p =>
      simp only [TreeClient.OnTree, hpoint, TreePoint.page] at honTree hid
      cases p with
      | splitRoot top =>
          cases hid
          obtain ⟨-, heq⟩ := h.wholeNodes.of_root_held h.held (not_replaces hpoint not_false)
              (q := top) (by
            rw [hpoint]
            exact List.mem_singleton_self top) honTree
          rwa [show top.id = root from honTree.trans heq.symm]
      | newRoot top split splitKey =>
          cases hid
          obtain ⟨-, -, -, -, heq⟩ := h.wholeNodes.of_halved h.held hpoint honTree
          rwa [show top.id = root from honTree.trans heq.symm]
      | setRoot top split new splitKey =>
          cases hid
          exact honTree.2.placed
      | visit top page leave =>
          cases hid
          exact Covers.placed honTree
      | fixChild top parent index next =>
          cases hid
          exact Covers.placed honTree
      | splitChild top parent page index =>
          cases hid
          exact Covers.placed honTree
      | readRoot => cases hid
      | fixRoot _ => cases hid
      | exit _ _ _ => cases hid
  | lookup p =>
      simp only [TreeClient.OnTree, hpoint, TreePoint.page] at honTree hid
      cases p with
      | visit page leave =>
          cases hid
          exact Covers.placed honTree
      | fixChild page next =>
          cases hid
          exact Covers.placed honTree
      | readRoot => cases hid
      | fixRoot _ => cases hid
      | exit _ _ => cases hid
      | decode _ => cases hid

/-- Where the pages keep their levels, the others have as much to do as before. -/
theorem SharedTree.work_kept (h : SharedTree K rank R nodes whole F root S)
    (hlevels : ∀ id, F.place id ≠ none → F'.level id = F.level id) (d : κ) :
    (S.client d).work F' m = (S.client d).work F m := by
  rw [TreeClient.work, TreeClient.work]
  cases hpage : (S.client d).point.page (S.client d).key with
  | none => rfl
  | some id =>
      rw [Fences.levelOf, Fences.levelOf, Option.map_some, Option.map_some,
        hlevels id (h.page_placed hpage)]

/-- The child a search has found is one level down. -/
theorem SharedTree.child_level {parent : PageRef} {pre post : List TreeSep} {right : PageId}
    (h : SharedTree K rank R nodes whole F root S) (ho : Orders K rank)
    (hcall : (S.client c).point ≠ .idle)
    (hc : ∀ p, (S.client c).point = .insert p → ¬ p.Replaces)
    (hmem : parent ∈ (S.client c).point.held)
    (hcovers : Covers rank F (S.client c).key.bytes parent.id)
    (henters : Enters (nodes parent.id) (varintGet (S.client c).key.data).1 pre post right) :
    F.place (childOf post right) ≠ none ∧ F.level (childOf post right) + 1 = F.level parent.id := by
  have hwhole : whole parent.id = nodes parent.id := h.wholeNodes.eq_of_held h.held hc hmem
  obtain ⟨p, q, hp, -, hq, hlevel, -⟩ :=
    h.fenced.enters (h.inOrder ho hcall) hcovers (hwhole.symm ▸ henters)
  refine ⟨?_, ?_⟩
  · rw [hq]
    exact Option.some_ne_none q
  · rw [F.level_eq hp, F.level_eq hq, hlevel]

/-! ### Steps -/

/-- A step that may still raise the tree comes after one that may. -/
theorem InsertMoves.mayRaise {type : Nat} {key value : Blob} {p q : InsertPoint}
    (hmove : InsertMoves type key value nodes s p (.goto q) t nodes') (hq : q.MayRaise) :
    p.MayRaise ∧ p.raises = 0 := by
  cases hmove with
  | readRoot => exact ⟨trivial, rfl⟩
  | fixRoot _ _ => exact ⟨trivial, rfl⟩
  | splitRoot _ _ _ => exact ⟨trivial, rfl⟩
  | fixChild _ _ =>
      split at hq
      · exact hq.elim
      · exact hq.elim
  | _ => exact hq.elim

/-- The root is fixed in the second step of a call. -/
theorem InsertMoves.before {type : Nat} {key value : Blob} {p q : InsertPoint} {n : Nat}
    (hmove : InsertMoves type key value nodes s p (.goto q) t nodes')
    (hq : (TreePoint.insert q).before = some n) :
    ∃ k, (TreePoint.insert p).before = some k ∧ n = k + 1 := by
  cases hmove with
  | readRoot =>
      cases hq
      exact ⟨0, rfl, rfl⟩
  | fixRoot _ _ => split at hq <;> cases hq
  | fixChild _ _ => split at hq <;> cases hq
  | _ => cases hq

theorem LookupMoves.before {key : Blob} {p q : LookupPoint} {n : Nat}
    (hmove : LookupMoves key s p (.goto q) t)
    (hq : (TreePoint.lookup q).before = some n) :
    ∃ k, (TreePoint.lookup p).before = some k ∧ n = k + 1 := by
  cases hmove with
  | readRoot =>
      cases hq
      exact ⟨0, rfl, rfl⟩
  | _ => cases hq

/-- The page an insert that has halved one goes on with is one of the halves. -/
theorem halves_id (key splitKey : Blob) (page split : PageRef) :
    (halves key splitKey page split).1.id = page.id ∨
    (halves key splitKey page split).1.id = split.id := by
  rcases halves_mem key splitKey page split with ⟨heq, -⟩ | ⟨heq, -⟩
  · exact Or.inl (by rw [heq])
  · exact Or.inr (by rw [heq])

/-- A step of an insert leaves less to do. -/
theorem SharedTree.insert_work {p q : InsertPoint} (h : SharedTree K rank R nodes whole F root S)
    (ho : Orders K rank)
    (hpoint : (S.client c).point = .insert p)
    (hmove : InsertMoves PAGE_FLAG_TABLE (S.client c).key (S.client c).value nodes
      (S.seen c) p (.goto q) t nodes')
    (hkept : LevelsKept p (S.seen c) F F')
    (hbelow : F'.levelOf (q.page (S.client c).key) ≤ F'.height)
    (hheight : ∀ id, p = .fixRoot id → F.height + 1 ≤ m) :
    q.work m (F'.levelOf (q.page (S.client c).key)) <
      p.work m (F.levelOf (p.page (S.client c).key)) := by
  have honTree := h.onTree c
  have hknows := h.held.knows c
  simp only [TreeClient.OnTree, TreeClient.Knows, hpoint] at honTree hknows
  have hc (hp : ¬ p.Replaces) : ∀ p, (S.client c).point = .insert p → ¬ p.Replaces :=
    not_replaces hpoint hp
  have hplaced (id : PageId) (hid : p.page (S.client c).key = some id) : F'.level id = F.level id :=
    hkept.levels id (h.page_placed (by rw [hpoint]; exact hid))
  cases hmove with
  | readRoot =>
      simp only [InsertPoint.work]
      omega
  | fixRoot _ _ =>
      have hlt := hheight _ rfl
      have hsame : F'.height = F.height := hkept.height
      split at hbelow <;> rename_i hsplit <;>
        simp only [hsplit, if_true, if_false, Bool.false_eq_true, InsertPoint.work, List.length_nil]
      · omega
      · omega
  | @splitRoot top split t hid hfix hcut =>
      have hlevel := hplaced top.id rfl
      simp only [InsertPoint.page, Fences.levelOf, Option.map_some, Option.getD_some,
        InsertPoint.work] at hlevel ⊢
      omega
  | @newRoot top split new splitKey t hid hfix =>
      have hlevel := hplaced top.id rfl
      have hsibling := hkept.siblings top.id split.id rfl
      simp only [InsertPoint.page, Fences.levelOf, Option.map_some,
        Option.getD_some, InsertPoint.work]
      rcases halves_id (S.client c).key splitKey top split with heq | heq
      · rw [heq]
        omega
      · rw [heq]
        omega
  | @setRoot top split new splitKey =>
      have hlevel := hplaced ((halves (S.client c).key splitKey top split).1.id) rfl
      simp only [InsertPoint.page, Fences.levelOf, Option.map_some, Option.getD_some,
        InsertPoint.work, List.length_cons, List.length_nil]
      omega
  | @leave top page r leave =>
      have hlevel := hplaced page.id rfl
      simp only [InsertPoint.page, Fences.levelOf, Option.map_some, Option.getD_some,
        InsertPoint.work, List.length_cons]
      omega
  | place hleaf hdata hplaced =>
      simp only [InsertPoint.work, List.length_cons, List.length_nil]
      omega
  | @search top page index hinner hsearch =>
      have hlevel := hplaced page.id rfl
      simp only [InsertPoint.page, Fences.levelOf, Option.map_some,
        Option.getD_some, InsertPoint.work]
      omega
  | @fixChild top parent page index next t hid hfix =>
      have hlevel := hplaced parent.id rfl
      obtain ⟨pre, post, right, hchild⟩ := hknows.2 page hid
      obtain ⟨hthere, hdown⟩ := h.child_level ho (by simp [hpoint]) (hc not_false)
        (by simp [hpoint, TreePoint.held, InsertPoint.held]) honTree hchild.enters
      rw [← hchild.child] at hthere hdown
      have hsame := hkept.levels page.id hthere
      split at hbelow <;> rename_i hsplit <;>
        simp only [hsplit, if_true, if_false, Bool.false_eq_true, InsertPoint.page, Fences.levelOf,
          Option.map_some, Option.getD_some, InsertPoint.work, List.length_cons, List.length_nil]
      · omega
      · omega
  | @splitChild top parent page split t pre post right data hid hfix hchild hcut hdata =>
      obtain ⟨hthere, hdown⟩ := h.child_level ho (by simp [hpoint]) (hc not_false)
        (by simp [hpoint, TreePoint.held, InsertPoint.held]) honTree hchild.enters
      rw [← hchild.child] at hthere hdown
      have hsame := hkept.levels page.id hthere
      have hsibling : F'.level split.id = F'.level page.id :=
        hkept.siblings page.id split.id (by rw [hid]; rfl)
      simp only [InsertPoint.page, Fences.levelOf, Option.map_some, Option.getD_some,
        InsertPoint.work, List.length_cons, List.length_nil]
      rcases halves_id (S.client c).key ((S.seen c).splitKey page split.id) page
        split with heq | heq
      · rw [heq]
        omega
      · rw [heq]
        omega
  | release =>
      simp only [InsertPoint.work, List.length_cons]
      omega

/-- A step of a lookup leaves less to do. -/
theorem SharedTree.lookup_work {p q : LookupPoint} (h : SharedTree K rank R nodes whole F root S)
    (ho : Orders K rank)
    (hpoint : (S.client c).point = .lookup p)
    (hmove : LookupMoves (S.client c).key (S.seen c) p (.goto q) t)
    (hheight : ∀ id, p = .fixRoot id → F.height ≤ m) :
    q.work m (F.levelOf q.page) < p.work m (F.levelOf p.page) := by
  have honTree := h.onTree c
  have hknows := h.held.knows c
  simp only [TreeClient.OnTree, TreeClient.Knows, hpoint] at honTree hknows
  cases hmove with
  | readRoot =>
      simp only [LookupPoint.work]
      omega
  | @fixRoot id page t hid hfix =>
      have hle := h.fenced.level_le page.id
      have hheight := hheight id rfl
      simp only [LookupPoint.page, Fences.levelOf, Option.map_some, Option.getD_some,
        LookupPoint.work, List.length_nil]
      omega
  | leave =>
      simp only [LookupPoint.page, LookupPoint.work, List.length_cons]
      omega
  | descend hinner =>
      simp only [LookupPoint.page, LookupPoint.work, List.length_nil]
      omega
  | found hleaf hfound =>
      simp only [LookupPoint.work, List.length_nil]
      omega
  | missing hleaf hfound he =>
      simp only [LookupPoint.work, List.length_nil]
      omega
  | @fixChild page child next t hid hfix =>
      obtain ⟨pre, post, right, henters, rfl⟩ := hknows
      obtain ⟨-, hdown⟩ := h.child_level ho (by simp [hpoint]) (by simp [hpoint])
        (by simp [hpoint, TreePoint.held, LookupPoint.held]) honTree henters
      simp only [LookupPoint.page, Fences.levelOf, Option.map_some, Option.getD_some,
        LookupPoint.work, List.length_cons, List.length_nil]
      rw [hid]
      omega
  | exitFound =>
      simp only [LookupPoint.work]
      omega

end

/-! ### Runs -/

section

variable {κ : Type} [DecidableEq κ]

/-- The steps of a client in its last call, after one more event. -/
def countStep (c : κ) (n : Nat) : TreeThreadEvent κ → Nat
  | .begins d _ => if d = c then 0 else n
  | .acts d => if d = c then n + 1 else n
  | .returns _ _ _ => n
  | .errorClear _ => n
  | .scratch _ _ => n

/-- The steps a client has made in its last call, before the one that returns. -/
def callSteps (c : κ) (es : List (TreeThreadEvent κ)) : Nat := es.foldl (countStep c) 0

/-- How often an insert has begun. -/
def insertsBegun (es : List (TreeThreadEvent κ)) : Nat := (insertedIds (begunCalls es)).length

/-- The pages are a search tree that has grown by the inserts that have begun. -/
structure Grown (ids : List Nat) (es : List (TreeThreadEvent κ)) (S : TreeThreads κ)
    (F : Fences) : Prop where
  shared : ∃ nodes whole root R, SharedTree (fun k => keyId k ∈ ids)
    (idsRank ids) R nodes whole F root S ∧
    ∀ row, R row → keyId row.key ∈ insertedIds (begunCalls es)
  begun : ∀ c, (S.client c).point ≠ .idle → .begins c (S.client c).call ∈ es
  raised : ∃ raising : Finset κ, (∀ c p, (S.client c).point = .insert p →
    p.MayRaise → c ∈ raising) ∧
    F.height + raising.card ≤ insertsBegun es
  started : ∀ c n, (S.client c).point.before = some n → callSteps c es = n

/-- What the client has done and what it has to do are not more than a call takes. -/
def Paced (m : Nat) (c : κ) (es : List (TreeThreadEvent κ)) (S : TreeThreads κ)
    (F : Fences) : Prop :=
  callSteps c es + (S.client c).work F m ≤ 5 * m + 4

/-- The number counts all inserts that have begun, or the client has fixed the root and goes on
with its call. -/
def Counts (m : Nat) (c : κ) (es : List (TreeThreadEvent κ)) (S : TreeThreads κ)
    (e : TreeThreadEvent κ) : Prop :=
  insertsBegun es ≤ m ∨ (e.client = c → e = .acts c ∧ (S.client c).point.before = none)

variable {ids : List Nat} {m : Nat} {es : List (TreeThreadEvent κ)} {S T : TreeThreads κ}
  {F F' : Fences}
  {e : TreeThreadEvent κ} {c d : κ} {call : TableCall} {nodes nodes' whole : PageId → TreeNode}
    {root : PageId}
  {R R' : TreeRow → Prop} {t : Sys}

theorem callSteps_snoc (c : κ) (es : List (TreeThreadEvent κ)) (e : TreeThreadEvent κ) :
    callSteps c (es ++ [e]) = countStep c (callSteps c es) e := List.foldl_append

theorem callSteps_snoc_ne (hd : d ≠ e.client) (es : List (TreeThreadEvent κ)) :
    callSteps d (es ++ [e]) = callSteps d es := by
  rw [callSteps_snoc]
  cases e with
  | begins c call => exact if_neg (Ne.symm hd)
  | acts c => exact if_neg (Ne.symm hd)
  | _ => rfl

omit [DecidableEq κ] in
theorem insertedIds_begun_snoc (es : List (TreeThreadEvent κ)) (e : TreeThreadEvent κ) :
    insertedIds (begunCalls (es ++ [e])) = insertedIds (begunCalls es) ++
      insertedIds (begunCalls [e]) := by
  rw [begunCalls_snoc, insertedIds, List.filterMap_append]
  rfl

omit [DecidableEq κ] in
theorem insertsBegun_snoc (es : List (TreeThreadEvent κ)) (e : TreeThreadEvent κ) :
    insertsBegun (es ++ [e]) = insertsBegun es + insertsBegun [e] := by
  rw [insertsBegun, insertedIds_begun_snoc, List.length_append]
  rfl

/-- A step of one client: the others have made and have to make as many steps as before. -/
theorem Grown.of_moves (h : Grown ids es S F)
    (hshared : SharedTree (fun k => keyId k ∈ ids) (idsRank ids) R nodes whole F root S)
    (hmove : ThreadMoves nodes S e T nodes')
    (hshared' : ∃ whole' root', SharedTree (fun k => keyId k ∈ ids)
      (idsRank ids) R' nodes' whole' F' root' T)
    (hrows : ∀ row, R' row → keyId row.key ∈ insertedIds (begunCalls (es ++ [e])))
    (hlevels : ∀ id, F.place id ≠ none → F'.level id = F.level id)
    (hraised : ∃ raising : Finset κ, (∀ c p, (T.client c).point = .insert p →
      p.MayRaise → c ∈ raising) ∧
      F'.height + raising.card ≤ insertsBegun (es ++ [e]))
    (hstarted : ∀ n, (T.client e.client).point.before = some n → callSteps e.client (es ++ [e]) = n)
    (hpaced : ∀ m, Counts m e.client es S e → Paced m e.client es S F →
      Paced m e.client (es ++ [e]) T F') :
    Grown ids (es ++ [e]) T F' ∧ ∀ m c, Counts m c es S e → Paced m c es S F →
      Paced m c (es ++ [e]) T F' := by
  obtain ⟨whole', root', hshared'⟩ := hshared'
  refine ⟨⟨⟨nodes', whole', root', R', hshared', hrows⟩, hmove.begun h.begun, hraised,
    fun d n hn => ?_⟩, fun m d hcounts hd => ?_⟩
  · by_cases hd : d = e.client
    · subst hd
      exact hstarted n hn
    · rw [hmove.client_ne hd] at hn
      rw [callSteps_snoc_ne hd]
      exact h.started d n hn
  · by_cases hne : d = e.client
    · subst hne
      exact hpaced m hcounts hd
    · rw [Paced, callSteps_snoc_ne hne, hmove.client_ne hne, hshared.work_kept hlevels]
      exact hd

/-- The tree gets no level, and the client does not come to where it may raise the tree. -/
theorem Grown.raised_same (h : Grown ids es S F) (hmove : ThreadMoves nodes S e T nodes')
    (hheight : F'.height = F.height)
    (hself : ∀ p, (T.client e.client).point = .insert p → p.MayRaise →
      ∃ q, (S.client e.client).point = .insert q ∧ q.MayRaise) :
    ∃ raising : Finset κ, (∀ c p, (T.client c).point = .insert p → p.MayRaise → c ∈ raising) ∧
      F'.height + raising.card ≤ insertsBegun (es ++ [e]) := by
  obtain ⟨raising, hraising, hle⟩ := h.raised
  refine ⟨raising, fun d p hp hmay => ?_, ?_⟩
  · by_cases hd : d = e.client
    · subst hd
      obtain ⟨q, hq, hmay'⟩ := hself p hp hmay
      exact hraising _ q hq hmay'
    · rw [hmove.client_ne hd] at hp
      exact hraising d p hp hmay
  · rw [insertsBegun_snoc, hheight]
    omega

/-- A tree has no more levels than inserts have begun, and one less for each that may raise it. -/
theorem Grown.height_lt (h : Grown ids es S F) {p : InsertPoint}
    (hpoint : (S.client c).point = .insert p)
    (hp : p.MayRaise) : F.height + 1 ≤ insertsBegun es := by
  obtain ⟨raising, hraising, hheight⟩ := h.raised
  have hpos : 0 < raising.card := Finset.card_pos.mpr ⟨c, hraising c p hpoint hp⟩
  omega

/-- An insert that has begun may add one level. -/
theorem Grown.begins (h : Grown ids es S F)
    (hcalls : OrderlyCalls ids (begunCalls (es ++ [.begins c call])))
    (hidle : (S.client c).point = .idle) (hfits : StepFits S (.begins c call)) :
    Grown ids (es ++ [.begins c call]) (S.set c ((S.client c).begin call)) F ∧ ∀ m d,
      Counts m d es S (.begins c call) → Paced m d es S F →
        Paced m d (es ++ [.begins c call]) (S.set c ((S.client c).begin call)) F := by
  obtain ⟨nodes, whole, root, R, hshared, hrows⟩ := h.shared
  have hmove : ThreadMoves nodes S (.begins c call) (S.set c ((S.client c).begin call)) nodes :=
    .begins hidle call
  have hbegun := hshared.begins hcalls hidle hfits hrows h.begun
  have hsteps : callSteps c (es ++ [.begins c call]) = 0 := by
    rw [callSteps_snoc]
    exact if_pos rfl
  refine h.of_moves hshared hmove ⟨whole, root, hbegun⟩ (fun row hrow => ?_) (fun _ _ => rfl) ?_
    (fun n hn => ?_) fun m _ _ => ?_
  · rw [insertedIds_begun_snoc]
    exact List.mem_append_left _ (hrows row hrow)
  · cases call with
    | insert id value =>
        obtain ⟨raising, hraising, hheight⟩ := h.raised
        refine ⟨insert c raising, fun d p hp hmay => ?_, ?_⟩
        · by_cases hd : d = c
          · exact hd ▸ Finset.mem_insert_self c raising
          · rw [hmove.client_ne hd] at hp
            exact Finset.mem_insert_of_mem (hraising d p hp hmay)
        · have hcard := Finset.card_insert_le c raising
          have hone : insertsBegun [TreeThreadEvent.begins c (.insert id value)] = 1 := rfl
          rw [insertsBegun_snoc]
          omega
    | lookup id =>
        refine h.raised_same hmove rfl fun p hp _ => ?_
        rw [TreeThreadEvent.client, S.client_set_self] at hp
        cases hp
  · rw [TreeThreadEvent.client, S.client_set_self] at hn
    rw [TreeThreadEvent.client, hsteps]
    cases call <;> exact Option.some.inj hn
  · rw [Paced, TreeThreadEvent.client, hsteps, S.client_set_self]
    cases call with
    | insert id value => exact (Nat.zero_add _).le
    | lookup id =>
        show 0 + (3 * m + 4) ≤ 5 * m + 4
        omega

/-- A client in no call clears its errors or its stack. -/
theorem Grown.idles {client : TreeClient} (h : Grown ids es S F)
    (hidle : (S.client e.client).point = .idle)
    (hclient : client.point = .idle)
    (hmove : ∀ nodes, ThreadMoves nodes S e (S.set e.client client) nodes)
    (hfits : StepFits S e) (hsteps : countStep e.client (callSteps e.client es) e =
      callSteps e.client es) :
    Grown ids (es ++ [e]) (S.set e.client client) F ∧ ∀ m d, Counts m d es S e → Paced m d es S F →
      Paced m d (es ++ [e]) (S.set e.client client) F := by
  obtain ⟨nodes, whole, root, R, hshared, hrows⟩ := h.shared
  have hheld := (hmove nodes).interleaved hshared.held hfits hshared.held.unrefused
  refine h.of_moves hshared (hmove nodes) ⟨whole, root, hshared.idles hidle hclient hheld⟩
    (fun row hrow => ?_)
    (fun _ _ => rfl) (h.raised_same (hmove nodes) rfl fun p hp _ => ?_) (fun n hn => ?_)
    fun m _ hpaced => ?_
  · rw [insertedIds_begun_snoc]
    exact List.mem_append_left _ (hrows row hrow)
  · rw [S.client_set_self, hclient] at hp
    cases hp
  · rw [S.client_set_self, hclient] at hn
    cases hn
  · rw [Paced] at hpaced ⊢
    rw [callSteps_snoc, hsteps, S.client_set_self, TreeClient.work, hclient, TreePoint.work]
    omega

/-- The row of an insert that has begun is among those that have. -/
theorem Grown.rows_after {p : InsertPoint} {next : TreeNext InsertPoint} {row : TreeRow}
    (h : Grown ids es S F)
    (hheld : Interleaved nodes S) (hpoint : (S.client c).point = .insert p)
    (hrows : ∀ row, R row → keyId row.key ∈ insertedIds (begunCalls es))
    (hrow : rowsAfter R (S.client c).key (S.client c).value p next row) :
    keyId row.key ∈ insertedIds (begunCalls (es ++ [e])) := by
  rw [insertedIds_begun_snoc]
  refine List.mem_append_left _ ?_
  have hown : keyId (S.client c).key.bytes ∈ insertedIds (begunCalls es) := by
    have hserves := hheld.serves c
    simp only [TreeClient.Serves, hpoint] at hserves
    obtain ⟨id, value, hinserts⟩ := hserves
    rw [hinserts.rowFor.key]
    exact mem_insertedIds_begun (hinserts.call ▸ h.begun c (by simp [hpoint]))
  unfold rowsAfter at hrow
  split at hrow
  · rcases hrow with rfl | hrow
    · exact hown
    · exact hrows row hrow
  · exact hrows row hrow

/-- A page above the root takes the client out of those that may raise the tree. -/
theorem Grown.insert_raised {p : InsertPoint} {next : TreeNext InsertPoint} (h : Grown ids es S F)
    (hthread : ThreadMoves nodes S e T nodes') (hpoint : (S.client e.client).point = .insert p)
    (hmove : InsertMoves PAGE_FLAG_TABLE (S.client e.client).key (S.client e.client).value nodes
      (S.seen e.client) p next t
      nodes') (hnext : (T.client e.client).point = next.point .insert)
        (hheight : F'.height = F.height + p.raises) :
    ∃ raising : Finset κ, (∀ c p, (T.client c).point = .insert p → p.MayRaise → c ∈ raising) ∧
      F'.height + raising.card ≤ insertsBegun (es ++ [e]) := by
  have hbefore (q : InsertPoint) (hq : (T.client e.client).point = .insert q) (hmay : q.MayRaise) :
      p.MayRaise ∧ p.raises = 0 := by
    rw [hnext] at hq
    cases next with
    | goto q' =>
        cases hq
        exact hmove.mayRaise hmay
    | ret reply => cases hq
  by_cases hraises : p.raises = 0
  · refine h.raised_same hthread (by rw [hheight, hraises, Nat.add_zero]) fun q hq hmay =>
      ⟨p, hpoint, (hbefore q hq hmay).1⟩
  · obtain ⟨raising, hraising, hle⟩ := h.raised
    refine ⟨raising.erase e.client, fun d q hq hmay => ?_, ?_⟩
    · have hd : d ≠ e.client := by
        rintro rfl
        exact hraises (hbefore q hq hmay).2
      rw [hthread.client_ne hd] at hq
      exact Finset.mem_erase.mpr ⟨hd, hraising d q hq hmay⟩
    · have hmay : p.MayRaise ∧ p.raises = 1 := by
        cases p with
        | newRoot _ _ _ => exact ⟨trivial, rfl⟩
        | _ => exact absurd rfl hraises
      have hcard := Finset.card_erase_add_one (hraising _ p hpoint hmay.1)
      rw [insertsBegun_snoc]
      omega

theorem Grown.insertActs {p q : InsertPoint} (h : Grown ids es S F) (hids : TellsIdsApart ids)
    (hshared : SharedTree (fun k => keyId k ∈ ids) (idsRank ids) R nodes whole F root S)
    (hrows : ∀ row, R row → keyId row.key ∈ insertedIds (begunCalls es))
    (hpoint : (S.client c).point = .insert p)
    (hmove : InsertMoves PAGE_FLAG_TABLE (S.client c).key (S.client c).value nodes
      (S.seen c) p (.goto q) t nodes')
    (hfits : StepFits S (.acts c)) (hroot : RootKept S c) (hT : t.Unrefused) :
    ∃ F', Grown ids (es ++ [.acts c]) (S.after c (.insert q) t) F' ∧
      ∀ m d, Counts m d es S (.acts c) →
      Paced m d es S F → Paced m d (es ++ [.acts c]) (S.after c (.insert q) t) F' := by
  have hthread : ThreadMoves nodes S (.acts c) (S.after c (.insert q) t) nodes' :=
    .insertActs hpoint hmove
  have hheld := hthread.interleaved hshared.held hfits hT
  obtain ⟨whole', F', root', hshared', hkept⟩ :=
    hshared.insert hids.orders hpoint hmove (hfits p hpoint).1 hroot hheld
  have hsteps : callSteps c (es ++ [.acts c]) = callSteps c es + 1 := by
    rw [callSteps_snoc]
    exact if_pos rfl
  refine ⟨F', h.of_moves hshared hthread ⟨whole', root', hshared'⟩
    (fun row hrow => h.rows_after hshared.held hpoint hrows hrow)
    hkept.levels (h.insert_raised hthread hpoint hmove ?_ hkept.height) (fun n hn => ?_)
      fun m hcounts hpaced => ?_⟩
  · rw [TreeThreadEvent.client, S.client_after_self]
    rfl
  · rw [TreeThreadEvent.client, S.client_after_self] at hn
    obtain ⟨k, hk, rfl⟩ := hmove.before hn
    rw [TreeThreadEvent.client, hsteps, h.started c k (by rw [hpoint, hk])]
  · have hwork := hshared.insert_work (m := m) hids.orders hpoint hmove hkept
        (hshared'.fenced.levelOf_le _) fun id hp => by
      rcases hcounts with hm | hfixed
      · exact (h.height_lt hpoint (by rw [hp]; trivial)).trans hm
      · have hnone := (hfixed rfl).2
        rw [TreeThreadEvent.client, hpoint, hp] at hnone
        cases hnone
    rw [Paced, TreeThreadEvent.client] at hpaced ⊢
    rw [hsteps, S.client_after_self]
    simp only [TreeClient.work, TreePoint.work, TreePoint.page, hpoint] at hpaced ⊢
    omega

theorem Grown.insertReturns {p : InsertPoint} {reply : TableReply} (h : Grown ids es S F)
    (hids : TellsIdsApart ids)
    (hshared : SharedTree (fun k => keyId k ∈ ids) (idsRank ids) R nodes whole F root S)
    (hrows : ∀ row, R row → keyId row.key ∈ insertedIds (begunCalls es))
    (hpoint : (S.client c).point = .insert p)
    (hmove : InsertMoves PAGE_FLAG_TABLE (S.client c).key (S.client c).value nodes (S.seen c) p
      (.ret reply) t nodes')
    (hfits : StepFits S (.returns c (S.client c).call reply)) (hroot : RootKept S c)
    (hT : t.Unrefused) :
    ∃ F', Grown ids (es ++ [.returns c (S.client c).call reply]) (S.after c .idle t) F' ∧ ∀ m d,
      Counts m d es S (.returns c (S.client c).call reply) → Paced m d es S F →
        Paced m d (es ++ [.returns c (S.client c).call reply]) (S.after c .idle t) F' := by
  have hthread : ThreadMoves nodes S (.returns c (S.client c).call reply)
      (S.after c .idle t) nodes' :=
    .insertReturns hpoint hmove
  have hheld := hthread.interleaved hshared.held hfits hT
  obtain ⟨whole', F', root', hshared', hkept⟩ :=
    hshared.insert hids.orders hpoint hmove (hfits p hpoint).1 hroot hheld
  refine ⟨F', h.of_moves hshared hthread ⟨whole', root', hshared'⟩
    (fun row hrow => h.rows_after hshared.held hpoint hrows hrow)
    hkept.levels (h.insert_raised hthread hpoint hmove ?_ hkept.height) (fun n hn => ?_)
      fun m _ hpaced => ?_⟩
  · rw [TreeThreadEvent.client, S.client_after_self]
    rfl
  · rw [TreeThreadEvent.client, S.client_after_self] at hn
    cases hn
  · rw [Paced, TreeThreadEvent.client] at hpaced ⊢
    rw [callSteps_snoc, countStep, S.client_after_self, TreeClient.work, TreePoint.work]
    omega

/-- A step of a lookup leaves the tree as it is. -/
theorem Grown.lookup {p : LookupPoint} {next : TreeNext LookupPoint} (h : Grown ids es S F)
    (hids : TellsIdsApart ids)
    (hshared : SharedTree (fun k => keyId k ∈ ids) (idsRank ids) R nodes whole F root S)
    (hrows : ∀ row, R row → keyId row.key ∈ insertedIds (begunCalls es))
    (hpoint : (S.client e.client).point = .lookup p)
    (hmove : LookupMoves (S.client e.client).key (S.seen e.client) p next t)
    (hroot : RootKept S e.client)
    (hthread : ThreadMoves nodes S e (S.after e.client (next.point .lookup) t) nodes)
    (hfits : StepFits S e) (hT : t.Unrefused)
    (hstarted : ∀ n, (next.point .lookup).before = some n → callSteps e.client (es ++ [e]) = n)
    (hpaced : ∀ m, Counts m e.client es S e → Paced m e.client es S F →
      Paced m e.client (es ++ [e]) (S.after e.client (next.point .lookup) t) F) :
    ∃ F', Grown ids (es ++ [e]) (S.after e.client (next.point .lookup) t) F' ∧
      ∀ m d, Counts m d es S e →
      Paced m d es S F → Paced m d (es ++ [e]) (S.after e.client (next.point .lookup) t) F' := by
  have hheld := hthread.interleaved hshared.held hfits hT
  refine ⟨F, h.of_moves hshared hthread
    ⟨whole, root, hshared.lookup hids.orders hpoint hmove hroot hheld⟩ (fun row hrow => ?_)
    (fun _ _ => rfl) (h.raised_same hthread rfl fun q hq _ => ?_) (fun n hn => ?_) hpaced⟩
  · rw [insertedIds_begun_snoc]
    exact List.mem_append_left _ (hrows row hrow)
  · rw [S.client_after_self] at hq
    cases next <;> cases hq
  · rw [S.client_after_self] at hn
    exact hstarted n hn

theorem Grown.step (h : Grown ids es S F) (hcalls : OrderlyCalls ids (begunCalls (es ++ [e])))
    (hstep : RootedStep S e T) :
    ∃ F', Grown ids (es ++ [e]) T F' ∧ ∀ m d, Counts m d es S e → Paced m d es S F →
      Paced m d (es ++ [e]) T F' := by
  obtain ⟨hroot, hfits, hstep⟩ := hstep
  have hshared := h.shared
  obtain ⟨nodes, whole, root, R, hshared, hrows⟩ := hshared
  have hT := hstep.unrefused hshared.held.unrefused
  obtain ⟨nodes', hmove⟩ := hshared.held.moves hfits hstep
  cases hmove with
  | begins hidle call => exact ⟨F, h.begins hcalls hidle hfits⟩
  | insertActs hpoint hmove =>
      exact h.insertActs hcalls.apart hshared hrows hpoint hmove hfits hroot hT
  | insertReturns hpoint hmove =>
      exact h.insertReturns hcalls.apart hshared hrows hpoint hmove hfits hroot hT
  | @lookupActs c p q t hpoint hmove =>
      have hsteps : callSteps c (es ++ [.acts c]) = callSteps c es + 1 := by
        rw [callSteps_snoc]
        exact if_pos rfl
      refine h.lookup (e := .acts c) hcalls.apart hshared hrows hpoint hmove hroot
        (.lookupActs hpoint hmove) hfits hT
        (fun n hn => ?_) fun m hcounts hpaced => ?_
      · obtain ⟨k, hk, rfl⟩ := hmove.before hn
        rw [TreeThreadEvent.client, hsteps, h.started c k (by rw [hpoint, hk])]
      · have hwork := hshared.lookup_work (m := m) hcalls.apart.orders hpoint hmove fun id hp => by
          rcases hcounts with hm | hfixed
          · obtain ⟨raising, -, hle⟩ := h.raised
            omega
          · have hnone := (hfixed rfl).2
            rw [TreeThreadEvent.client, hpoint, hp] at hnone
            cases hnone
        rw [Paced, TreeThreadEvent.client] at hpaced ⊢
        rw [hsteps, S.client_after_self]
        simp only [TreeClient.work, TreeNext.point, TreePoint.work,
          TreePoint.page, hpoint] at hpaced ⊢
        omega
  | @lookupReturns c p reply t hpoint hmove =>
      refine h.lookup (e := .returns c (S.client c).call reply) hcalls.apart hshared
        hrows hpoint hmove hroot
        (.lookupReturns hpoint hmove) hfits hT (fun n hn => by cases hn) fun m _ hpaced => ?_
      rw [Paced, TreeThreadEvent.client] at hpaced ⊢
      rw [callSteps_snoc, countStep, S.client_after_self, TreeClient.work,
        TreeNext.point, TreePoint.work]
      omega
  | @errorClear c hidle =>
      exact ⟨F, h.idles (e := .errorClear c) hidle hidle (fun _ => .errorClear hidle) hfits rfl⟩
  | @scratch c hidle stack =>
      exact ⟨F, h.idles (e := .scratch c stack) hidle hidle
        (fun _ => .scratch hidle stack) hfits rfl⟩

/-- A new tree has one level. -/
theorem TreeThreads.Starts.grown {s₀ : Sys} (hstart : S.Starts s₀)
    (hcreated : TreeCreated PAGE_FLAG_TABLE s₀)
    (hsize : sizeofHeader ≤ s₀.tree.pageSize) (hs : s₀.Unrefused) (ids : List Nat) :
    ∃ F, Grown ids [] S F ∧ ∀ m c, Paced m c [] S F := by
  obtain ⟨F, hshared⟩ := hstart.sharedTree hcreated hsize hs (fun k => keyId k ∈ ids) (idsRank ids)
  have hheight : F.height = 0 := (hshared.fenced.tree.node _ _ hshared.fenced.tree.root).shape.1
  refine ⟨F, ⟨⟨_, _, _, _, hshared, fun _ hrow => hrow.elim⟩, fun c hcall =>
    absurd (hstart.idle c) hcall, ⟨∅, fun c p hp => ?_, by simp [hheight]⟩, fun c n hn => ?_⟩,
      fun m c => ?_⟩
  · rw [hstart.idle] at hp
    cases hp
  · rw [hstart.idle] at hn
    cases hn
  · rw [Paced, TreeClient.work, hstart.idle, TreePoint.work]
    exact Nat.zero_le _

/-- Every client is paced by the inserts that have begun. -/
theorem grown_of_run {s₀ : Sys} (hcreated : TreeCreated PAGE_FLAG_TABLE s₀)
    (hsize : sizeofHeader ≤ s₀.tree.pageSize)
    (hs : s₀.Unrefused) (hstart : S.Starts s₀) (hcalls : OrderlyCalls ids (begunCalls es))
    (hrun : Run RootedStep S es T) :
    ∃ F, Grown ids es T F ∧ ∀ c, Paced (insertsBegun es) c es T F := by
  have hgrown : OrderlyCalls ids (begunCalls es) → insertsBegun es ≤ insertsBegun es →
      ∃ F, Grown ids es T F ∧ ∀ c, Paced (insertsBegun es) c es T F := by
    refine hrun.history (I := fun pre U => OrderlyCalls ids (begunCalls pre) →
      insertsBegun pre ≤ insertsBegun es →
      ∃ F, Grown ids pre U F ∧ ∀ c, Paced (insertsBegun es) c pre U F)
        (fun pre U e V h hstep hcalls hm => ?_) fun _ _ => ?_
    · rw [insertsBegun_snoc] at hm
      obtain ⟨F, hgrown, hpaced⟩ :=
        h (hcalls.of_initial ((List.prefix_append pre [e]).filterMap _)) (by omega)
      obtain ⟨F', hgrown', hkept⟩ := hgrown.step hcalls hstep
      exact ⟨F', hgrown', fun c => hkept _ c (Or.inl (by omega)) (hpaced c)⟩
    · obtain ⟨F, hgrown, hpaced⟩ := hstart.grown hcreated hsize hs ids
      exact ⟨F, hgrown, hpaced _⟩
  exact hgrown hcalls le_rfl

/-- However the steps of the clients interleave: once a client has fixed the root, its call
makes at most five steps for each insert that has begun by then, and four more, before the one
that returns. -/
theorem calls_are_short {s₀ : Sys} {es' : List (TreeThreadEvent κ)} {U : TreeThreads κ}
    (hcreated : TreeCreated PAGE_FLAG_TABLE s₀)
    (hsize : sizeofHeader ≤ s₀.tree.pageSize) (hs : s₀.Unrefused) (hstart : S.Starts s₀)
    (hcalls : OrderlyCalls ids (begunCalls (es ++ es'))) (hrun : Run RootedStep S es T)
    (hrest : Run RootedStep T es' U)
    (hfixed : 2 ≤ callSteps c es) (hcall : ∀ e ∈ es', e.client = c → e = .acts c) :
    callSteps c (es ++ es') ≤ 5 * insertsBegun es + 4 := by
  obtain ⟨F, hgrown, hpaced⟩ := grown_of_run hcreated hsize hs hstart
    (hcalls.of_initial ((List.prefix_append es es').filterMap _)) hrun
  have hend : OrderlyCalls ids (begunCalls (es ++ es')) → (∀ e ∈ es', e.client = c → e = .acts c) →
      ∃ F, Grown ids (es ++ es') U F ∧ Paced (insertsBegun es) c (es ++ es') U F ∧
        2 ≤ callSteps c (es ++ es') := by
    refine hrest.history (I := fun pre V => OrderlyCalls ids (begunCalls (es ++ pre)) →
      (∀ e ∈ pre, e.client = c → e = .acts c) → ∃ F, Grown ids (es ++ pre) V F ∧
        Paced (insertsBegun es) c (es ++ pre) V F ∧ 2 ≤ callSteps c (es ++ pre))
          (fun pre V e W h hstep hcalls hacts => ?_)
      fun _ _ => ?_
    · rw [← List.append_assoc] at hcalls ⊢
      obtain ⟨F, hgrown, hpaced, htwo⟩ :=
        h (hcalls.of_initial ((List.prefix_append _ [e]).filterMap _))
        fun e' he' => hacts e' (List.mem_append_left _ he')
      obtain ⟨F', hgrown', hkept⟩ := hgrown.step hcalls hstep
      have hgoes (hclient : e.client = c) : e = .acts c ∧ (V.client c).point.before = none := by
        refine ⟨hacts e (List.mem_append_right _ (List.mem_singleton_self e)) hclient, ?_⟩
        cases hbefore : (V.client c).point.before with
        | none => rfl
        | some n =>
            have hsteps := hgrown.started c n hbefore
            have hle : n ≤ 1 := by
              unfold TreePoint.before at hbefore
              split at hbefore <;> cases hbefore <;> omega
            omega
      refine ⟨F', hgrown', hkept _ c (Or.inr hgoes) hpaced, ?_⟩
      by_cases hclient : c = e.client
      · rw [callSteps_snoc, (hgoes hclient.symm).1]
        exact htwo.trans ((Nat.le_succ _).trans (if_pos rfl).ge)
      · rwa [callSteps_snoc_ne hclient]
    · rw [List.append_nil]
      exact ⟨F, hgrown, hpaced c, hfixed⟩
  obtain ⟨F', -, hpaced, -⟩ := hend hcalls hcall
  exact (Nat.le_add_right _ _).trans hpaced

end

/-! ### Computed runs -/

/-- The client goes on with its call. -/
def goesOn {κ : Type} : TreeThreadEvent κ → Bool
  | .acts _ => true
  | _ => false

theorem eq_acts_of_goesOn {κ : Type} {e : TreeThreadEvent κ} (h : goesOn e = true) :
    e = .acts e.client := by
  cases e with
  | acts c => rfl
  | _ => cases h

/-- A client that has fixed the root splits it, while another one begins a call. -/
theorem calls_are_short_once : ∃ (S T U : TreeThreads Bool) (es es' : List (TreeThreadEvent Bool)),
    Run RootedStep S es T ∧ Run RootedStep T es' U ∧ U.shared.tree.root ≠ S.shared.tree.root ∧
      callSteps true es = 2 ∧ callSteps true (es ++ es') = 9 ∧ callSteps true (es ++ es') ≤
        5 * insertsBegun es + 4 := by
  obtain ⟨s₀, all, U, hcreated, hs, hrun, hp⟩ := exists_played
    (callTurns true (.insert 1 (Blob.ofBytes (List.replicate 8 1))) 5 ++
      callTurns true (.insert 2 (Blob.ofBytes (List.replicate 8 2))) 5 ++
      callTurns true (.insert 3 (Blob.ofBytes (List.replicate 8 3))) 2 ++
        callTurns false (.lookup 1) 1 ++
      List.replicate 7 (true, none))
    (fun S e => decide (StepFits S e) && decide (RootKept S e.client))
    (fun s₀ es T => decide (s₀.tree.pageSize = 40) && decide (T.shared.tree.root ≠ s₀.tree.root) &&
      decide (callSteps true (es.take 15) = 2) && decide (callSteps true es = 9) &&
      decide (OrderlyCalls [1, 2, 3] (begunCalls es)) && (es.drop 15).all fun e =>
        e.client == false || goesOn e)
    ⟨40, 16, ⟨0, 1, 2⟩, freshSys 40 16, _, by decide, rfl⟩ (by decide) (by decide +kernel)
  simp only [Bool.and_eq_true, decide_eq_true_eq, List.all_eq_true, Bool.or_eq_true,
    beq_iff_eq] at hp hrun
  obtain ⟨⟨⟨⟨⟨hsize, hroot⟩, hfixed⟩, hsteps⟩, hcalls⟩, hgoes⟩ := hp
  have hrooted : Run RootedStep _ all U := hrun.mono fun _ _ _ h => ⟨h.1.2, h.1.1, h.2⟩
  rw [← List.take_append_drop 15 all] at hsteps hcalls hrooted
  obtain ⟨T, hbefore, hafter⟩ := hrooted.exists_mid
  have hshort := calls_are_short (c := true) hcreated (by rw [hsize]; decide) hs
      (TreeThreads.starts_ofTree s₀) hcalls hbefore
    hafter hfixed.ge fun e he hclient => by
      have hacts := (hgoes e he).resolve_left (by rw [hclient]; decide)
      rw [eq_acts_of_goesOn hacts, hclient]
  exact ⟨_, T, U, _, _, hbefore, hafter, hroot, hfixed, hsteps, hshort⟩

end Wednesday
