import Mathlib.Data.List.Induction
import Wednesday.ErrorTrace

/-!
The messages of the error trace. Every text is written to the start of the
message, into what the text before it leaves of the size; the last frame of the
array gets no text.
-/

namespace Wednesday

open Lib

/-- The memory starts with the text and the terminator after it. -/
structure CString (m : Mem) (text : Bytes) : Prop where
  holds : m.Holds 0 (text ++ [0])
  terminator : 0 ∉ text

/-- The texts of the frames after one more event: a text belongs to the last push. -/
def textsAfter (fs : List (List Bytes)) : ErrorEvent → List (List Bytes)
  | .push _ _ => fs ++ [[]]
  | .append text => fs.modify (fs.length - 1) (· ++ [text])
  | .clear => []

/-- For every push since the last clear the texts appended before the next one. -/
def textsSince (es : List ErrorEvent) : List (List Bytes) := es.foldl textsAfter []

/-- Every recorded frame holds its texts one after the other, as far as there is
room, and texts for a push that is not recorded change no frame. -/
structure MessagesAccumulate (e : ErrorState) (fs : List (List Bytes)) : Prop where
  kept : ∀ n texts, n < maxErrors → fs[n]? = some texts →
    CString (e.list n).msg (texts.flatten.take (msgSize - 1))
  others : maxErrors < fs.length → ∀ text e', errorAppendMessage e text = .ok e' → e'.list = e.list

/-- Texts after which the message is empty. -/
inductive Blank : List Bytes → Prop where
  | none : Blank []
  | empty (ts : List Bytes) : Blank (ts ++ [[]])
  | full {ts : List Bytes} {u : Bytes} (h : Blank ts) (hfull : msgSize - 1 ≤ u.length) (t : Bytes) :
      Blank (ts ++ [u, t])

/-- Only the last text says something, or it fills a blank message and repeats
what came before it. -/
def OneText (texts : List Bytes) : Prop :=
  texts = [] ∨ ∃ ts t, texts = ts ++ [t] ∧ (ts.flatten = [] ∨
    msgSize - 1 ≤ t.length ∧ Blank ts ∧ t.take (msgSize - 1) = (ts.flatten ++ t).take (msgSize - 1))

/-- The last frame of the array has no text, any other one text. -/
def TextsFit (n : Nat) (texts : List Bytes) : Prop :=
  if n + 1 = maxErrors then texts.flatten = [] else OneText texts

/-! ### Texts in memory -/

section

variable {m dst : Mem} {text other : Bytes} {fuel n : Nat}

/-- The byte behind the text is its terminator. -/
theorem CString.eq_zero_iff (h : CString m text) {i : Nat} (hi : i ≤ text.length) :
    m i = 0 ↔ i = text.length := by
  have hread := h.holds i (by simpa using Nat.lt_succ_of_le hi)
  rw [Nat.zero_add] at hread
  rw [hread]
  constructor
  · intro hzero
    by_contra hne
    rw [List.getElem_append_left (by omega)] at hzero
    exact h.terminator (hzero ▸ List.getElem_mem _)
  · rintro rfl
    simp

/-- A memory starts with one text. -/
theorem CString.unique (h : CString m text) (h' : CString m other) : text = other := by
  have hlength : text.length = other.length := by
    rcases Nat.le_total text.length other.length with hle | hle
    · exact (h'.eq_zero_iff hle).mp ((h.eq_zero_iff (Nat.le_refl _)).mpr rfl)
    · exact ((h.eq_zero_iff hle).mp ((h'.eq_zero_iff (Nat.le_refl _)).mpr rfl)).symm
  apply List.ext_getElem hlength
  intro i hi hi'
  have hleft := (Mem.holds_append.mp h.holds).1 i hi
  have hright := (Mem.holds_append.mp h'.holds).1 i hi'
  exact hleft.symm.trans hright

theorem cstring_store_zero (m : Mem) : CString (m.store 0 0) [] := by
  refine ⟨fun i hi => ?_, by simp⟩
  obtain rfl : i = 0 := by simpa using hi
  rfl

theorem CString.tail {b : UInt8} (h : CString m (b :: text)) : CString (m.drop 1) text := by
  refine ⟨fun i hi => ?_, fun hzero => h.terminator (List.mem_cons_of_mem _ hzero)⟩
  have hread := h.holds (i + 1) (by simpa using hi)
  rw [Mem.drop_apply, Nat.zero_add, Nat.add_comm]
  rw [Nat.zero_add] at hread
  exact hread

theorem CString.strlen (h : CString m text) (hfuel : text.length ≤ fuel) :
    strlen m fuel = text.length := by
  induction text generalizing m fuel with
  | nil =>
      cases fuel with
      | zero => rfl
      | succ fuel =>
          have hfirst : m 0 = 0 := (h.eq_zero_iff (Nat.le_refl _)).mpr rfl
          rw [Wednesday.strlen, if_pos hfirst, List.length_nil]
  | cons b text ih =>
      cases fuel with
      | zero => simp at hfuel
      | succ fuel =>
          have hfirst : m 0 ≠ 0 :=
            fun hzero => by simpa using (h.eq_zero_iff (Nat.zero_le _)).mp hzero
          rw [Wednesday.strlen, if_neg hfirst, ih h.tail (by simpa using hfuel), List.length_cons]

/-- The text is cut to the size without its terminator. -/
theorem cstring_vsnprintf (hn : 0 < n) (htext : 0 ∉ text) :
    CString (vsnprintf dst n text) (text.take (n - 1)) := by
  refine ⟨Mem.holds_append.mpr ⟨fun i hi => ?_, fun i hi => ?_⟩,
    fun h => htext (List.mem_of_mem_take h)⟩
  · rw [List.length_take] at hi
    rw [vsnprintf, if_neg (by omega), Mem.store_of_ne (by omega),
      Mem.blit_inside (by omega) (by omega)]
    simp [Mem.ofBytes, show i < text.length by omega]
  · obtain rfl : i = 0 := by simpa using hi
    rw [vsnprintf, if_neg (by omega), List.length_take, Nat.zero_add, Nat.add_zero, Nat.min_comm,
      Mem.store_self]
    rfl

end

/-! ### What a message keeps of its texts -/

/-- What is left of the texts: each takes the place of the one before. -/
def lastText (texts : List Bytes) : Bytes :=
  texts.foldl (fun m text => text.take (msgSize - m.length - 1)) []

section

variable {texts ts : List Bytes} {t : Bytes}

theorem lastText_snoc (ts : List Bytes) (t : Bytes) :
    lastText (ts ++ [t]) = t.take (msgSize - (lastText ts).length - 1) := by
  simp [lastText]

theorem length_lastText_lt (texts : List Bytes) : (lastText texts).length < msgSize := by
  induction texts using List.reverseRecOn with
  | nil => decide
  | append_singleton ts t _ =>
      rw [lastText_snoc, List.length_take]
      simp only [msgSize]
      omega

/-- A message is empty or full for one reason each. -/
theorem lastText_cases (ts : List Bytes) :
    (lastText ts = [] → Blank ts) ∧
      (msgSize - 1 ≤ (lastText ts).length → ∃ us u, ts = us ++ [u] ∧ Blank us ∧
        msgSize - 1 ≤ u.length) := by
  induction ts using List.reverseRecOn with
  | nil => exact ⟨fun _ => .none, fun h => absurd h (by decide)⟩
  | append_singleton ts t ih =>
      rw [lastText_snoc]
      constructor
      · intro hempty
        rcases List.take_eq_nil_iff.mp hempty with hroom | rfl
        · obtain ⟨us, u, rfl, hblank, hfull⟩ := ih.2 (by omega)
          rw [List.append_assoc]
          exact .full hblank hfull t
        · exact .empty ts
      · intro hfull
        rw [List.length_take] at hfull
        simp only [msgSize] at hfull ⊢
        exact ⟨ts, t, rfl, ih.1 (List.eq_nil_of_length_eq_zero (by omega)), by omega⟩

theorem Blank.lastText (h : Blank ts) : lastText ts = [] := by
  induction h with
  | none => rfl
  | empty ts => rw [lastText_snoc, List.take_nil]
  | @full ts u h hfull t ih =>
      rw [show ts ++ [u, t] = (ts ++ [u]) ++
        [t] by simp, lastText_snoc, lastText_snoc, ih, List.length_take]
      apply List.take_eq_nil_iff.mpr
      simp only [msgSize, List.length_nil] at hfull ⊢
      omega

theorem lastText_of_flatten (h : ts.flatten = []) : lastText ts = [] := by
  induction ts using List.reverseRecOn with
  | nil => rfl
  | append_singleton ts t _ =>
      rw [List.flatten_append, List.append_eq_nil_iff] at h
      obtain rfl : t = [] := by simpa using h.2
      rw [lastText_snoc, List.take_nil]

/-- The message is the concatenation exactly if there is one text. -/
theorem lastText_eq_iff (texts : List Bytes) : lastText texts = texts.flatten.take (msgSize - 1) ↔
    OneText texts := by
  constructor
  · intro heq
    rcases List.eq_nil_or_concat texts with rfl | ⟨ts, t, rfl⟩
    · exact .inl rfl
    · refine .inr ⟨ts, t, List.concat_eq_append, ?_⟩
      rw [List.concat_eq_append, lastText_snoc, List.flatten_append, List.flatten_singleton] at heq
      rcases List.eq_nil_or_concat ts.flatten with hnil | ⟨front, b, hsome⟩
      · exact .inl hnil
      · -- The texts before are not empty, so the room must not have shrunk for the last.
        have hlength := congrArg List.length heq
        have hpos : 0 < ts.flatten.length := by simp [hsome]
        rw [List.length_take, List.length_take, List.length_append] at hlength
        simp only [msgSize] at hlength heq ⊢
        have hempty : (lastText ts).length = 0 := by omega
        refine .inr ⟨by omega, (lastText_cases ts).1 (List.eq_nil_of_length_eq_zero hempty), ?_⟩
        rw [← heq, hempty]
  · rintro (rfl | ⟨ts, t, rfl, hnil | ⟨hfull, hblank, hrepeat⟩⟩)
    · rfl
    · rw [lastText_snoc, lastText_of_flatten hnil, List.flatten_append, hnil]
      simp
    · rw [lastText_snoc, hblank.lastText, List.flatten_append, List.flatten_singleton, ← hrepeat]
      rfl

end

/-! ### Runs -/

/-- What a frame keeps of its texts; the last frame of the array keeps none. -/
def keptText (n : Nat) (texts : List Bytes) : Bytes :=
  if n + 1 = maxErrors then [] else lastText texts

/-- What the messages are after the calls. -/
structure MessagesKept (e : ErrorState) (fs : List (List Bytes)) : Prop where
  count : e.count = min fs.length maxErrors
  kept : ∀ n texts, n < maxErrors → fs[n]? = some texts → CString (e.list n).msg (keptText n texts)

section

variable {e e' : ErrorState} {fs : List (List Bytes)} {site : Site} {code : Int}
  {text : Bytes} {ev : ErrorEvent}

theorem messagesKept_errorStart (list : Nat → ErrorFrame) : MessagesKept (errorStart list) [] := by
  refine ⟨rfl, fun n texts _ htexts => ?_⟩
  cases htexts

theorem MessagesKept.push (h : MessagesKept e fs) (hrun : errorPush e site code = .ok e') :
    MessagesKept e' (fs ++ [[]]) := by
  have hcount := h.count
  rw [errorPush] at hrun
  split at hrun
  · cases hrun
  split at hrun <;> rename_i hfull
  · -- A full array keeps its frames.
    obtain rfl := Except.ok.inj hrun
    refine ⟨?_, fun n texts hn htexts => ?_⟩
    · simp only [List.length_append, List.length_singleton]
      omega
    · rw [List.getElem?_append_left (by omega)] at htexts
      exact h.kept n texts hn htexts
  · obtain rfl := Except.ok.inj hrun
    have hlength : e.count = fs.length := by omega
    refine ⟨?_, fun n texts hn htexts => ?_⟩
    · simp only [List.length_append, List.length_singleton]
      omega
    · rcases Nat.lt_or_ge n fs.length with hold | hnew
      · rw [List.getElem?_append_left hold] at htexts
        simp only [Function.update_of_ne (show n ≠ e.count by omega)]
        exact h.kept n texts hn htexts
      · rw [List.getElem?_append_right hnew, List.getElem?_singleton] at htexts
        split at htexts
        · obtain rfl := Option.some.inj htexts
          obtain rfl : n = e.count := by omega
          simp only [Function.update_self, keptText, lastText, List.foldl_nil, ite_self]
          exact cstring_store_zero _
        · cases htexts

/-- A full array takes no text. -/
theorem errorAppendMessage_full (hfull : maxErrors ≤ e.count)
    (hrun : errorAppendMessage e text = .ok e') :
    e' = e := by
  rw [errorAppendMessage, if_neg (by simp only [maxErrors] at hfull; omega), errorTraceNth,
    if_pos (Or.inr hfull)] at hrun
  exact (Except.ok.inj hrun).symm

/-- A text takes the place of what the last frame holds. -/
theorem errorAppendMessage_written {before : Bytes} (hroom : e.count < maxErrors)
    (hbefore : CString (e.list (e.count - 1)).msg before) (hlength : before.length < msgSize)
    (htext : 0 ∉ text) (hrun : errorAppendMessage e text = .ok e') :
    e.count ≠ 0 ∧ e'.count = e.count ∧ (∀ n, n ≠ e.count - 1 → e'.list n = e.list n) ∧
      CString (e'.list (e.count - 1)).msg (text.take (msgSize - before.length - 1)) := by
  rw [errorAppendMessage] at hrun
  split at hrun <;> rename_i hcount
  · cases hrun
  rw [errorTraceNth, if_neg (by omega)] at hrun
  dsimp only at hrun
  rw [hbefore.strlen (Nat.le_of_lt hlength), if_neg (by omega)] at hrun
  obtain rfl := Except.ok.inj hrun
  refine ⟨hcount, rfl, fun n hn => Function.update_of_ne hn _ _, ?_⟩
  simp only [Function.update_self]
  exact cstring_vsnprintf (by omega) htext

theorem MessagesKept.append (h : MessagesKept e fs) (htext : 0 ∉ text)
    (hrun : errorAppendMessage e text = .ok e') :
    MessagesKept e' (fs.modify (fs.length - 1) (· ++ [text])) := by
  have hcount := h.count
  rcases Nat.lt_or_ge e.count maxErrors with hroom | hfull
  · -- The text belongs to the last frame, which has a place in the array.
    have hlength : e.count = fs.length := by omega
    rcases List.eq_nil_or_concat fs with rfl | ⟨front, ts, rfl⟩
    · rw [errorAppendMessage, if_pos (hlength.trans List.length_nil)] at hrun
      cases hrun
    · rw [List.concat_eq_append] at *
      rw [List.length_append, List.length_singleton] at hlength
      have hlast : (front ++ [ts])[front.length]? = some ts := by simp
      have hne : front.length + 1 ≠ maxErrors := by omega
      have hbefore := h.kept front.length ts (by omega) hlast
      rw [keptText, if_neg hne] at hbefore
      have hindex : e.count - 1 = front.length := by omega
      obtain ⟨-, hsame, hothers, hwritten⟩ := errorAppendMessage_written hroom (hindex ▸ hbefore)
        (length_lastText_lt ts) htext hrun
      rw [hindex] at hothers hwritten
      refine ⟨by rw [hsame, List.length_modify, hcount], fun n texts hn htexts => ?_⟩
      rw [List.getElem?_modify, List.length_append, List.length_singleton,
        Nat.add_sub_cancel] at htexts
      rcases eq_or_ne n front.length with rfl | hother
      · rw [hlast, Option.map_eq_map, Option.map_some, if_pos rfl] at htexts
        obtain rfl := Option.some.inj htexts
        rw [keptText, if_neg hne, lastText_snoc]
        exact hwritten
      · simp only [if_neg (Ne.symm hother), id_map'] at htexts
        rw [hothers n hother]
        exact h.kept n texts hn htexts
  · -- Nothing is written, and the text belongs to the last place or to none.
    obtain rfl := errorAppendMessage_full hfull hrun
    refine ⟨by rw [List.length_modify, hcount], fun n texts hn htexts => ?_⟩
    rw [List.getElem?_modify] at htexts
    rcases eq_or_ne (fs.length - 1) n with hlast | hother
    · obtain ⟨ts, hts, -⟩ := Option.map_eq_some_iff.mp htexts
      have hkept := h.kept n ts hn hts
      have hn' : n + 1 = maxErrors := by omega
      rw [keptText, if_pos hn'] at hkept ⊢
      exact hkept
    · simp only [if_neg hother, id_map'] at htexts
      exact h.kept n texts hn htexts

theorem MessagesKept.step (h : MessagesKept e fs) (htext : ∀ text, ev = .append text → 0 ∉ text)
    (hstep : ErrorStep e ev e') : MessagesKept e' (textsAfter fs ev) := by
  cases hstep with
  | push hrun => exact h.push hrun
  | append hrun => exact h.append (htext _ rfl) hrun
  | clear => exact ⟨rfl, fun n texts _ htexts => (by cases htexts)⟩

theorem MessagesKept.run {es : List ErrorEvent} (h : MessagesKept e fs)
    (htexts : ∀ text, ErrorEvent.append text ∈ es → 0 ∉ text) (hrun : Run ErrorStep e es e') :
    MessagesKept e' (es.foldl textsAfter fs) := by
  induction hrun generalizing fs with
  | nil => exact h
  | cons head _ ih =>
      apply ih (h.step (fun text hev => htexts text (hev ▸ List.mem_cons_self ..)) head)
      exact fun text hmem => htexts text (List.mem_cons_of_mem _ hmem)

theorem keptText_eq_iff (n : Nat) (texts : List Bytes) :
    keptText n texts = texts.flatten.take (msgSize - 1) ↔ TextsFit n texts := by
  rw [keptText, TextsFit]
  split
  · rw [eq_comm, List.take_eq_nil_iff]
    simp [msgSize]
  · exact lastText_eq_iff texts

theorem MessagesKept.accumulate_iff (h : MessagesKept e fs) :
    MessagesAccumulate e fs ↔ ∀ n texts, n < maxErrors → fs[n]? = some texts →
      TextsFit n texts := by
  constructor
  · intro hall n texts hn htexts
    apply (keptText_eq_iff n texts).mp
    exact (h.kept n texts hn htexts).unique (hall.kept n texts hn htexts)
  · intro hfit
    refine ⟨fun n texts hn htexts => ?_, fun hfull text e' hrun => ?_⟩
    · rw [← (keptText_eq_iff n texts).mpr (hfit n texts hn htexts)]
      exact h.kept n texts hn htexts
    · have hcount := h.count
      rw [errorAppendMessage_full (by omega) hrun]

/-- At the end of every run the messages are the texts one after the other exactly
if the last frame of the array has no text and every other one at most one that says
something; or one of 127 bytes or more that comes after a blank message and begins
with the texts before it. -/
theorem messages_accumulate {list : Nat → ErrorFrame} {es : List ErrorEvent}
    (htexts : ∀ text, ErrorEvent.append text ∈ es → 0 ∉ text)
    (hrun : Run ErrorStep (errorStart list) es e) :
    MessagesAccumulate e (textsSince es) ↔
      ∀ n texts, n < maxErrors → (textsSince es)[n]? = some texts → TextsFit n texts :=
  ((messagesKept_errorStart list).run htexts hrun).accumulate_iff

end

/-- The texts of a push that is still the last. -/
theorem foldl_textsAfter_append (ts texts : List Bytes) :
    (texts.map ErrorEvent.append).foldl textsAfter [ts] = [ts ++ texts] := by
  induction texts generalizing ts with
  | nil => rw [List.append_nil]; rfl
  | cons text texts ih =>
      have hhead : textsAfter [ts] (.append text) = [ts ++ [text]] := rfl
      rw [List.map_cons, List.foldl_cons, hhead, ih, List.append_assoc]
      rfl

/-- A thread can report a failure with any texts. -/
theorem exists_report (list : Nat → ErrorFrame) (site : Site) {code : Int} (hcode : code ≠ 0)
    {texts : List Bytes}
    (htexts : ∀ text ∈ texts, 0 ∉ text) :
    ∃ es e, (∀ text, ErrorEvent.append text ∈ es → 0 ∉ text) ∧
      Run ErrorStep (errorStart list) es e ∧
      textsSince es = [texts] := by
  have happends : ∀ e : ErrorState, e.count ≠ 0 → ∃ e', Run ErrorStep e (texts.map .append) e' := by
    clear htexts
    induction texts with
    | nil => exact fun e _ => ⟨e, .nil e⟩
    | cons text texts ih =>
        intro e hcount
        obtain ⟨e₁, happend, -, hcount₁⟩ := errorAppendMessage_ok text hcount
        obtain ⟨e', hrest⟩ := ih e₁ hcount₁
        exact ⟨e', .cons (.append happend) hrest⟩
  obtain ⟨e₁, hpush, -, hcount⟩ := errorPush_ok (errorStart list) site hcode
  obtain ⟨e, hrest⟩ := happends e₁ hcount
  refine ⟨.push site code :: texts.map .append, e, fun text hmem => ?_,
    .cons (.push hpush) hrest, ?_⟩
  · simp only [List.mem_cons, reduceCtorEq, List.mem_map, ErrorEvent.append.injEq,
      exists_eq_right, false_or] at hmem
    exact htexts text hmem
  · exact foldl_textsAfter_append [] texts

theorem messages_accumulate_once : ∃ e es,
    Run ErrorStep (errorStart fun _ => ⟨"", "", 0, 0, fun _ => 0⟩) es e ∧
    textsSince es = [[messageBytes "invalid page id"]] ∧ MessagesAccumulate e (textsSince es) := by
  obtain ⟨es, e, htexts, hrun, hsince⟩ := exists_report (fun _ => ⟨"", "", 0, 0, fun _ => 0⟩)
    ⟨"src/pager.c", "pager_fix", 372⟩ (show EINVAL ≠ 0 by decide)
      (show ∀ text ∈ [messageBytes "invalid page id"], 0 ∉ text by decide +kernel)
  refine ⟨e, es, hrun, hsince, (messages_accumulate htexts hrun).mpr ?_⟩
  rw [hsince]
  rintro (_ | n) texts - hget
  · obtain rfl : [messageBytes "invalid page id"] = texts := Option.some.inj hget
    exact .inr ⟨[], _, rfl, .inl rfl⟩
  · cases hget

/-- Of the report of a failed allocation only the size is left. -/
theorem second_text_replaces : ¬ ∀ (list : Nat → ErrorFrame) (es : List ErrorEvent)
    (e : ErrorState), (∀ text, ErrorEvent.append text ∈ es → 0 ∉ text) →
    Run ErrorStep (errorStart list) es e →
      MessagesAccumulate e (textsSince es) := by
  intro h
  obtain ⟨es, e, htexts, hrun, hsince⟩ := exists_report (fun _ => ⟨"", "", 0, 0, fun _ => 0⟩)
    ⟨"src/pager.c", "pager_directory_insert", 206⟩ (show ENOMEM ≠ 0 by decide)
    (show ∀ text ∈ [messageBytes "no memory for: hash_entry->overflow",
      messageBytes ", 'sizeof(bucket_t)' = 24"], 0 ∉ text by decide +kernel)
  have hall := h _ es e htexts hrun
  have hkept := (messagesKept_errorStart _).run htexts hrun
  rw [hsince] at hall
  change MessagesKept e (textsSince es) at hkept
  rw [hsince] at hkept
  have hsame := (hkept.kept 0 _ (by decide) rfl).unique (hall.kept 0 _ (by decide) rfl)
  exact absurd hsame (by decide +kernel)

end Wednesday
