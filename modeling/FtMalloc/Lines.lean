import FtMalloc.Formats

/-!
# Lines

A report is a sequence of lines, one call of `ft_printf` for each, and nobody looks at what these
calls answer.  So a write that fails costs the rest of its line at most: the next line is tried all
the same.

* `Tries` — what a call of `ft_printf` or `ft_fprintf` may do with its line, when some of its writes
  fail.
* `Lines` — a computation that tries some lines; it has a rule for each way the functions of the
  report are put together.
* `Lines.emits` — when every write succeeds, all lines are sent.
-/

set_option autoImplicit false

namespace FtMalloc

open ByteMemory CharMap Numeral

variable {α β : Type} {fd : Int} {ch : Channel} {writes : Nat → Bool}

/-! ## A line -/

/-- The writes of a call of `ft_printf` or `ft_fprintf` for a line: they try a beginning of it on
the descriptor, and all of it unless one of them fails. -/
structure Tries (fd : Int) (part : List Write) (line : List Byte) : Prop where
  /-- The writes are to the descriptor. -/
  fd : ∀ w ∈ part, w.fd = fd
  /-- What is tried is a beginning of the line. -/
  beginning : part.flatMap Write.bytes <+: line
  /-- The rest is given up for a failed write only. -/
  whole : (∀ w ∈ part, w.ok = true) → part.flatMap Write.bytes = line

/-- What is sent of a line is in its order. -/
theorem Tries.sent_sublist {part : List Write} {line : List Byte} (ht : Tries fd part line) :
    (sent part).Sublist (line.map (fd, ·)) := by
  have hsub : ∀ {part : List Write}, (∀ w ∈ part, w.fd = fd) →
      (sent part).Sublist ((part.flatMap Write.bytes).map (fd, ·)) := by
    intro part hfd
    induction part with
    | nil => exact List.Sublist.refl _
    | cons w part ih =>
      obtain ⟨hw, hpart⟩ := List.forall_mem_cons.mp hfd
      rw [sent, List.flatMap_cons, List.flatMap_cons, List.map_append]
      refine List.Sublist.append ?_ (ih hpart)
      split
      · rw [hw]
      · exact List.nil_sublist _
  exact (hsub ht.fd).trans (ht.beginning.sublist.map _)

/-- What is sent of several lines is in their order. -/
theorem sent_sublist_of_tries {parts : List (List Write)} {lines : List (List Byte)}
    (ht : List.Forall₂ (Tries fd) parts lines) :
    (sent parts.flatten).Sublist (lines.flatten.map (fd, ·)) := by
  induction ht with
  | nil => exact List.Sublist.refl _
  | cons ht _ ih =>
    rw [List.flatten_cons, List.flatten_cons, sent_append, List.map_append]
    exact ht.sent_sublist.append ih

/-- A line whose writes all succeed is sent. -/
theorem Tries.sent_eq {part : List Write} {line : List Byte} (ht : Tries fd part line)
    (hok : ∀ w ∈ part, w.ok = true) : sent part = line.map (fd, ·) := by
  rw [← ht.whole hok, List.map_flatMap, sent]
  refine List.flatMap_congr fun w hw ↦ ?_
  rw [if_pos (hok w hw), ht.fd w hw]

theorem sent_of_tries {parts : List (List Write)} {lines : List (List Byte)}
    (ht : List.Forall₂ (Tries fd) parts lines) (hok : ∀ w ∈ parts.flatten, w.ok = true) :
    sent parts.flatten = lines.flatten.map (fd, ·) := by
  induction ht with
  | nil => rfl
  | cons ht _ ih =>
    rw [List.flatten_cons] at hok
    obtain ⟨hpart, hparts⟩ := List.forall_mem_append.mp hok
    rw [List.flatten_cons, List.flatten_cons, sent_append, List.map_append, ht.sent_eq hpart,
      ih hparts]

theorem bytes_issue (writes : Nat → Bool) : ∀ k cs,
    (issue writes k cs).flatMap Write.bytes = Chunk.text cs
  | _, [] => rfl
  | k, c :: cs => by
    rw [issue, List.flatMap_cons, bytes_issue writes (k + 1) cs]
    rfl

theorem fd_of_mem_issue {w : Write} : ∀ {k : Nat} {cs : List Chunk}, w ∈ issue writes k cs →
    ∃ c ∈ cs, w.fd = c.1
  | k, c :: cs, hw => by
    rcases List.mem_cons.mp hw with rfl | hw
    · exact ⟨c, List.mem_cons_self, rfl⟩
    · obtain ⟨d, hd, hwd⟩ := fd_of_mem_issue hw
      exact ⟨d, List.mem_cons_of_mem c hd, hwd⟩

/-- Where every write succeeds, so do these. -/
theorem ok_of_mem_issue (hall : ∀ k, writes k = true) {k : Nat} {cs : List Chunk} :
    ∀ w ∈ issue writes k cs, w.ok = true := by
  obtain rfl : writes = fun _ ↦ true := funext hall
  exact ok_issue_true k cs

/-- The writes of the items that are reached are those of a beginning of the list. -/
theorem outcome_beginning (ch : Channel) (writes : Nat → Bool) (supported : Bool) :
    ∀ (items : List Item) (k : Nat) (cnt2 : Int), ∃ cs, cs <+: itemChunks ch items ∧
      (outcome ch writes supported k items cnt2).2 = issue writes k cs
  | [], k, cnt2 => ⟨[], List.nil_prefix, rfl⟩
  | it :: items, k, cnt2 => by
    have hsplit : itemChunks ch (it :: items) = it.chunks ch ++ itemChunks ch items :=
      List.flatMap_cons
    rw [outcome, hsplit]
    split
    · exact ⟨[], List.nil_prefix, rfl⟩
    · dsimp only
      split
      · exact ⟨it.chunks ch, List.prefix_append _ _, rfl⟩
      · obtain ⟨cs, hcs, hrest⟩ := outcome_beginning ch writes supported items
          (k + (issue writes k (it.chunks ch)).length)
          (cnt2 + it.answer (answers (issue writes k (it.chunks ch))))
        refine ⟨it.chunks ch ++ cs, (List.prefix_append_right_inj _).mpr hcs, ?_⟩
        rw [hrest, issue_append, length_issue]

/-- All items are reached unless a write fails. -/
theorem outcome_whole (supported : Bool) : ∀ {items : List Item} {k : Nat} {cnt2 : Int}, 0 ≤ cnt2 →
    (items.flatMap Item.text).length < 2 ^ 31 →
    (∀ w ∈ (outcome ch writes supported k items cnt2).2, w.ok = true) →
    (outcome ch writes supported k items cnt2).2 = issue writes k (itemChunks ch items)
  | [], k, cnt2, _, _, _ => rfl
  | it :: items, k, cnt2, hcnt, hlen, hok => by
    have hsplit : itemChunks ch (it :: items) = it.chunks ch ++ itemChunks ch items :=
      List.flatMap_cons
    rw [List.flatMap_cons, List.length_append] at hlen
    rw [outcome, if_neg (by omega)] at hok ⊢
    have hit : ∀ w ∈ issue writes k (it.chunks ch), w.ok = true := by
      intro w hw
      refine hok w ?_
      dsimp only
      split
      · exact hw
      · exact List.mem_append_left _ hw
    have hflag : it.answer (answers (issue writes k (it.chunks ch))) = it.text.length := by
      rw [answers_issue hit, it.text_chunks]
      exact it.answer_of_bounds (by omega) (by omega)
    simp only [hflag] at hok ⊢
    rw [if_neg (by omega)] at hok ⊢
    have hrest := outcome_whole supported (by omega : 0 ≤ cnt2 + (it.text.length : Int))
      (by omega) (List.forall_mem_append.mp hok).2
    rw [hrest, hsplit, issue_append, length_issue]

/-- **A line is tried.**  No number of the line may be negative, unless the minus sign goes to the
same descriptor. -/
theorem printf_tries (ch : Channel) {str : List Byte} {args : List Arg} {p : Plan}
    (hplan : plan str args = some p) (hch : ∀ it ∈ p.items, it.Negative → ch.minus = ch.fd)
    (hlen : p.text.length < 2 ^ 31) (writes : Nat → Bool) (log : List Write) :
    ∃ r part, printf ch (some str) args writes log = some (r, log ++ part) ∧
      Tries ch.fd part p.text ∧ ((∀ k, writes k = true) → ∀ w ∈ part, w.ok = true) := by
  have hrun := printf_outcome ch hplan writes log
  split at hrun
  · obtain ⟨cs, ⟨ds, hcs⟩, hlog⟩ :=
      outcome_beginning ch writes p.supported p.items (log.length + 1) 0
    refine ⟨_, _, hrun, ⟨fun w hw ↦ ?_, ?_, fun hok ↦ ?_⟩, fun hall ↦ ?_⟩
    · rcases List.mem_cons.mp hw with rfl | hw
      · rfl
      · rw [hlog] at hw
        obtain ⟨c, hc, hwc⟩ := fd_of_mem_issue hw
        rw [hwc]
        exact fd_of_mem_itemChunks hch c (hcs ▸ List.mem_append_left ds hc)
    · have htext := text_itemChunks ch p.items
      rw [← hcs, Chunk.text, List.flatMap_append] at htext
      rw [List.flatMap_cons, List.nil_append, hlog, bytes_issue, Plan.text, ← htext]
      exact List.prefix_append _ _
    · have hwhole := outcome_whole p.supported (Int.le_refl 0) hlen (List.forall_mem_cons.mp hok).2
      rw [List.flatMap_cons, List.nil_append, hwhole, bytes_issue, text_itemChunks]
      rfl
    · rw [hlog]
      exact List.forall_mem_cons.mpr ⟨rfl, ok_of_mem_issue hall⟩
  · rename_i hprobe
    refine ⟨_, _, hrun, ⟨?_, List.nil_prefix, fun hok ↦ ?_⟩, fun hall ↦ absurd (hall _) hprobe⟩
    · exact fun w hw ↦ by rw [List.mem_singleton.mp hw]
    · exact absurd (hok _ (List.mem_singleton_self _)) (by simp)

/-- `ft_printf` tries a line on descriptor 1. -/
theorem ftPrintf_tries {str line : List Byte} {args : List Arg} (hexp : expand str args = some line)
    (hlen : line.length < 2 ^ 31) (writes : Nat → Bool) (log : List Write) :
    ∃ r part, ftPrintf (some str) args writes log = some (r, log ++ part) ∧
      Tries 1 part line ∧ ((∀ k, writes k = true) → ∀ w ∈ part, w.ok = true) := by
  obtain ⟨p, hplan, -, rfl⟩ := plan_of_expand hexp
  exact printf_tries ⟨1, 1⟩ hplan (fun _ _ _ ↦ rfl) hlen writes log

/-! ## Several lines -/

/-- Whichever writes succeed, `m` tries the lines, one after the other, and then returns `a`. -/
def Lines (m : Print α) (a : α) (lines : List (List Byte)) : Prop :=
  ∀ writes log, ∃ parts : List (List Write),
    m writes log = some (a, log ++ parts.flatten) ∧ List.Forall₂ (Tries 1) parts lines ∧
      ((∀ k, writes k = true) → ∀ w ∈ parts.flatten, w.ok = true)

namespace Lines

theorem pure (a : α) : Lines (pure a) a [] := by
  intro writes log
  refine ⟨[], ?_, .nil, fun _ w hw ↦ absurd hw (by simp)⟩
  rw [List.flatten_nil, List.append_nil]
  rfl

theorem bind {m : Print α} {f : α → Print β} {a : α} {b : β} {lines lines' : List (List Byte)}
    (hm : Lines m a lines) (hf : Lines (f a) b lines') : Lines (m >>= f) b (lines ++ lines') := by
  intro writes log
  obtain ⟨parts, hrun, htries, hok⟩ := hm writes log
  obtain ⟨parts', hrun', htries', hok'⟩ := hf writes (log ++ parts.flatten)
  refine ⟨parts ++ parts', ?_, List.rel_append htries htries', fun hall ↦ ?_⟩
  · show (m writes log).bind (fun r ↦ f r.1 writes r.2) = _
    rw [hrun, List.flatten_append, ← List.append_assoc]
    exact hrun'
  · rw [List.flatten_append]
    exact List.forall_mem_append.mpr ⟨hok hall, hok' hall⟩

/-- A call of `ft_printf` whose answer is not looked at. -/
theorem printf_bind {str line : List Byte} {args : List Arg} {m : Print β} {b : β}
    {lines : List (List Byte)} (hexp : expand str args = some line) (hlen : line.length < 2 ^ 31)
    (hm : Lines m b lines) :
    Lines (ftPrintf (some str) args >>= fun _ ↦ m) b (line :: lines) := by
  intro writes log
  obtain ⟨r, part, hrun, ht, hok⟩ := ftPrintf_tries hexp hlen writes log
  obtain ⟨parts, hrun', htries, hok'⟩ := hm writes (log ++ part)
  refine ⟨part :: parts, ?_, .cons ht htries, fun hall ↦ ?_⟩
  · show (ftPrintf (some str) args writes log).bind (fun r ↦ m writes r.2) = _
    rw [hrun, List.flatten_cons, ← List.append_assoc]
    exact hrun'
  · rw [List.flatten_cons]
    exact List.forall_mem_append.mpr ⟨hok hall, hok' hall⟩

/-- **When every write succeeds**, the lines are sent. -/
theorem emits {m : Print α} {a : α} {lines : List (List Byte)} (hm : Lines m a lines) :
    Emits 1 m a lines.flatten := by
  intro log
  obtain ⟨parts, hrun, htries, hok⟩ := hm (fun _ ↦ true) log
  exact ⟨_, hrun, by rw [sent_append, sent_of_tries htries (hok fun _ ↦ rfl)]⟩

end Lines

end FtMalloc
