import FtMalloc.Formats

/-!
# `ft_printf` when a write fails

`ft_callstr` gives up when an item answers `-1`, or when the count has become `-1`.  But an item of
several writes answers with the sum of what they answer, and a failed write among others is lost in
that sum.  `write_errors_iff` says for every pattern of failures whether the first of them is
reported, from the conversion it happens in, the number of its writes that fail, its length, and the
number of bytes sent before (`Item.Caught`).

To report a failure is to answer `-1` and to come to no conversion behind it.  What `ft_callstr`
comes to is counted by `callstrRounds`, and `conversionRounds` says which rounds are conversions:
one that writes nothing, such as `%s` of an empty string, is a conversion as well.  Plain characters
behind a failure are no conversions; they may bring the count to `-1`, or fail themselves.
-/

set_option autoImplicit false

namespace FtMalloc

open ByteMemory

variable {ch : Channel} {writes : Nat → Bool} {str : List Byte} {args : List Arg} {p : Plan}
  {done rest items : List Item} {it : Item} {k : Nat}

/-! ## The first failure -/

/-- The first write that fails is one of `it`, behind the items `done`. -/
structure FirstFailure (writes : Nat → Bool) (p : Plan) (done : List Item) (it : Item)
    (rest : List Item) : Prop where
  probe : writes 0 = true
  split : p.items = done ++ it :: rest
  sent : ∀ w ∈ issue writes 1 (itemChunks ⟨1, 1⟩ done), w.ok = true
  failed : ∃ w ∈ issue writes (1 + (itemChunks ⟨1, 1⟩ done).length) (it.chunks ⟨1, 1⟩), w.ok = false

/-- If a write fails, some write is the first to fail. -/
theorem exists_first : ∀ {items : List Item} {k : Nat},
    (∃ w ∈ issue writes k (itemChunks ch items), w.ok = false) →
      ∃ done it rest, items = done ++ it :: rest ∧
        (∀ w ∈ issue writes k (itemChunks ch done), w.ok = true) ∧
        ∃ w ∈ issue writes (k + (itemChunks ch done).length) (it.chunks ch), w.ok = false
  | [], _, h => absurd h (by simp [itemChunks, issue])
  | it :: items, k, h => by
    rw [itemChunks_cons, issue_append] at h
    obtain ⟨w, hw, hno⟩ := h
    by_cases hit : ∃ w ∈ issue writes k (it.chunks ch), w.ok = false
    · exact ⟨[], it, items, rfl, fun w hw ↦ absurd hw (by simp [itemChunks, issue]), hit⟩
    · have hok : ∀ w ∈ issue writes k (it.chunks ch), w.ok = true := by
        intro w hw
        by_contra hw'
        exact hit ⟨w, hw, Bool.eq_false_iff.mpr hw'⟩
      have hrest : w ∈ issue writes (k + (it.chunks ch).length) (itemChunks ch items) := by
        rcases List.mem_append.mp hw with hw | hw
        · exact absurd (hok w hw) (by simp [hno])
        · exact hw
      obtain ⟨done, next, rest, rfl, hsent, hfail⟩ := exists_first ⟨w, hrest, hno⟩
      refine ⟨it :: done, next, rest, rfl, ?_, ?_⟩
      · rw [itemChunks_cons, issue_append]
        exact List.forall_mem_append.mpr ⟨hok, hsent⟩
      · rw [itemChunks_cons, List.length_append, ← Nat.add_assoc]
        exact hfail

theorem FirstFailure.not_ok (hf : FirstFailure writes p done it rest) :
    ∃ w ∈ issue writes 1 (itemChunks ⟨1, 1⟩ p.items), w.ok = false := by
  obtain ⟨w, hw, hno⟩ := hf.failed
  refine ⟨w, ?_, hno⟩
  rw [hf.split, itemChunks, List.flatMap_append, issue_append]
  exact List.mem_append_right _ (by
    rw [List.flatMap_cons, issue_append]
    exact List.mem_append_left _ hw)

/-! ## Which failures are caught -/

/-- The number of writes that fail. -/
def failures (writes : Nat → Bool) (k : Nat) (chunks : List Chunk) : Nat :=
  (issue writes k chunks).countP fun w ↦ !w.ok

/-- `failed` writes among the writes of one byte each that send a text of `len` bytes are caught,
with `before` bytes sent before. -/
def CaughtAmong (before failed len : Nat) : Prop :=
  2 * failed = len + 1 ∨ 2 * failed = before + len + 1

/-- Of the writes of the item some fail, `failed` of them, and `before` bytes were sent before: is
the failure caught?  A failed write is always caught when it is the only one of the item. -/
def Item.Caught (before failed : Nat) : Item → Prop
  | .string (some s) => CaughtAmong before failed s.length
  | .int n => CaughtAmong before failed (intText n.toInt).length
  | .nat n => CaughtAmong before failed (natText n.toNat).length
  | .address _ p => p = 0 ∨ (before = 1 ∧ failed = 2)
  | .char _ | .hex _ _ | .string none => True

theorem failures_cons (c : Chunk) (chunks : List Chunk) : failures writes k (c :: chunks)
    = failures writes (k + 1) chunks + if writes k then 0 else 1 := by
  rw [failures, issue, List.countP_cons]
  cases writes k <;> rfl

theorem answers_cons (c : Chunk) (chunks : List Chunk) : answers (issue writes k (c :: chunks))
    = (if writes k then (c.2.length : Int) else -1) + answers (issue writes (k + 1) chunks) :=
  List.sum_cons

theorem failures_pos (hf : ∃ w ∈ issue writes k (it.chunks ch), w.ok = false) :
    0 < failures writes k (it.chunks ch) := by
  obtain ⟨w, hw, hno⟩ := hf
  exact List.countP_pos_iff.mpr ⟨w, hw, by simp [hno]⟩

/-- The answers of writes that are not empty are bounded by their bytes. -/
theorem answers_bounds : ∀ {chunks : List Chunk} {k : Nat}, (∀ c ∈ chunks, c.2 ≠ []) →
    -((Chunk.text chunks).length : Int) ≤ answers (issue writes k chunks) ∧
      answers (issue writes k chunks) ≤ (Chunk.text chunks).length
  | [], _, _ => by simp [issue, answers, Chunk.text]
  | c :: chunks, k, hne => by
    obtain ⟨hc, hrest⟩ := List.forall_mem_cons.mp hne
    have hpos := List.length_pos_iff.mpr hc
    have ih := answers_bounds (k := k + 1) hrest
    have htext : (Chunk.text (c :: chunks)).length = c.2.length + (Chunk.text chunks).length := by
      rw [Chunk.text, List.flatMap_cons, List.length_append, Chunk.text]
    have hsum : answers (issue writes k (c :: chunks))
        = Write.answer ⟨c.1, c.2, writes k⟩ + answers (issue writes (k + 1) chunks) :=
      List.sum_cons
    have hw : Write.answer ⟨c.1, c.2, writes k⟩ = (c.2.length : Int) ∨
        Write.answer ⟨c.1, c.2, writes k⟩ = -1 := by
      rw [Write.answer]
      split
      · exact .inl rfl
      · exact .inr rfl
    rw [hsum, htext]
    push_cast
    omega

/-- What writes of one byte each answer. -/
theorem answers_of_one : ∀ {chunks : List Chunk} {k : Nat}, (∀ c ∈ chunks, c.2.length = 1) →
    (Chunk.text chunks).length = chunks.length ∧
      answers (issue writes k chunks) = chunks.length - 2 * failures writes k chunks
  | [], _, _ => ⟨rfl, rfl⟩
  | c :: chunks, k, hone => by
    obtain ⟨hc, hrest⟩ := List.forall_mem_cons.mp hone
    obtain ⟨hlen, hsum⟩ := answers_of_one (k := k + 1) hrest
    refine ⟨?_, ?_⟩
    · rw [Chunk.text, List.flatMap_cons, List.length_append, ← Chunk.text, hlen, hc,
        List.length_cons, Nat.add_comm]
    · rw [answers_cons, failures_cons, hsum, hc, List.length_cons]
      split <;> push_cast <;> omega

theorem caughtAmong_iff {chunks : List Chunk} (hone : ∀ c ∈ chunks, c.2.length = 1) (before : Nat) :
    CaughtAmong before (failures writes k chunks) (Chunk.text chunks).length ↔
      answers (issue writes k chunks) = -1 ∨ before + answers (issue writes k chunks) = -1 := by
  obtain ⟨hlen, hsum⟩ : (Chunk.text chunks).length = chunks.length ∧
      answers (issue writes k chunks) = chunks.length - 2 * failures writes k chunks :=
    answers_of_one hone
  rw [CaughtAmong, hsum, hlen]
  omega

theorem length_of_mem_bytewise {fd : Int} {text : List Byte} :
    ∀ c ∈ bytewise fd text, c.2.length = 1 := by
  intro c hc
  obtain ⟨b, -, rfl⟩ := List.mem_map.mp hc
  rfl

/-- The only write of an item is the one that fails. -/
theorem answers_of_single {c : Chunk} (hf : 0 < failures writes k [c]) :
    answers (issue writes k [c]) = -1 := by
  rw [failures_cons] at hf
  rw [answers_cons]
  cases hw : writes k with
  | true => simp [hw, failures, issue] at hf
  | false => rfl

theorem failures_of_two (c d : Chunk) : failures writes k [c, d]
    = (if writes (k + 1) then 0 else 1) + if writes k then 0 else 1 := by
  rw [failures_cons, failures_cons]
  exact congrArg (· + _) (Nat.zero_add _)

theorem answers_of_two (c d : Chunk) : answers (issue writes k [c, d])
    = (if writes k then (c.2.length : Int) else -1)
      + if writes (k + 1) then (d.2.length : Int) else -1 := by
  rw [answers_cons, answers_cons]
  exact congrArg (_ + ·) (Int.add_zero _)

/-- **A failure is caught if the answers add up to `-1`**, by themselves or with the bytes sent
before. -/
theorem Item.caught_iff (ch : Channel) (it : Item) (before : Nat)
    (hf : 0 < failures writes k (it.chunks ch)) :
    it.Caught before (failures writes k (it.chunks ch)) ↔
      answers (issue writes k (it.chunks ch)) = -1 ∨
        before + answers (issue writes k (it.chunks ch)) = -1 := by
  have hsingle : ∀ {c : Chunk}, it.chunks ch = [c] →
      answers (issue writes k (it.chunks ch)) = -1 := by
    intro c hc
    rw [hc] at hf ⊢
    exact answers_of_single hf
  have hone : (∀ c ∈ it.chunks ch, c.2.length = 1) →
      (CaughtAmong before (failures writes k (it.chunks ch)) it.text.length ↔
        answers (issue writes k (it.chunks ch)) = -1 ∨
          before + answers (issue writes k (it.chunks ch)) = -1) := by
    intro hone
    rw [← it.text_chunks ch]
    exact caughtAmong_iff hone before
  cases it with
  | char c => exact iff_of_true trivial (.inl (hsingle rfl))
  | hex upper n => exact iff_of_true trivial (.inl (hsingle rfl))
  | nat n => exact hone length_of_mem_bytewise
  | int n =>
    refine hone fun c hc ↦ (List.mem_append.mp hc).elim (fun hc ↦ ?_) (length_of_mem_bytewise c)
    split at hc
    · rw [List.mem_singleton.mp hc]
      rfl
    · exact absurd hc (by simp)
  | string s =>
    cases s with
    | none => exact iff_of_true trivial (.inl (hsingle rfl))
    | some s => exact hone length_of_mem_bytewise
  | address upper q =>
    by_cases hq : q = 0
    · subst hq
      exact iff_of_true (.inl rfl) (.inl (hsingle rfl))
    · have hne : q.toNat ≠ 0 := fun h ↦ hq (BitVec.eq_of_toNat_eq h)
      have hchunks : (Item.address upper q).chunks ch
          = [(ch.fd, chars "0x"), (ch.fd, hexText (hexTable upper) q.toNat)] := if_neg hne
      have hdigits := List.length_pos_iff.mpr (hexText_ne_nil (hexTable upper) q.toNat)
      have hx : (chars "0x").length = 2 := rfl
      -- the prefix, the digits, or both are lost
      rw [hchunks] at hf ⊢
      rw [failures_of_two] at hf
      rw [failures_of_two, answers_of_two, Item.Caught, or_iff_right hq]
      dsimp only
      rw [hx]
      cases hk : writes k <;> cases hk' : writes (k + 1) <;>
        simp only [hk, hk', Bool.false_eq_true, if_true, if_false, and_true] at hf ⊢ <;> omega

/-! ## Conversions and plain characters -/

/-- Which rounds of the loop over a format are conversions: calls of `ft_type`. -/
def conversionRounds : List Byte → List Bool
  | [] => []
  | [c] => if c = 0#8 then [] else [c = ascii '%']
  | c :: d :: str =>
    if c = 0#8 then []
    else if c = ascii '%' then true :: conversionRounds str
    else false :: conversionRounds (d :: str)

/-- How many plain characters stand in front of the next conversion. -/
def charsAhead (marks : List Bool) : Nat := (marks.takeWhile (! ·)).length

/-- The marks of a format fit its plan. -/
inductive Marked : List Bool → List Item → Bool → Prop
  | nil : Marked [] [] true
  | stop (marks : List Bool) : Marked (true :: marks) [] false
  | conversion {marks : List Bool} {items : List Item} {supported : Bool} (it : Item)
      (hrest : Marked marks items supported) : Marked (true :: marks) (it :: items) supported
  | character {marks : List Bool} {items : List Item} {supported : Bool} (c : Byte)
      (hrest : Marked marks items supported) : Marked (false :: marks) (.char c :: items) supported

theorem marked_of_plan : ∀ {str : List Byte} {args : List Arg} {p : Plan},
    plan str args = some p → Marked (conversionRounds str) p.items p.supported
  | [], _, _, hplan => absurd hplan (by simp [plan])
  | [c], args, p, hplan => by
    rw [plan] at hplan
    obtain ⟨rfl, rfl⟩ : c = 0#8 ∧ ⟨[], true⟩ = p := by simpa using hplan
    exact .nil
  | c :: d :: str, args, p, hplan => by
    rw [plan] at hplan
    rw [conversionRounds]
    by_cases h0 : c = 0#8
    · rw [if_pos h0] at hplan ⊢
      cases hplan
      exact .nil
    rw [if_neg h0] at hplan ⊢
    by_cases hp : c = ascii '%'
    · rw [if_pos hp] at hplan ⊢
      by_cases hd : d = ascii '%'
      · rw [if_pos hd] at hplan
        obtain ⟨p, hrest, rfl⟩ := Option.map_eq_some_iff.mp hplan
        exact .conversion _ (marked_of_plan hrest)
      rw [if_neg hd] at hplan
      by_cases harg : takesArg d = true
      · rw [if_pos harg] at hplan
        obtain ⟨it, -, hplan⟩ := Option.bind_eq_some_iff.mp hplan
        obtain ⟨p, hrest, rfl⟩ := Option.map_eq_some_iff.mp hplan
        exact .conversion it (marked_of_plan hrest)
      · rw [if_neg harg] at hplan
        cases hplan
        exact .stop _
    · rw [if_neg hp] at hplan ⊢
      obtain ⟨p, hrest, rfl⟩ := Option.map_eq_some_iff.mp hplan
      exact .character c (marked_of_plan hrest)

theorem Marked.drop : ∀ {done : List Item} {marks : List Bool} {supported : Bool},
    Marked marks (done ++ items) supported → Marked (marks.drop done.length) items supported
  | [], _, _, hm => hm
  | _ :: _, _, _, .conversion _ hm => hm.drop
  | _ :: _, _, _, .character _ hm => hm.drop

/-! ## The walk behind a failure -/

/-- The writes of an item that the walk gets to are made. -/
theorem prefix_outcome (supported : Bool) {it : Item} {items : List Item} {k : Nat} {cnt2 : Int}
    (hcnt : cnt2 ≠ -1) :
    issue writes k (it.chunks ch) <+: (outcome ch writes supported k (it :: items) cnt2).2 := by
  rw [outcome, if_neg hcnt]
  dsimp only
  split
  · exact List.prefix_rfl
  · exact List.prefix_append _ _

/-- The plain characters in front bring the count to `-1`, or one of them fails. -/
def CaughtAhead (ch : Channel) (writes : Nat → Bool) (marks : List Bool) (k : Nat)
    (items : List Item) (cnt2 : Int) : Prop :=
  (∃ j ≤ charsAhead marks, cnt2 + j = -1) ∨
    0 < failures writes k (itemChunks ch (items.take (charsAhead marks)))

/-- With a conversion in front, or nothing at all, it is the count. -/
theorem caughtAhead_iff_of_none {marks : List Bool} {cnt2 : Int} (h : charsAhead marks = 0) :
    CaughtAhead ch writes marks k items cnt2 ↔ cnt2 = -1 := by
  have hnone : ¬ 0 < failures writes k (itemChunks ch (items.take 0)) :=
    fun h ↦ absurd h (by simp [failures, itemChunks, issue])
  rw [CaughtAhead, h, or_iff_left hnone]
  constructor
  · rintro ⟨j, hj, h⟩
    omega
  · exact fun h ↦ ⟨0, Nat.le_refl 0, by omega⟩

theorem caughtAhead_char {marks : List Bool} {c : Byte} {cnt2 : Int} :
    CaughtAhead ch writes (false :: marks) k (.char c :: items) cnt2 ↔
      cnt2 = -1 ∨ writes k = false ∨ CaughtAhead ch writes marks (k + 1) items (cnt2 + 1) := by
  have hlen : charsAhead (false :: marks) = charsAhead marks + 1 := rfl
  have hfail : failures writes k
        (itemChunks ch ((Item.char c :: items).take (charsAhead marks + 1)))
      = failures writes (k + 1) (itemChunks ch (items.take (charsAhead marks)))
        + if writes k then 0 else 1 := by
    rw [List.take_succ_cons, itemChunks_cons]
    exact failures_cons _ _
  have hcount : (∃ j ≤ charsAhead marks + 1, cnt2 + (j : Nat) = -1) ↔
      cnt2 = -1 ∨ ∃ j ≤ charsAhead marks, cnt2 + 1 + (j : Nat) = -1 := by
    constructor
    · rintro ⟨j, hj, h⟩
      by_cases hzero : j = 0
      · exact .inl (by omega)
      · exact .inr ⟨j - 1, by omega, by omega⟩
    · rintro (h | ⟨j, hj, h⟩)
      · exact ⟨0, by omega, by omega⟩
      · exact ⟨j + 1, by omega, by omega⟩
  rw [CaughtAhead, CaughtAhead, hlen, hfail, hcount]
  cases writes k with
  | false => simp
  | true => simp [or_assoc]

/-- A plain character that the walk gets to: it goes on behind it, unless the write fails. -/
theorem outcome_char {supported : Bool} {c : Byte} {cnt2 : Int} (hcnt : cnt2 ≠ -1) :
    (outcome ch writes supported k (.char c :: items) cnt2).1
        = (if writes k then (outcome ch writes supported (k + 1) items (cnt2 + 1)).1 else -1) ∧
      rounds ch writes supported k (.char c :: items) cnt2
        = (if writes k then rounds ch writes supported (k + 1) items (cnt2 + 1) else 0) + 1 := by
  have hflag : (Item.char c).answer (answers (issue writes k ((Item.char c).chunks ch)))
      = if writes k then 1 else -1 := by
    show answers (issue writes k [_]) = _
    rw [answers_cons]
    exact Int.add_zero _
  have hstep : (issue writes k ((Item.char c).chunks ch)).length = 1 := rfl
  rw [outcome, rounds, if_neg hcnt, if_neg hcnt]
  simp only [hflag, hstep]
  cases writes k with
  | false => exact ⟨rfl, rfl⟩
  | true => exact ⟨rfl, rfl⟩

/-- **From any count on**, the walk ends with `-1` and without a conversion exactly if the plain
characters in front bring the count to `-1`, or one of them fails. -/
theorem Marked.ends_iff {marks : List Bool} {supported : Bool}
    (hm : Marked marks items supported) : ∀ {k : Nat} {cnt2 : Int},
    ((outcome ch writes supported k items cnt2).1 = -1 ∧
        true ∉ marks.take (rounds ch writes supported k items cnt2)) ↔
      CaughtAhead ch writes marks k items cnt2 := by
  induction hm with
  | nil =>
    intro k cnt2
    rw [caughtAhead_iff_of_none rfl]
    simp [outcome]
  | stop marks =>
    intro k cnt2
    rw [caughtAhead_iff_of_none rfl]
    by_cases hcnt : cnt2 = -1 <;> simp [outcome, rounds, hcnt]
  | @conversion marks items supported it hrest ih =>
    intro k cnt2
    rw [caughtAhead_iff_of_none rfl, rounds]
    by_cases hcnt : cnt2 = -1
    · simp [outcome, hcnt]
    · rw [if_neg hcnt, iff_false_right hcnt]
      rintro ⟨-, hno⟩
      dsimp only at hno
      split at hno <;> simp at hno
  | @character marks items supported c hrest ih =>
    intro k cnt2
    rw [caughtAhead_char]
    by_cases hcnt : cnt2 = -1
    · rw [outcome, rounds, if_pos hcnt, if_pos hcnt]
      exact iff_of_true ⟨rfl, by simp⟩ (.inl hcnt)
    obtain ⟨hout, hrounds⟩ := @outcome_char ch writes items k supported c cnt2 hcnt
    rw [hout, hrounds, or_iff_right hcnt, List.take_succ_cons, List.mem_cons,
      or_iff_right (by decide : true ≠ false)]
    cases writes k with
    | false =>
      -- the character is not sent, and the loop gives up
      exact iff_of_true ⟨rfl, by simp⟩ (.inl rfl)
    | true =>
      rw [or_iff_right (by decide : ¬ true = false)]
      exact ih

/-! ## Who reports a failure -/

/-- `ft_printf` of the format `str`, with the answer `r`, after `n` rounds of the loop and with the
writes `log`, has reported a write that failed: it answers `-1`, and has come to no conversion
behind the character or the conversion that the write belongs to.  If no write failed and the format
is supported, it answers with the number of bytes it sent. -/
def ReportsFailure (writes : Nat → Bool) (str : List Byte) (p : Plan) (r : Int) (n : Nat)
    (log : List Write) : Prop :=
  ((∃ w ∈ log, w.ok = false) → r = -1 ∧ (writes 0 = false → n = 0) ∧
    ∀ done it rest, FirstFailure writes p done it rest →
      true ∉ ((conversionRounds str).take n).drop (done.length + 1)) ∧
  ((∀ w ∈ log, w.ok = true) → p.supported = true → r = (sent log).length)

/-- When no write fails, `ft_printf` makes them all. -/
theorem printfRounds_of_ok (hplan : plan str args = some p) (hlen : p.text.length < 2 ^ 31)
    (hprobe : writes 0 = true) (hok : ∀ w ∈ issue writes 1 (itemChunks ⟨1, 1⟩ p.items), w.ok = true)
    {r : Int} {n : Nat} {log : List Write}
    (hrun : printfRounds ⟨1, 1⟩ (some str) args writes [] = some ((r, n), log)) :
    r = (if p.supported then (p.text.length : Int) else -1) ∧
      log = ⟨1, [], true⟩ :: issue writes 1 (itemChunks ⟨1, 1⟩ p.items) := by
  have hwalk := outcome_append p.supported [] (Int.le_refl 0) hlen hok
  rw [List.append_nil, outcome, List.append_nil, Int.zero_add] at hwalk
  have hstart := hrun.symm.trans (printfRounds_outcome ⟨1, 1⟩ hplan writes [])
  rw [List.length_nil, hprobe, if_pos rfl, walked] at hstart
  obtain ⟨hpair, rfl⟩ := Prod.mk.inj (Option.some_inj.mp hstart)
  obtain ⟨rfl, -⟩ := Prod.mk.inj hpair
  simp only [List.nil_append, List.length_singleton, List.singleton_append]
  rw [hwalk]
  exact ⟨rfl, rfl⟩

/-- When no write fails, there is nothing to report. -/
theorem reportsFailure_of_ok (hplan : plan str args = some p) (hlen : p.text.length < 2 ^ 31)
    (hprobe : writes 0 = true) (hok : ∀ w ∈ issue writes 1 (itemChunks ⟨1, 1⟩ p.items), w.ok = true)
    {r : Int} {n : Nat} {log : List Write}
    (hrun : printfRounds ⟨1, 1⟩ (some str) args writes [] = some ((r, n), log)) :
    ReportsFailure writes str p r n log := by
  obtain ⟨hr, rfl⟩ := printfRounds_of_ok hplan hlen hprobe hok hrun
  have hsent : (sent (⟨1, [], true⟩ :: issue writes 1 (itemChunks ⟨1, 1⟩ p.items))).length
      = p.text.length := by
    show (sent (issue writes 1 (itemChunks ⟨1, 1⟩ p.items))).length = _
    rw [sent_issue_of_fd (fd_of_mem_itemChunks fun _ _ _ ↦ rfl) hok, List.length_map,
      text_itemChunks]
    rfl
  refine ⟨fun ⟨w, hw, hno⟩ ↦ ?_, fun _ hsup ↦ ?_⟩
  · rcases List.mem_cons.mp hw with rfl | hw
    · exact absurd hno (by decide)
    · exact absurd (hok w hw) (by simp [hno])
  · rw [hr, if_pos hsup, hsent]

/-- When the empty write fails, nothing else is done, and that is reported. -/
theorem reportsFailure_of_probe (hplan : plan str args = some p) (hprobe : writes 0 = false)
    {r : Int} {n : Nat} {log : List Write}
    (hrun : printfRounds ⟨1, 1⟩ (some str) args writes [] = some ((r, n), log)) :
    ReportsFailure writes str p r n log := by
  have hstart := hrun.symm.trans (printfRounds_outcome ⟨1, 1⟩ hplan writes [])
  rw [List.length_nil, hprobe, if_neg (by decide)] at hstart
  obtain ⟨hpair, rfl⟩ := Prod.mk.inj (Option.some_inj.mp hstart)
  obtain ⟨rfl, rfl⟩ := Prod.mk.inj hpair
  exact ⟨fun _ ↦ ⟨rfl, fun _ ↦ rfl, fun _ _ _ hf ↦ absurd (hprobe.symm.trans hf.probe) (by decide)⟩,
    fun hall ↦ absurd (hall _ (List.mem_singleton_self _)) (by decide)⟩

/-- Up to the first failure, `ft_printf` takes the items one by one. -/
theorem FirstFailure.run (hplan : plan str args = some p) (hlen : p.text.length < 2 ^ 31)
    (hf : FirstFailure writes p done it rest) {r : Int} {n : Nat} {log : List Write}
    (hrun : printfRounds ⟨1, 1⟩ (some str) args writes [] = some ((r, n), log)) :
    ∃ n', n = n' + done.length ∧ ((r, n'), log) = walked ⟨1, 1⟩ writes p.supported
      (⟨1, [], true⟩ :: issue writes 1 (itemChunks ⟨1, 1⟩ done)) (it :: rest)
      (done.flatMap Item.text).length := by
  have htext : p.text.length = (done.flatMap Item.text).length
      + ((it :: rest).flatMap Item.text).length := by
    rw [Plan.text, hf.split, List.flatMap_append, List.length_append]
  have hwalk := outcome_append p.supported (it :: rest) (Int.le_refl 0) (by omega) hf.sent
  have hrounds := rounds_append p.supported (it :: rest) (Int.le_refl 0) (by omega) hf.sent
  have hstart := hrun.symm.trans (printfRounds_outcome ⟨1, 1⟩ hplan writes [])
  rw [List.length_nil, hf.probe, if_pos rfl, walked, hf.split] at hstart
  simp only [List.nil_append, List.length_singleton, List.singleton_append] at hstart
  rw [hwalk, hrounds] at hstart
  obtain ⟨hpair, rfl⟩ := Prod.mk.inj (Option.some_inj.mp hstart)
  obtain ⟨rfl, rfl⟩ := Prod.mk.inj hpair
  refine ⟨_, rfl, ?_⟩
  rw [walked, List.length_cons, length_issue, Nat.add_comm (itemChunks ⟨1, 1⟩ done).length,
    Int.zero_add, List.cons_append]

/-- The item `it` of a format, behind the items `done`, is where the first failure is: it is caught
by the answers of `it`, with the plain characters behind `it` counted or not, or by one of them that
fails as well. -/
def FailureCaught (writes : Nat → Bool) (str : List Byte) (done : List Item) (it : Item)
    (rest : List Item) : Prop :=
  let chars := charsAhead ((conversionRounds str).drop (done.length + 1))
  (∃ j ≤ chars, it.Caught ((done.flatMap Item.text).length + j)
    (failures writes (1 + (itemChunks ⟨1, 1⟩ done).length) (it.chunks ⟨1, 1⟩))) ∨
  0 < failures writes (1 + (itemChunks ⟨1, 1⟩ (done ++ [it])).length)
    (itemChunks ⟨1, 1⟩ (rest.take chars))

/-- **What becomes of the first failure.** -/
theorem FirstFailure.reported_iff (hplan : plan str args = some p) (hlen : p.text.length < 2 ^ 31)
    (hf : FirstFailure writes p done it rest) {r : Int} {n : Nat} {log : List Write}
    (hrun : printfRounds ⟨1, 1⟩ (some str) args writes [] = some ((r, n), log)) :
    (∃ w ∈ log, w.ok = false) ∧
      ((r = -1 ∧ true ∉ ((conversionRounds str).take n).drop (done.length + 1)) ↔
        FailureCaught writes str done it rest) := by
  obtain ⟨n', rfl, hwalk⟩ := hf.run hplan hlen hrun
  have hstart : (⟨1, [], true⟩ :: issue writes 1 (itemChunks ⟨1, 1⟩ done) : List Write).length
      = 1 + (itemChunks ⟨1, 1⟩ done).length := by
    rw [List.length_cons, length_issue, Nat.add_comm]
  have htext : p.text.length = (done.flatMap Item.text).length
      + ((it :: rest).flatMap Item.text).length := by
    rw [Plan.text, hf.split, List.flatMap_append, List.length_append]
  rw [text_cons] at htext
  have hbounds := @answers_bounds writes _ (1 + (itemChunks ⟨1, 1⟩ done).length)
    (it.chunk_ne_nil ⟨1, 1⟩)
  rw [it.text_chunks] at hbounds
  have hflag : it.answer (answers (issue writes (1 + (itemChunks ⟨1, 1⟩ done).length)
      (it.chunks ⟨1, 1⟩))) = answers (issue writes (1 + (itemChunks ⟨1, 1⟩ done).length)
        (it.chunks ⟨1, 1⟩)) := it.answer_of_bounds (by omega) (by omega)
  have hne : (((done.flatMap Item.text).length : Nat) : Int) ≠ -1 := by omega
  obtain ⟨hpair, hlog⟩ := Prod.mk.inj hwalk
  obtain ⟨hr, hn⟩ := Prod.mk.inj hpair
  refine ⟨?_, ?_⟩
  · obtain ⟨w, hw, hno⟩ := hf.failed
    refine ⟨w, ?_, hno⟩
    rw [hlog]
    show w ∈ _ ++ _
    rw [hstart]
    exact List.mem_append_right _ ((prefix_outcome p.supported hne).subset hw)
  have hmarks : Marked ((conversionRounds str).drop (done.length + 1)) rest p.supported := by
    have hm := marked_of_plan hplan
    rw [hf.split, List.append_cons] at hm
    simpa using hm.drop
  have hsnoc : (itemChunks ⟨1, 1⟩ (done ++ [it])).length
      = (itemChunks ⟨1, 1⟩ done).length + (it.chunks ⟨1, 1⟩).length := by
    rw [itemChunks, List.flatMap_append, List.flatMap_singleton, List.length_append, itemChunks]
  have hcaught := fun j : Nat ↦
    it.caught_iff ⟨1, 1⟩ ((done.flatMap Item.text).length + j) (failures_pos hf.failed)
  rw [outcome, if_neg hne, hstart] at hr
  rw [rounds, if_neg hne, hstart] at hn
  simp only [hflag, length_issue] at hr hn
  rw [List.drop_take, FailureCaught]
  simp only [hcaught]
  by_cases hstop : answers (issue writes (1 + (itemChunks ⟨1, 1⟩ done).length)
      (it.chunks ⟨1, 1⟩)) = -1
  · -- the loop gives up at the item itself
    rw [if_pos hstop] at hr hn
    rw [hn, Nat.add_comm, Nat.sub_self, List.take_zero]
    exact iff_of_true ⟨hr, by simp⟩ (.inl ⟨0, Nat.zero_le _, .inl hstop⟩)
  · rw [if_neg hstop] at hr hn
    have hbehind : ∀ m : Nat, m + 1 + done.length - (done.length + 1) = m := fun m ↦ by omega
    rw [hr, hn, hbehind, hsnoc, ← Nat.add_assoc]
    refine hmarks.ends_iff.trans (or_congr ?_ Iff.rfl)
    simp only [hstop, false_or]
    push_cast
    simp only [add_right_comm]

/-- **When `ft_printf` reports a failed write.**  It comes back, and reports a failure, exactly if
the failure is caught by the item that the first failed write belongs to, or by the plain characters
behind it. -/
theorem write_errors_iff (hplan : plan str args = some p) (hlen : p.text.length < 2 ^ 31)
    (writes : Nat → Bool) :
    (∃ r n log, ftPrintf (some str) args writes [] = some (r, log) ∧
        printfRounds ⟨1, 1⟩ (some str) args writes [] = some ((r, n), log) ∧
        ReportsFailure writes str p r n log) ↔
      ∀ done it rest, FirstFailure writes p done it rest →
        FailureCaught writes str done it rest := by
  obtain ⟨⟨⟨r, n⟩, log⟩, hrun⟩ : ∃ x, printfRounds ⟨1, 1⟩ (some str) args writes [] = some x :=
    ⟨_, printfRounds_outcome ⟨1, 1⟩ hplan writes []⟩
  have hprintf : ftPrintf (some str) args writes [] = some (r, log) := by
    show printf ⟨1, 1⟩ (some str) args writes [] = _
    rw [← printfRounds_fst]
    show (printfRounds ⟨1, 1⟩ (some str) args writes []).bind _ = _
    rw [hrun]
    rfl
  have hthe : (∃ r n log, ftPrintf (some str) args writes [] = some (r, log) ∧
      printfRounds ⟨1, 1⟩ (some str) args writes [] = some ((r, n), log) ∧
      ReportsFailure writes str p r n log) ↔ ReportsFailure writes str p r n log := by
    constructor
    · rintro ⟨r', n', log', -, hrun', hrep⟩
      obtain ⟨hpair, rfl⟩ := Prod.mk.inj (Option.some_inj.mp (hrun'.symm.trans hrun))
      obtain ⟨rfl, rfl⟩ := Prod.mk.inj hpair
      exact hrep
    · exact fun hrep ↦ ⟨r, n, log, hprintf, hrun, hrep⟩
  rw [hthe]
  cases hprobe : writes 0 with
  | false =>
    exact iff_of_true (reportsFailure_of_probe hplan hprobe hrun)
      fun _ _ _ hf ↦ absurd (hprobe.symm.trans hf.probe) (by decide)
  | true =>
    by_cases hok : ∀ w ∈ issue writes 1 (itemChunks ⟨1, 1⟩ p.items), w.ok = true
    · refine iff_of_true (reportsFailure_of_ok hplan hlen hprobe hok hrun) fun _ _ _ hf ↦ ?_
      obtain ⟨w, hw, hno⟩ := hf.not_ok
      exact absurd (hok w hw) (by simp [hno])
    · obtain ⟨done₀, it₀, rest₀, hsplit, hsent, hfail⟩ := exists_first (by simpa using hok)
      have hf₀ : FirstFailure writes p done₀ it₀ rest₀ := ⟨hprobe, hsplit, hsent, hfail⟩
      obtain ⟨⟨w, hw, hno⟩, hiff₀⟩ := hf₀.reported_iff hplan hlen hrun
      constructor
      · rintro ⟨hrep, -⟩ done it rest hf
        obtain ⟨hr, -, hall⟩ := hrep ⟨w, hw, hno⟩
        exact (hf.reported_iff hplan hlen hrun).2.mp ⟨hr, hall done it rest hf⟩
      · intro hcatch
        refine ⟨fun _ ↦ ⟨(hiff₀.mpr (hcatch _ _ _ hf₀)).1,
          fun hno' ↦ absurd (hprobe.symm.trans hno') (by decide), fun done it rest hf ↦ ?_⟩,
          fun hall ↦ absurd (hall w hw) (by simp [hno])⟩
        exact ((hf.reported_iff hplan hlen hrun).2.mpr (hcatch done it rest hf)).2

/-- **The write of an only digit is caught** when it fails. -/
theorem write_errors_iff_percent :
    ∃ r n log, ftPrintf (some (cstr "%d")) [.word 5] (fun k ↦ k ≠ 1) [] = some (r, log) ∧
      printfRounds ⟨1, 1⟩ (some (cstr "%d")) [.word 5] (fun k ↦ k ≠ 1) [] = some ((r, n), log) ∧
      ReportsFailure (fun k ↦ k ≠ 1) (cstr "%d") ⟨[.int 5], true⟩ r n log := by
  refine (write_errors_iff (p := ⟨[.int 5], true⟩) rfl (by decide) _).mpr ?_
  rintro done it rest hf
  have hsplit : [Item.int 5] = done ++ it :: rest := hf.split
  obtain ⟨rfl, rfl, rfl⟩ : done = [] ∧ it = .int 5 ∧ rest = [] := by
    cases done with
    | nil =>
      obtain ⟨hit, hrest⟩ := List.cons.inj hsplit
      exact ⟨rfl, hit.symm, hrest.symm⟩
    | cons d done => exact absurd (List.cons.inj hsplit).2 (by simp)
  exact .inl ⟨0, Nat.zero_le _, .inl (by decide)⟩

/-- **A failure is lost**: when the first digit of `ft_printf("%d", 42)` is not sent and the second
is, the answer is 0. -/
theorem lost_failure : plan (cstr "%d") [.word 42] = some ⟨[.int 42], true⟩ ∧
    ¬ ∃ r n log, ftPrintf (some (cstr "%d")) [.word 42] (fun k ↦ k ≠ 1) [] = some (r, log) ∧
      printfRounds ⟨1, 1⟩ (some (cstr "%d")) [.word 42] (fun k ↦ k ≠ 1) [] = some ((r, n), log) ∧
      ReportsFailure (fun k ↦ k ≠ 1) (cstr "%d") ⟨[.int 42], true⟩ r n log := by
  refine ⟨rfl, ?_⟩
  rintro ⟨r, n, log, hrun, -, hrep, -⟩
  have hthe : ftPrintf (some (cstr "%d")) [.word 42] (fun k ↦ k ≠ 1) []
      = some (0, [⟨1, [], true⟩, ⟨1, [ascii '4'], false⟩, ⟨1, [ascii '2'], true⟩]) := by
    decide +kernel
  obtain ⟨rfl, rfl⟩ := Prod.mk.inj (Option.some_inj.mp (hrun.symm.trans hthe))
  have hr : (0 : Int) = -1 := (hrep (by decide)).1
  exact absurd hr (by decide)

end FtMalloc
