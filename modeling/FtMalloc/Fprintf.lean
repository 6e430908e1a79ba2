import FtMalloc.Formats

/-!
# `ft_fprintf`

The formatter is there twice, and the two halves differ in one call: `ft_fputnbr` writes its minus
sign with `ft_putchar`, which knows one descriptor only.  `fprintf_same_iff` says what follows:
`ft_fprintf` does on its descriptor what `ft_printf` does on descriptor 1, unless the descriptor is
another one and some number it gets to is negative.
-/

set_option autoImplicit false

namespace FtMalloc

open ByteMemory

variable {str : List Byte} {args : List Arg} {p : Plan}

/-! ## The walk when every write succeeds -/

/-- What an item adds to the count when it is sent. -/
def Item.count (it : Item) : Int := it.answer it.text.length

/-- The items `ft_callstr` gets to.  It is stopped by a string so long that its length is `-1` as an
`int`, and by a count that comes to `-1` for that reason. -/
def reached : List Item → Int → List Item
  | [], _ => []
  | it :: items, cnt2 =>
    if cnt2 = -1 then []
    else if it.count = -1 then [it]
    else it :: reached items (cnt2 + it.count)

/-- What `ft_callstr` answers. -/
def settle (supported : Bool) : List Item → Int → Int
  | [], cnt2 => if supported then cnt2 else -1
  | it :: items, cnt2 =>
    if cnt2 = -1 then -1
    else if it.count = -1 then -1
    else settle supported items (cnt2 + it.count)

theorem outcome_true (ch : Channel) (supported : Bool) : ∀ items k cnt2,
    outcome ch (fun _ ↦ true) supported k items cnt2 = (settle supported items cnt2,
      issue (fun _ ↦ true) k (itemChunks ch (reached items cnt2))) := by
  intro items
  induction items with
  | nil => exact fun k cnt2 ↦ rfl
  | cons it items ih =>
    intro k cnt2
    have hflag : it.answer (answers (issue (fun _ ↦ true) k (it.chunks ch))) = it.count := by
      rw [answers_issue (ok_issue_true _ _), it.text_chunks, Item.count]
    rw [outcome, settle, reached]
    by_cases hcnt : cnt2 = -1
    · simp only [if_pos hcnt]
      rfl
    · simp only [if_neg hcnt, hflag, length_issue]
      by_cases hstop : it.count = -1
      · simp only [if_pos hstop]
        rw [itemChunks, List.flatMap_singleton]
      · simp only [if_neg hstop]
        rw [ih, itemChunks, itemChunks, List.flatMap_cons, issue_append]

/-- What `ft_printf` and `ft_fprintf` do when every write succeeds. -/
theorem printf_true (ch : Channel) (hplan : plan str args = some p) (log : List Write) :
    ∃ log',
      printf ch (some str) args (fun _ ↦ true) log = some (settle p.supported p.items 0, log') ∧
      sent log'
        = sent log ++ (itemChunks ch (reached p.items 0)).flatMap fun c ↦ c.2.map (c.1, ·) := by
  have hrun := printf_outcome ch hplan (fun _ ↦ true) log
  rw [if_pos rfl, outcome_true] at hrun
  refine ⟨_, hrun, ?_⟩
  rw [sent_append, ← sent_issue (ok_issue_true (log.length + 1) _)]
  rfl

/-- Where no minus sign goes astray, one descriptor gets it all. -/
theorem printf_emits_reached (ch : Channel) (hplan : plan str args = some p)
    (hch : ∀ it ∈ reached p.items 0, it.Negative → ch.minus = ch.fd) :
    Emits ch.fd (printf ch (some str) args) (settle p.supported p.items 0)
      ((reached p.items 0).flatMap Item.text) := by
  intro log
  obtain ⟨log', hrun, hsent⟩ := printf_true ch hplan log
  refine ⟨log', hrun, ?_⟩
  rw [hsent, ← text_itemChunks ch, Chunk.text, List.map_flatMap]
  refine congrArg _ (List.flatMap_congr fun c hc ↦ ?_)
  rw [fd_of_mem_itemChunks hch c hc]

/-! ## The comparison -/

/-- When every write succeeds, `ft_fprintf` sends to `fd` what `ft_printf` sends to descriptor 1,
and nothing to any other descriptor, and both return the same. -/
def SameAsPrintf (fd : Nat) (str : List Byte) (args : List Arg) : Prop :=
  ∃ n out, Emits 1 (ftPrintf (some str) args) n out ∧
    Emits (asInt fd) (ftFprintf fd (some str) args) n out

/-- **`ft_fprintf` does what `ft_printf` does** exactly if its descriptor is 1 or no number it gets
to is negative. -/
theorem fprintf_same_iff (fd : Nat) (hplan : plan str args = some p) :
    SameAsPrintf fd str args ↔ asInt fd = 1 ∨ ∀ it ∈ reached p.items 0, ¬ it.Negative := by
  constructor
  · rintro ⟨n, out, -, hf⟩
    by_contra hno
    push Not at hno
    obtain ⟨hfd, it, hit, hneg⟩ := hno
    obtain ⟨log, hrun, hsent⟩ := hf []
    obtain ⟨log', hrun', hsent'⟩ := printf_true ⟨asInt fd, 1⟩ hplan []
    obtain rfl : log = log' := by
      have heq := hrun.symm.trans hrun'
      rw [Option.some_inj, Prod.mk.injEq] at heq
      exact heq.2
    -- the minus sign is among the bytes that were sent
    have hmem : ((1 : Int), ascii '-') ∈ sent log := by
      rw [hsent']
      refine List.mem_append_right _
        (List.mem_flatMap.mpr ⟨(1, [ascii '-']), ?_, List.mem_singleton_self _⟩)
      refine List.mem_flatMap.mpr ⟨it, hit, ?_⟩
      cases it with
      | int n =>
        have hn : n.toInt < 0 := hneg
        rw [Item.chunks, intChunks, if_pos hn]
        exact List.mem_cons_self
      | _ => exact hneg.elim
    rw [hsent] at hmem
    obtain ⟨c, -, hc⟩ := List.mem_map.mp hmem
    exact hfd (congrArg Prod.fst hc)
  · intro hok
    refine ⟨_, _, printf_emits_reached ⟨1, 1⟩ hplan fun _ _ _ ↦ rfl, ?_⟩
    refine printf_emits_reached ⟨asInt fd, 1⟩ hplan fun it hit hneg ↦ ?_
    rcases hok with hfd | hnone
    · exact hfd.symm
    · exact absurd hneg (hnone it hit)

theorem fprintf_same_iff_percent : SameAsPrintf 2 (cstr "%u%%") [.word 7] ↔
    asInt 2 = 1 ∨ ∀ it ∈ reached [.nat 7, .char (ascii '%')] 0, ¬ it.Negative :=
  fprintf_same_iff (p := ⟨[.nat 7, .char (ascii '%')], true⟩) 2 rfl

/-- **A minus sign goes astray**: `ft_fprintf(2, "%d", -5)` sends it to descriptor 1. -/
theorem fprintf_minus : (plan (cstr "%d") [.int (-5)]).isSome = true ∧
    ¬ SameAsPrintf 2 (cstr "%d") [.int (-5)] := by
  refine ⟨by decide, ?_⟩
  rintro ⟨n, out, -, hf⟩
  obtain ⟨log, hrun, hsent⟩ := hf []
  have hlog : ftFprintf 2 (some (cstr "%d")) [.int (-5)] (fun _ ↦ true) []
      = some (2, [⟨2, [], true⟩, ⟨1, [ascii '-'], true⟩, ⟨2, [ascii '5'], true⟩]) := by
    decide +kernel
  rw [hlog, Option.some_inj, Prod.mk.injEq] at hrun
  obtain ⟨-, rfl⟩ := hrun
  have hmem : ((1 : Int), ascii '-') ∈ List.map (asInt (2 : Nat), ·) out := by
    rw [← List.nil_append (List.map _ out), ← show sent [] = [] from rfl, ← hsent]
    decide
  obtain ⟨c, -, hc⟩ := List.mem_map.mp hmem
  have hfd : asInt (2 : Nat) = 1 := congrArg Prod.fst hc
  exact absurd hfd (by decide)

end FtMalloc
