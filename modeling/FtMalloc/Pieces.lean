import FtMalloc.Conversions

/-!
# Formats in pieces

`ft_callstr` keeps nothing but its count and the place in its arguments.  So a format may be cut in
two wherever no conversion is cut: the whole does what the first piece does with its own arguments,
and then, unless that has failed, what `ft_callstr` does with the rest from the count so far.

This holds write by write, whichever writes fail, and for every descriptor (`printf_append`).
-/

set_option autoImplicit false

namespace FtMalloc

open ByteMemory

variable {ch : Channel} {s g : List Byte} {as bs : List Arg} {c d : Byte} {cnt : Int}

/-- Every `%` of the format is followed by its conversion. -/
def Whole : List Byte → Prop
  | [] => True
  | [c] => c ≠ ascii '%'
  | c :: d :: s => if c = ascii '%' then Whole s else Whole (d :: s)

instance : ∀ s, Decidable (Whole s)
  | [] => isTrue trivial
  | [c] => inferInstanceAs (Decidable (c ≠ ascii '%'))
  | c :: d :: s =>
    have := instDecidableWhole s
    have := instDecidableWhole (d :: s)
    inferInstanceAs (Decidable (if c = ascii '%' then Whole s else Whole (d :: s)))

/-! ## Rounds of the loop -/

theorem whole_lit (hp : c ≠ ascii '%') : Whole (c :: s) ↔ Whole s := by
  cases s with
  | nil => exact iff_of_true hp trivial
  | cons e s => rw [Whole, if_neg hp]

/-- A character that stands for itself takes no argument. -/
theorem matches_lit (h0 : c ≠ 0#8) (hp : c ≠ ascii '%') :
    Matches (c :: (s ++ [0#8])) as ↔ Matches (s ++ [0#8]) as := by
  have hsame : conversions (c :: (s ++ [0#8])) = conversions (s ++ [0#8]) := by
    cases s <;> exact (if_neg h0).trans (if_neg hp)
  rw [Matches, Matches, hsame]

theorem callstr_stopped (args : List Arg) (str : List Byte) :
    callstr ch args (c :: str) (-1) = pure (-1) := by
  cases str <;> rw [callstr, if_pos (.inr rfl)]

theorem callstr_lit (h0 : c ≠ 0#8) (hp : c ≠ ascii '%') (hcnt : cnt ≠ -1) (args : List Arg)
    (str : List Byte) : callstr ch args (c :: str) cnt = putchar ch.fd c >>= fun flag ↦
      if flag = -1 then pure (-1) else callstr ch args str (cnt + flag) := by
  cases str <;> rw [callstr, if_neg fun h ↦ h.elim h0 hcnt, if_neg hp]

theorem callstr_conversion (hcnt : cnt ≠ -1) (args : List Arg) (str : List Byte) :
    callstr ch args (ascii '%' :: c :: str) cnt = convert ch args c >>= fun r ↦
      if r.1 = -1 then pure (-1) else callstr ch r.2 str (cnt + r.1) := by
  rw [callstr, if_neg fun h ↦ h.elim (by decide) hcnt, if_pos rfl]

theorem callstr_arg {a : Arg} {it : Item} (hit : argItem c a = some it) (hcnt : cnt ≠ -1)
    (args : List Arg) (str : List Byte) :
    callstr ch (a :: args) (ascii '%' :: c :: str) cnt = it.run ch >>= fun flag ↦
      if flag = -1 then pure (-1) else callstr ch args str (cnt + flag) := by
  rw [callstr_conversion hcnt, convert_item ch args hit, bind_assoc]
  simp only [pure_bind]

theorem callstr_percent (hcnt : cnt ≠ -1) (args : List Arg) (str : List Byte) :
    callstr ch args (ascii '%' :: ascii '%' :: str) cnt = putchar ch.fd (ascii '%') >>= fun flag ↦
      if flag = -1 then pure (-1) else callstr ch args str (cnt + flag) := by
  have hpercent : convert ch args (ascii '%')
      = putchar ch.fd (ascii '%') >>= fun flag ↦ pure (flag, args) := rfl
  rw [callstr_conversion hcnt, hpercent, bind_assoc]
  simp only [pure_bind]

theorem callstr_unsupported (hc : takesArg c = false) (hp : c ≠ ascii '%') (hcnt : cnt ≠ -1)
    (args : List Arg) (str : List Byte) :
    callstr ch args (ascii '%' :: c :: str) cnt = pure (-1) := by
  rw [callstr_conversion hcnt, convert_unsupported ch args hc hp, pure_bind, if_pos rfl]

/-! ## Two pieces -/

/-- What is left to do after the first piece has answered. -/
def resume (ch : Channel) (bs : List Arg) (g : List Byte) (cnt : Int) : Print Int :=
  if cnt = -1 then return -1 else callstr ch bs g cnt

theorem resume_failed : resume ch bs g (-1) = pure (-1) := if_pos rfl

/-- A round of the loop of `ft_callstr`: `x` writes, and answers `flag`. -/
theorem round_resume {α : Type} {x : Print α} {flag : α → Int} {rest rest' : α → Print Int}
    (hrest : ∀ a, rest a = rest' a >>= resume ch bs g) :
    (x >>= fun a ↦ if flag a = -1 then pure (-1) else rest a) =
      (x >>= fun a ↦ if flag a = -1 then pure (-1) else rest' a) >>= resume ch bs g := by
  rw [bind_assoc]
  refine bind_congr fun a ↦ ?_
  split
  · rw [pure_bind, resume_failed]
  · exact hrest a

/-- **`ft_callstr` goes through a format piece by piece.** -/
theorem callstr_append : ∀ {s : List Byte} {as : List Arg} (cnt : Int), 0#8 ∉ s → Whole s →
    Matches (s ++ [0#8]) as → callstr ch (as ++ bs) (s ++ d :: g) cnt
      = callstr ch as (s ++ [0#8]) cnt >>= resume ch bs (d :: g)
  | [], as, cnt, _, _, hmatch => by
    obtain rfl : as = [] := List.forall₂_nil_left_iff.mp hmatch
    have hend : callstr ch [] [0#8] cnt = pure cnt := rfl
    show callstr ch bs (d :: g) cnt = callstr ch [] [0#8] cnt >>= _
    rw [hend, pure_bind, resume]
    split
    · rename_i hcnt
      rw [hcnt, callstr_stopped]
    · rfl
  | c :: s, as, cnt, h0, hwhole, hmatch => by
    have hc : c ≠ 0#8 := fun h ↦ h0 (h ▸ List.mem_cons_self)
    have h0s : 0#8 ∉ s := fun h ↦ h0 (List.mem_cons_of_mem c h)
    by_cases hcnt : cnt = -1
    · subst hcnt
      rw [List.cons_append, List.cons_append, callstr_stopped, callstr_stopped, pure_bind,
        resume_failed]
    rw [List.cons_append, List.cons_append]
    by_cases hp : c = ascii '%'
    · subst hp
      obtain ⟨e, s, rfl⟩ : ∃ e s', s = e :: s' := by
        cases s with
        | nil => exact absurd rfl hwhole
        | cons e s => exact ⟨e, s, rfl⟩
      have h0s' : 0#8 ∉ s := fun h ↦ h0s (List.mem_cons_of_mem e h)
      have hwhole' : Whole s := by rwa [Whole, if_pos rfl] at hwhole
      rw [Matches, List.cons_append, List.cons_append, conversions, if_neg hc, if_pos rfl] at hmatch
      rw [List.cons_append, List.cons_append]
      by_cases he : e = ascii '%'
      · subst he
        rw [if_pos rfl] at hmatch
        rw [callstr_percent hcnt, callstr_percent hcnt]
        exact round_resume fun flag ↦ callstr_append _ h0s' hwhole' hmatch
      rw [if_neg he] at hmatch
      by_cases harg : takesArg e = true
      · rw [if_pos harg] at hmatch
        obtain ⟨a, as, hit, hrest, rfl⟩ := List.forall₂_cons_left_iff.mp hmatch
        obtain ⟨it, hit⟩ := Option.isSome_iff_exists.mp hit
        rw [List.cons_append, callstr_arg hit hcnt, callstr_arg hit hcnt]
        exact round_resume fun flag ↦ callstr_append _ h0s' hwhole' hrest
      · have harg := Bool.eq_false_iff.mpr harg
        rw [callstr_unsupported harg he hcnt, callstr_unsupported harg he hcnt, pure_bind,
          resume_failed]
    · rw [callstr_lit hc hp hcnt, callstr_lit hc hp hcnt]
      exact round_resume fun flag ↦ callstr_append _ h0s ((whole_lit hp).mp hwhole)
        ((matches_lit hc hp).mp hmatch)

/-- **Formats in pieces.**  Let the first piece have no null and no `%` without its conversion, and
arguments that match its conversions.  Then `ft_printf` and `ft_fprintf`, given the two pieces in
one, do what they do with the first piece alone and, unless that is answered by `-1`, go on with the
rest and its arguments, from the count of the first piece.  So it is whichever writes fail. -/
theorem printf_append (ch : Channel) (h0 : 0#8 ∉ s) (hwhole : Whole s)
    (hmatch : Matches (s ++ [0#8]) as) (bs : List Arg) (d : Byte) (g : List Byte) :
    printf ch (some (s ++ d :: g)) (as ++ bs) = (do
      let cnt ← printf ch (some (s ++ [0#8])) as
      resume ch bs (d :: g) cnt) := by
  rw [printf, printf, bind_assoc]
  refine bind_congr fun fd_close ↦ ?_
  dsimp only
  split
  · rw [pure_bind, resume_failed]
  · exact callstr_append 0 h0 hwhole hmatch

/-- `"%d: "` with 7, and then `"%s"` with `"seven"`. -/
theorem printf_append_percent : ftPrintf (some (cstr "%d: %s")) [.word 7, .string (chars "seven")] =
    (do
      let cnt ← ftPrintf (some (cstr "%d: ")) [.word 7]
      if cnt = -1 then return -1 else ftCallstr [.string (chars "seven")] (cstr "%s") cnt) :=
  printf_append ⟨1, 1⟩ (s := chars "%d: ") (by decide) (by decide)
    (.cons (by decide) .nil) [.string (chars "seven")] (ascii '%') (ascii 's' :: [0#8])

end FtMalloc
