import FtMalloc.Expansion

/-!
# The digits of numbers

`digits_put` is what the six functions of `ft_printf` that write numbers do, for every number of
their type: they come back, whichever of their writes succeed, without dividing by zero and without
leaving their buffer (both would be `undefined`), and they write a numeral (`Spells`): digits of the
base, without a leading zero, that read back as the number.

The reader is `readDigits`, a fold over the digits; it knows nothing of how they were computed.
`Divisor` are the divisors the loops of `ft_putnbr` and `ft_putnbr_un` go through, and none of them
overflows.
-/

set_option autoImplicit false

namespace FtMalloc

open ByteMemory Numeral

/-! ## Reading -/

/-- A sequence of digits, read in the base that has them. -/
def readDigits (alphabet text : List Byte) : Nat :=
  text.foldl (fun n c ↦ n * alphabet.length + alphabet.idxOf c) 0

/-- A decimal number, with a minus sign in front or not. -/
def readInt : List Byte → Int
  | [] => 0
  | c :: text =>
    if c = ascii '-' then -(readDigits (chars "0123456789") text : Int)
    else readDigits (chars "0123456789") (c :: text)

/-- `text` is `n`, written with the digits of the alphabet, and without a leading zero. -/
structure Spells (alphabet text : List Byte) (n : Nat) : Prop where
  nonempty : text ≠ []
  digit : ∀ c ∈ text, c ∈ alphabet
  lead : text.head? = some (ascii '0') → text = [ascii '0']
  value : readDigits alphabet text = n

variable {alphabet : List Byte} {table : Nat → Byte} {n : Nat}

/-- The digits of a number, taken from an alphabet without repetitions that starts with `0`. -/
theorem spells_digits (hb : 1 < alphabet.length) (hidx : ∀ d < alphabet.length,
      table d ∈ alphabet ∧ alphabet.idxOf (table d) = d) (hzero : table 0 = ascii '0') :
    Spells alphabet ((digits alphabet.length n).map table) n where
  nonempty := fun h ↦ digits_ne_nil _ n (List.map_eq_nil_iff.mp h)
  digit := fun c hc ↦ by
    obtain ⟨d, hd, rfl⟩ := List.mem_map.mp hc
    exact (hidx d (lt_of_mem_digits hb hd)).1
  lead := fun h ↦ by
    rw [List.head?_map] at h
    obtain ⟨d, hd, hc⟩ := Option.map_eq_some_iff.mp h
    have hlt := lt_of_mem_digits hb (List.mem_of_head? hd)
    obtain rfl : d = 0 := by
      rw [← (hidx d hlt).2, hc, ← hzero, (hidx 0 (by omega)).2]
    rw [eq_zero_of_head_digits hd, ← hzero]
    rfl
  value := by
    rw [readDigits, List.foldl_map]
    refine Eq.trans ?_ (foldl_digits alphabet.length n)
    refine List.foldl_ext _ _ 0 fun m d hd ↦ ?_
    rw [(hidx d (lt_of_mem_digits hb hd)).2]

theorem spells_natText (n : Nat) : Spells (chars "0123456789") (natText n) n :=
  spells_digits (by decide) (by decide) (by decide)

theorem spells_hexText_lower (n : Nat) : Spells (chars "0123456789abcdef") (hexText hexLower n) n :=
  spells_digits (by decide) (by decide) (by decide)

theorem spells_hexText_upper (n : Nat) : Spells (chars "0123456789ABCDEF") (hexText hexUpper n) n :=
  spells_digits (by decide) (by decide) (by decide)

/-- **A number with its sign is read back.** -/
theorem readInt_intText (n : Int) : readInt (intText n) = n := by
  have hvalue := (spells_natText n.natAbs).value
  rw [intText]
  by_cases hneg : n < 0
  · rw [if_pos hneg, List.singleton_append, readInt, if_pos rfl, hvalue]
    omega
  · rw [if_neg hneg, List.nil_append]
    cases htext : natText n.natAbs with
    | nil => exact absurd htext (spells_natText n.natAbs).nonempty
    | cons c text =>
      have hdigit := (spells_natText n.natAbs).digit c (by rw [htext]; exact List.mem_cons_self)
      have hne : c ≠ ascii '-' := by
        rintro rfl
        exact absurd hdigit (by decide)
      rw [readInt, if_neg hne, ← htext, hvalue]
      omega

/-! ## Divisors -/

/-- The divisors that `while (nb / div > 9) div *= 10;` tests, in `w` bits. -/
inductive Divisor (w nb : Nat) : Nat → Prop
  | start : Divisor w nb 1
  | next {div : Nat} (h : Divisor w nb div) (hgo : 9 < nb / div) : Divisor w nb (div * 10 % 2 ^ w)

/-- **The divisor does not overflow**: it is never zero, and it is not multiplied beyond the
number. -/
theorem Divisor.bounds {w nb div : Nat} (hnb : nb < 2 ^ w) (h : Divisor w nb div) :
    0 < div ∧ (9 < nb / div → div * 10 ≤ nb) := by
  have hgrow : ∀ {div}, 9 < nb / div → div * 10 ≤ nb := by
    intro div hgo
    calc div * 10 ≤ div * (nb / div) := Nat.mul_le_mul_left _ hgo
      _ ≤ nb := Nat.mul_div_le nb div
  refine ⟨?_, hgrow⟩
  induction h with
  | start => decide
  | next h hgo ih =>
    have hle := hgrow hgo
    rw [Nat.mod_eq_of_lt (by omega)]
    omega

/-! ## The functions -/

/-- Whichever of its writes succeed, `m` comes back, and the bytes it writes are `text`. -/
def Puts (m : Print Int) (text : List Byte) : Prop :=
  ∃ chunks f, Issues m chunks f ∧ Chunk.text chunks = text

/-- **The digits of numbers and addresses.**  Each function comes back with its digits written, and
they are the numeral of its argument; the divisors of the decimal ones stay within a `long` and
within an `unsigned int`. -/
theorem digits_put :
    (∀ n : BitVec 32, ∃ sign digits, Puts (ftPutnbr n.toInt) (sign ++ digits) ∧
      readInt (sign ++ digits) = n.toInt ∧ Spells (chars "0123456789") digits n.toInt.natAbs ∧
      sign = (if n.toInt < 0 then [ascii '-'] else []) ∧
      ∀ div, Divisor 64 n.toInt.natAbs div →
        0 < div ∧ (9 < n.toInt.natAbs / div → div * 10 < 2 ^ 63)) ∧
    (∀ n : BitVec 32, ∃ digits, Puts (ftPutnbrUn n.toNat) digits ∧
      Spells (chars "0123456789") digits n.toNat ∧
      ∀ div, Divisor 32 n.toNat div → 0 < div ∧ (9 < n.toNat / div → div * 10 < 2 ^ 32)) ∧
    (∀ n : BitVec 32,
      (∃ digits, Puts (ftPutHex n.toNat) digits ∧
        Spells (chars "0123456789abcdef") digits n.toNat) ∧
      ∃ digits, Puts (ftPutHexUpper n.toNat) digits ∧
        Spells (chars "0123456789ABCDEF") digits n.toNat) ∧
    (∀ p : BitVec 64, p ≠ 0 →
      (∃ digits, Puts (ftPutaddress p.toNat) (chars "0x" ++ digits) ∧
        Spells (chars "0123456789abcdef") digits p.toNat) ∧
      ∃ digits, Puts (ftPutaddressUpper p.toNat) (chars "0x" ++ digits) ∧
        Spells (chars "0123456789ABCDEF") digits p.toNat) ∧
    Puts (ftPutaddress 0) (chars "(nil)") ∧ Puts (ftPutaddressUpper 0) (chars "(nil)") := by
  have haddress : ∀ (table : Nat → Byte) (p : BitVec 64), p ≠ 0 →
      Puts (putaddress 1 table p.toNat) (chars "0x" ++ hexText table p.toNat) := by
    intro table p hp
    have h0 : p.toNat ≠ 0 := fun h ↦ hp (BitVec.eq_of_toNat_eq h)
    refine ⟨_, _, putaddress_issues 1 table p.isLt, ?_⟩
    rw [text_addressChunks, addressText, if_neg h0]
  refine ⟨fun n ↦ ?_, fun n ↦ ?_, fun n ↦ ⟨?_, ?_⟩, fun p hp ↦ ⟨?_, ?_⟩, ?_, ?_⟩
  · have hlo := n.le_toInt
    have hhi := n.toInt_lt
    refine ⟨_, _, ⟨_, _, putnbr_issues ⟨1, 1⟩ hlo hhi, text_intChunks ⟨1, 1⟩ _⟩,
      readInt_intText n.toInt, spells_natText _, rfl, fun div hdiv ↦ ?_⟩
    have hbounds := hdiv.bounds (by omega)
    exact ⟨hbounds.1, fun hgo ↦ by have := hbounds.2 hgo; omega⟩
  · have hlt := n.isLt
    refine ⟨_, ⟨_, _, putnbrUn_issues 1 hlt, text_bytewise 1 _⟩, spells_natText _,
      fun div hdiv ↦ ?_⟩
    have hbounds := hdiv.bounds hlt
    exact ⟨hbounds.1, fun hgo ↦ by have := hbounds.2 hgo; omega⟩
  · exact ⟨_, ⟨_, _, putHex_issues 1 (by decide) n.isLt, List.append_nil _⟩, spells_hexText_lower _⟩
  · exact ⟨_, ⟨_, _, putHex_issues 1 (by decide) n.isLt, List.append_nil _⟩, spells_hexText_upper _⟩
  · exact ⟨_, haddress hexLower p hp, spells_hexText_lower _⟩
  · exact ⟨_, haddress hexUpper p hp, spells_hexText_upper _⟩
  · exact ⟨_, _, .write 1 _, List.append_nil _⟩
  · exact ⟨_, _, .write 1 _, List.append_nil _⟩

end FtMalloc
