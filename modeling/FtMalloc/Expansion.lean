import FtMalloc.Writes

/-!
# The texts of the conversions

`natText`, `intText`, `hexText` and `addressText` are the canonical texts of numbers and addresses,
and `stringText` is the text of a string argument.

`Issues` says of each conversion which writes it makes, whichever of them succeed: `putnbr_issues`,
`putaddress_issues` and so on.  The bytes of these writes are the text of the argument.  On the way,
the loops of the source are followed: the divisor of `ft_putnbr` grows to the greatest power of ten
that is not above the number (`growDiv_eq`), and the buffer of `ft_put_hex` is filled from its end
and never left (`fillHex_eq`).

`intText_inj` says that a number is determined by its text.
-/

set_option autoImplicit false

namespace FtMalloc

open ByteMemory Numeral

variable {fd : Int} {ch : Channel}

/-! ## Texts -/

/-- A decimal digit. -/
def decimal (d : Nat) : Byte := BitVec.ofNat 8 (d + 48)

/-- A natural number in decimal. -/
def natText (n : Nat) : List Byte := (digits 10 n).map decimal

/-- An integer in decimal. -/
def intText (n : Int) : List Byte := (if n < 0 then [ascii '-'] else []) ++ natText n.natAbs

/-- A number in hexadecimal, with the digits of `table`. -/
def hexText (table : Nat → Byte) (n : Nat) : List Byte := (digits 16 n).map table

theorem hexText_ne_nil (table : Nat → Byte) (n : Nat) : hexText table n ≠ [] := by
  rw [hexText, Ne, List.map_eq_nil_iff]
  exact digits_ne_nil 16 n

/-- A pointer in hexadecimal. -/
def addressText (table : Nat → Byte) (p : Nat) : List Byte :=
  if p = 0 then chars "(nil)" else chars "0x" ++ hexText table p

/-- What digit a decimal digit stands for. -/
theorem toNat_decimal {d : Nat} (hd : d < 10) : (decimal d).toNat - 48 = d := by
  rw [decimal, BitVec.toNat_ofNat]
  omega

/-- A decimal digit is no minus sign and no blank. -/
theorem decimal_ne : ∀ d < 10, decimal d ≠ ascii '-' ∧ decimal d ≠ ascii ' ' := by decide

/-- Every byte of a number's text is a decimal digit. -/
theorem eq_decimal_of_mem_natText {n : Nat} {c : Byte} (hc : c ∈ natText n) :
    ∃ d < 10, c = decimal d := by
  obtain ⟨d, hd, rfl⟩ := List.mem_map.mp hc
  exact ⟨d, lt_of_mem_digits (by decide) hd, rfl⟩

/-- The text of a number can be read back, digit by digit. -/
theorem map_natText (n : Nat) : (natText n).map (fun c ↦ c.toNat - 48) = digits 10 n := by
  rw [natText, List.map_map]
  refine (List.map_congr_left fun d hd ↦ ?_).trans (List.map_id _)
  exact toNat_decimal (lt_of_mem_digits (by decide) hd)

theorem natText_inj {n m : Nat} (h : natText n = natText m) : n = m := by
  rw [← digits_inj (b := 10), ← map_natText n, h, map_natText]

/-- **A number is determined by its text.** -/
theorem intText_inj {n m : Int} (h : intText n = intText m) : n = m := by
  have hminus : ∀ k l : Nat, ascii '-' :: natText k ≠ natText l := by
    intro k l e
    obtain ⟨d, hd, hc⟩ := eq_decimal_of_mem_natText (e ▸ List.mem_cons_self : ascii '-' ∈ natText l)
    exact (decimal_ne d hd).1 hc.symm
  rw [intText, intText] at h
  by_cases hn : n < 0 <;> by_cases hm : m < 0 <;>
    simp only [hn, hm, if_true, if_false, List.nil_append, List.singleton_append] at h
  · have := natText_inj (List.cons_inj_right _ |>.mp h)
    omega
  · exact absurd h (hminus _ _)
  · exact absurd h.symm (hminus _ _)
  · have := natText_inj h
    omega

/-! ## Decimal numbers -/

/-- The loop of `ft_putnbr` that looks for the divisor ends with the greatest power of ten that is
not above the number, and never wraps. -/
theorem growDiv_eq {w nb : Nat} (hnb : nb < 2 ^ w) (hw : 0 < w) : ∀ rounds j,
    j ≤ Nat.log 10 nb → Nat.log 10 nb < j + rounds →
    growDiv w nb rounds (10 ^ j) = some (10 ^ Nat.log 10 nb)
  | 0, j, hj, hlt => absurd hlt (by omega)
  | rounds + 1, j, hj, hlt => by
    have hpos : 0 < 10 ^ j := Nat.pow_pos (by decide)
    rw [growDiv, if_neg (Nat.ne_of_gt hpos)]
    have hnext : 9 < nb / 10 ^ j ↔ 10 ^ (j + 1) ≤ nb := by
      rw [pow_succ', ← Nat.le_div_iff_mul_le hpos]
      omega
    rcases Nat.lt_or_eq_of_le hj with hlog | rfl
    · have hle : 10 ^ (j + 1) ≤ nb := by
        refine (Nat.pow_le_pow_right (by decide) hlog).trans (Nat.pow_log_le_self 10 ?_)
        rintro rfl
        simp at hlog
      rw [if_pos (hnext.mpr hle), ← pow_succ, Nat.mod_eq_of_lt (by omega)]
      exact growDiv_eq hnb hw rounds (j + 1) hlog (by omega)
    · have hlt := Nat.lt_pow_succ_log_self (b := 10) (by decide) nb
      rw [if_neg (by omega)]

/-- One write for each byte. -/
def bytewise (fd : Int) (text : List Byte) : List Chunk := text.map fun c ↦ (fd, [c])

@[simp] theorem text_bytewise (fd : Int) (text : List Byte) :
    Chunk.text (bytewise fd text) = text := by
  rw [Chunk.text, bytewise, List.flatMap_map]
  exact List.flatMap_singleton' text

theorem mem_bytewise {text : List Byte} {c : Chunk} (hc : c ∈ bytewise fd text) :
    c.1 = fd ∧ c.2 ≠ [] := by
  obtain ⟨b, -, rfl⟩ := List.mem_map.mp hc
  exact ⟨rfl, List.cons_ne_nil _ _⟩

/-- The loop of `ft_putnbr` that writes the digits, from the divisor `10 ^ k` on. -/
theorem putDigits_issues (fd : Int) : ∀ k rounds nb cnt, k + 1 < rounds →
    Issues (putDigits fd rounds nb (10 ^ k) cnt) (bytewise fd ((topDown 10 k nb).map decimal))
      (cnt + ·) := by
  intro k
  induction k with
  | zero =>
    intro rounds nb cnt hrounds
    obtain ⟨rounds, rfl⟩ : ∃ r, rounds = r + 2 := ⟨rounds - 2, by omega⟩
    have hend : ∀ s, Issues (putDigits fd (rounds + 1) (nb % 1) (1 / 10) (cnt + s)) []
        fun s' ↦ cnt + (s + s') := by
      intro s
      rw [putDigits, if_neg (by decide)]
      exact .pure (by rw [Int.add_zero])
    rw [putDigits, if_pos (by decide), pow_zero, Nat.div_one]
    exact (Issues.write fd [decimal nb]).bind hend
  | succ k ih =>
    intro rounds nb cnt hrounds
    obtain ⟨rounds, rfl⟩ : ∃ r, rounds = r + 1 := ⟨rounds - 1, by omega⟩
    have hdiv : 10 ^ (k + 1) / 10 = 10 ^ k := by rw [pow_succ, Nat.mul_div_cancel _ (by decide)]
    rw [putDigits, if_pos (Nat.pow_pos (by decide)), hdiv]
    refine (Issues.write fd [decimal (nb / 10 ^ (k + 1))]).bind fun s ↦ ?_
    simp only [← Int.add_assoc]
    exact ih rounds (nb % 10 ^ (k + 1)) (cnt + s) (by omega)

/-- Both loops together write a number in decimal, digit by digit. -/
theorem decimal_issues (fd : Int) {w nb : Nat} (cnt : Int) (hnb : nb < 2 ^ w) (hw : 0 < w)
    (hlog : Nat.log 10 nb + 1 < w) :
    Issues (do let div ← defined (growDiv w nb w 1); putDigits fd w nb div cnt)
      (bytewise fd (natText nb)) (cnt + ·) := by
  have hput := putDigits_issues fd (Nat.log 10 nb) w nb cnt hlog
  rw [topDown_log (by decide)] at hput
  exact .defined_bind (growDiv_eq hnb hw w 0 (Nat.zero_le _) (by omega)) hput

/-- The writes of `ft_putnbr`: the sign, if there is one, and the digits. -/
def intChunks (ch : Channel) (n : Int) : List Chunk :=
  (if n < 0 then [(ch.minus, [ascii '-'])] else []) ++ bytewise ch.fd (natText n.natAbs)

@[simp] theorem text_intChunks (ch : Channel) (n : Int) :
    Chunk.text (intChunks ch n) = intText n := by
  have hbytes := text_bytewise ch.fd (natText n.natAbs)
  rw [Chunk.text] at hbytes
  rw [Chunk.text, intChunks, intText, List.flatMap_append, hbytes]
  split <;> rfl

theorem putnbr_issues (ch : Channel) {n : Int} (hlo : -2 ^ 31 ≤ n) (hhi : n < 2 ^ 31) :
    Issues (putnbr ch n) (intChunks ch n) id := by
  have hlog : Nat.log 10 n.natAbs < 10 := Nat.log_lt_of_lt_pow' (by decide) (by omega)
  have hdec := fun cnt ↦ decimal_issues ch.fd (w := 64) cnt (by omega : n.natAbs < 2 ^ 64)
    (by decide) (by omega)
  rw [putnbr, intChunks]
  by_cases hneg : n < 0
  · rw [if_pos hneg, if_pos hneg]
    exact (Issues.write ch.minus [ascii '-']).bind hdec
  · have h0 : Issues (pure 0 : Print Int) [] id := .pure rfl
    rw [if_neg hneg, if_neg hneg]
    exact h0.bind hdec

theorem putnbrUn_issues (fd : Int) {n : Nat} (hn : n < 2 ^ 32) :
    Issues (putnbrUn fd n) (bytewise fd (natText n)) id := by
  have hlog : Nat.log 10 n < 10 := Nat.log_lt_of_lt_pow' (by decide) (by omega)
  have hdec := decimal_issues fd (w := 32) 0 hn (by decide) (by omega)
  simp only [Int.zero_add] at hdec
  exact hdec

/-! ## Hexadecimal numbers -/

theorem bufferFrom_self (hex : Nat → Byte) (size : Nat) : bufferFrom hex size size = [] := by
  rw [bufferFrom, Nat.sub_self]
  rfl

/-- One more byte in front of those that are in the buffer. -/
theorem bufferFrom_update (hex : Nat → Byte) {size cnt : Nat} (hcnt : cnt < size) (v : Byte) :
    bufferFrom (Function.update hex cnt v) size cnt = v :: bufferFrom hex size (cnt + 1) := by
  obtain ⟨n, hn⟩ : ∃ n, size - cnt = n + 1 := ⟨size - cnt - 1, by omega⟩
  have hn' : size - (cnt + 1) = n := by omega
  rw [bufferFrom, bufferFrom, hn, hn', List.range'_succ, List.map_cons, Function.update_self]
  refine congrArg _ (List.map_congr_left fun i hi ↦ Function.update_of_ne ?_ _ _)
  have := (List.mem_range'_1.mp hi).1
  omega

/-- The loop that fills the buffer puts the digits in front of what the buffer holds, and stays
inside of it. -/
theorem fillHex_eq (table : Nat → Byte) (size : Nat) : ∀ cnt rounds address hex, cnt < rounds →
    cnt ≤ size → address < 16 ^ cnt → ∃ cnt' hex',
      fillHex table rounds address cnt hex = some (cnt', hex') ∧ bufferFrom hex' size cnt'
        = (Nat.digits 16 address).reverse.map table ++ bufferFrom hex size cnt := by
  intro cnt
  induction cnt with
  | zero =>
    intro rounds address hex hrounds _ hlt
    obtain ⟨rounds, rfl⟩ : ∃ r, rounds = r + 1 := ⟨rounds - 1, by omega⟩
    obtain rfl : address = 0 := by omega
    exact ⟨0, hex, by rw [fillHex, if_neg (by decide)], by simp⟩
  | succ cnt ih =>
    intro rounds address hex hrounds hsize hlt
    obtain ⟨rounds, rfl⟩ : ∃ r, rounds = r + 1 := ⟨rounds - 1, by omega⟩
    rcases Nat.eq_zero_or_pos address with rfl | hpos
    · exact ⟨cnt + 1, hex, by rw [fillHex, if_neg (by decide)], by simp⟩
    · obtain ⟨cnt', hex', hfill, hbuf⟩ := ih rounds (address / 16)
        (Function.update hex cnt (table (address % 16))) (by omega) (by omega)
        (Nat.div_lt_of_lt_mul (by rwa [← pow_succ']))
      refine ⟨cnt', hex', ?_, ?_⟩
      · rw [fillHex, if_pos hpos, if_neg (by omega)]
        exact hfill
      · rw [hbuf, bufferFrom_update hex hsize, Nat.digits_def' (by decide) hpos]
        simp

/-- The text of a number that is not zero, by way of the buffer. -/
theorem fillHex_hexText (table : Nat → Byte) (size : Nat) {address : Nat} (hex : Nat → Byte)
    (hpos : 0 < address) (hlt : address < 16 ^ size) : ∃ cnt hex',
      fillHex table (size + 1) address size hex = some (cnt, hex') ∧
        bufferFrom hex' size cnt = hexText table address := by
  obtain ⟨cnt, hex', hfill, hbuf⟩ :=
    fillHex_eq table size size (size + 1) address hex (by omega) (Nat.le_refl _) hlt
  refine ⟨cnt, hex', hfill, ?_⟩
  rw [hbuf, bufferFrom_self, List.append_nil, hexText, digits_of_pos hpos]

/-- The writes of `ft_putaddress`. -/
def addressChunks (fd : Int) (table : Nat → Byte) (p : Nat) : List Chunk :=
  if p = 0 then [(fd, chars "(nil)")] else [(fd, chars "0x"), (fd, hexText table p)]

@[simp] theorem text_addressChunks (fd : Int) (table : Nat → Byte) (p : Nat) :
    Chunk.text (addressChunks fd table p) = addressText table p := by
  rw [addressChunks, addressText]
  split
  · rfl
  · simp [Chunk.text]

theorem putaddress_issues (fd : Int) (table : Nat → Byte) {address : Nat} (hlt : address < 2 ^ 64) :
    Issues (putaddress fd table address) (addressChunks fd table address) id := by
  rw [putaddress, addressChunks]
  by_cases h0 : address = 0
  · rw [if_pos h0, if_pos h0]
    exact .write fd _
  · obtain ⟨cnt, hex, hfill, hbuf⟩ := fillHex_hexText table 16 (fun _ ↦ 0#8)
      (Nat.pos_of_ne_zero h0) (by rw [show 16 = 2 ^ 4 from rfl, ← pow_mul]; exact hlt)
    rw [if_neg h0, if_neg h0, ← hbuf]
    exact .defined_bind hfill ((Issues.write fd (chars "0x")).bind fun prefixed ↦
      (Issues.write fd (bufferFrom hex 16 cnt)).bind_pure (prefixed + ·))

theorem putHex_issues (fd : Int) {table : Nat → Byte} (htable : table 0 = ascii '0') {n : Nat}
    (hlt : n < 2 ^ 32) : Issues (putHex fd table n) [(fd, hexText table n)] id := by
  rw [putHex]
  by_cases h0 : n = 0
  · have htext : hexText table 0 = chars "0" := by
      show [table 0] = _
      rw [htable]
      rfl
    rw [if_pos h0, h0, htext]
    exact .write fd _
  · obtain ⟨cnt, hex, hfill, hbuf⟩ := fillHex_hexText table 8 (fun _ ↦ 0#8)
      (Nat.pos_of_ne_zero h0) (by rw [show 16 = 2 ^ 4 from rfl, ← pow_mul]; exact hlt)
    rw [if_neg h0, ← hbuf]
    exact .defined_bind hfill (.write fd _)

/-! ## Strings -/

theorem putstrLoop_issues (fd : Int) : ∀ s cnt,
    Issues (putstrLoop fd s cnt) (bytewise fd s) (cnt + ·)
  | [], cnt => .pure (Int.add_zero cnt)
  | c :: s, cnt => (Issues.write fd [c]).bind fun sent ↦ by
      simp only [← Int.add_assoc]
      exact putstrLoop_issues fd s (cnt + sent)

/-- The text of a string argument. -/
def stringText (s : Option (List Byte)) : List Byte := s.getD (chars "(null)")

/-- The writes of `ft_putstr`. -/
def stringChunks (fd : Int) : Option (List Byte) → List Chunk
  | none => [(fd, chars "(null)")]
  | some s => bytewise fd s

@[simp] theorem text_stringChunks (fd : Int) (s : Option (List Byte)) :
    Chunk.text (stringChunks fd s) = stringText s := by
  cases s with
  | none => rfl
  | some s => exact text_bytewise fd s

/-- The answer of `ft_putstr`: its count is cut down to an `int`. -/
def stringAnswer : Option (List Byte) → Int → Int
  | none => id
  | some _ => asInt

theorem putstr_issues (fd : Int) (s : Option (List Byte)) :
    Issues (putstr fd s) (stringChunks fd s) (stringAnswer s) := by
  cases s with
  | none => exact .write fd _
  | some s =>
    have hloop := putstrLoop_issues fd s 0
    simp only [Int.zero_add] at hloop
    exact hloop.bind_pure asInt

/-! ## How long a text is -/

theorem length_intText {n : Int} (hlo : -2 ^ 31 ≤ n) (hhi : n < 2 ^ 31) :
    (intText n).length ≤ 11 := by
  have hnat : (natText n.natAbs).length ≤ 10 := by
    rw [natText, List.length_map]
    exact length_digits_le (by decide) (by decide) (by omega)
  rw [intText, List.length_append]
  split
  · rw [List.length_singleton]
    omega
  · rw [List.length_nil]
    omega

theorem length_addressText (table : Nat → Byte) {p : Nat} (hp : p < 2 ^ 64) :
    (addressText table p).length ≤ 18 := by
  have hhex : (hexText table p).length ≤ 16 := by
    rw [hexText, List.length_map]
    refine length_digits_le (by decide) (by decide) ?_
    rw [show 16 = 2 ^ 4 from rfl, ← pow_mul]
    exact hp
  have hlead : (chars "0x").length = 2 := by decide
  rw [addressText]
  split
  · decide
  · rw [List.length_append]
    omega

end FtMalloc
