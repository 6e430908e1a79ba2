import FtMalloc.Heap
import FtMalloc.Lib.Numeral

/-!
# `ft_printf`

The functions of `printf/`, each write of theirs one `write`.  The source has them twice, once for
descriptor 1 and once for a descriptor that is an argument; the definitions here take a descriptor
or a `Channel`, and the functions of `ft_printf` are their instances for descriptor 1.

* **Writes.**  `Print` is a piece of the program that writes: it is told which of its writes
  succeed, and it adds each of them to a log.  A write sends all its bytes or answers `-1`.
* **Undefined behaviour.**  `undefined` is where the source divides by zero, reads past the end of
  the format, leaves a buffer, takes an argument that is not there, or is still in a loop after as
  many rounds as the loop is given.  The count of `ft_callstr` is an `int`; C leaves it undefined
  where the sum gets too big for one, and the definition goes on with the sum.
* **Arguments.**  A variadic argument is eight bytes (`Arg.word`), of which a conversion reads as
  many as its type has, or points to a string (`Arg.string`).

What comes of it all when every write succeeds is the business of `FtMalloc.Expansion`.
-/

set_option autoImplicit false

namespace FtMalloc

open ByteMemory Numeral

/-! ## Bytes -/

/-- A character constant. -/
def ascii (c : Char) : Byte := BitVec.ofNat 8 c.toNat

/-- The characters of a string literal. -/
def chars (s : String) : List Byte := s.toList.map ascii

/-- A string literal, its terminating null included. -/
def cstr (s : String) : List Byte := chars s ++ [0#8]

/-! ## Writes -/

/-- A call of `write`. -/
structure Write where
  fd : Int
  bytes : List Byte
  /-- Were the bytes sent? -/
  ok : Bool
  deriving DecidableEq, Repr

/-- A piece of the program that writes.  The first argument says which writes succeed, counted from
the start of the log. -/
abbrev Print := ReaderT (Nat → Bool) (StateT (List Write) Option)

/-- What C leaves undefined. -/
def undefined {α : Type} : Print α := fun _ _ ↦ none

/-- A computation without writes. -/
def defined {α : Type} (x : Option α) : Print α := fun _ log ↦ x.map fun a ↦ (a, log)

/-- `write(fd, …)`. -/
def write (fd : Int) (bytes : List Byte) : Print Int := fun writes log ↦
  let ok := writes log.length
  some (if ok then (bytes.length : Int) else -1, log ++ [⟨fd, bytes, ok⟩])

/-- Where the functions of a family write: `fd`, and `minus` for a minus sign. -/
structure Channel where
  fd : Int
  minus : Int

/-! ## Characters and strings -/

/-- `ft_putchar`, `ft_fputchar`. -/
def putchar (fd : Int) (c : Byte) : Print Int := write fd [c]

/-- The loop of `ft_putstr`. -/
def putstrLoop (fd : Int) : List Byte → Int → Print Int
  | [], cnt => return cnt
  | c :: s, cnt => do
    let sent ← write fd [c]
    putstrLoop fd s (cnt + sent)

/-- `ft_putstr`, `ft_fputstr`; `none` is the null pointer. -/
def putstr (fd : Int) : Option (List Byte) → Print Int
  | none => write fd (chars "(null)")
  | some s => do
    let cnt ← putstrLoop fd s 0
    return asInt cnt

/-! ## Hexadecimal numbers -/

/-- `"0123456789abcdef"[d]`. -/
def hexLower (d : Nat) : Byte := (chars "0123456789abcdef").getD d 0#8

/-- `"0123456789ABCDEF"[d]`. -/
def hexUpper (d : Nat) : Byte := (chars "0123456789ABCDEF").getD d 0#8

/-- The loop that fills the buffer `hex` from its end, down to index `cnt`. -/
def fillHex (table : Nat → Byte) : Nat → Nat → Nat → (Nat → Byte) → Option (Nat × (Nat → Byte))
  | 0, _, _, _ => none
  | rounds + 1, address, cnt, hex =>
    if 0 < address then
      if cnt = 0 then none
      else
        fillHex table rounds (address / 16) (cnt - 1)
          (Function.update hex (cnt - 1) (table (address % 16)))
    else some (cnt, hex)

/-- The bytes of a buffer of length `size` from index `cnt` on. -/
def bufferFrom (hex : Nat → Byte) (size cnt : Nat) : List Byte :=
  (List.range' cnt (size - cnt)).map hex

/-- `ft_putaddress`, `ft_putaddress_upper`. -/
def putaddress (fd : Int) (table : Nat → Byte) (address : Nat) : Print Int := do
  if address = 0 then
    write fd (chars "(nil)")
  else
    let (cnt, hex) ← defined (fillHex table 17 address 16 fun _ ↦ 0#8)
    let prefixed ← write fd (chars "0x")
    let sent ← write fd (bufferFrom hex 16 cnt)
    return prefixed + sent

/-- `ft_put_hex`, `ft_put_hex_upper`. -/
def putHex (fd : Int) (table : Nat → Byte) (n : Nat) : Print Int := do
  if n = 0 then
    write fd (chars "0")
  else
    let (cnt, hex) ← defined (fillHex table 9 n 8 fun _ ↦ 0#8)
    write fd (bufferFrom hex 8 cnt)

/-! ## Decimal numbers -/

/-- `while (nb / div > 9) div *= 10;` in `w` bits. -/
def growDiv (w nb : Nat) : Nat → Nat → Option Nat
  | 0, _ => none
  | rounds + 1, div =>
    if div = 0 then none
    else if 9 < nb / div then growDiv w nb rounds (div * 10 % 2 ^ w)
    else some div

/-- The loop that writes the digits. -/
def putDigits (fd : Int) : Nat → Nat → Nat → Int → Print Int
  | 0, _, _, _ => undefined
  | rounds + 1, nb, div, cnt =>
    if 0 < div then do
      let sent ← putchar fd (BitVec.ofNat 8 (nb / div + 48))
      putDigits fd rounds (nb % div) (div / 10) (cnt + sent)
    else return cnt

/-- `ft_putnbr`, `ft_fputnbr`.  `nb` and `div` are `long`s. -/
def putnbr (ch : Channel) (n : Int) : Print Int := do
  let cnt ← if n < 0 then putchar ch.minus (ascii '-') else pure 0
  let div ← defined (growDiv 64 n.natAbs 64 1)
  putDigits ch.fd 64 n.natAbs div cnt

/-- `ft_putnbr_un`, `ft_fputnbr_un`. -/
def putnbrUn (fd : Int) (n : Nat) : Print Int := do
  let div ← defined (growDiv 32 n 32 1)
  putDigits fd 32 n div 0

/-! ## The format -/

/-- A variadic argument. -/
inductive Arg
  /-- A number or a pointer. -/
  | word (v : Nat)
  /-- A pointer to a string, without its terminating null. -/
  | string (s : List Byte)
  deriving DecidableEq, Repr

/-- An `int` as an argument. -/
def Arg.int (i : Int) : Arg := .word (i % 2 ^ 64).toNat

/-- `va_arg` of a number or a pointer. -/
def vaWord : List Arg → Print (Nat × List Arg)
  | .word v :: lst_va => return (v % 2 ^ 64, lst_va)
  | _ => undefined

/-- `va_arg(lst_va, char *)`. -/
def vaString : List Arg → Print (Option (List Byte) × List Arg)
  | .word v :: lst_va => if v % 2 ^ 64 = 0 then return (none, lst_va) else undefined
  | .string s :: lst_va => return (some s, lst_va)
  | [] => undefined

/-- `ft_type`, `ft_ftype`: the conversion `c`.  The rest of the arguments is part of the answer. -/
def convert (ch : Channel) (lst_va : List Arg) (c : Byte) : Print (Int × List Arg) := do
  if c = ascii 'c' then
    let (v, rest) ← vaWord lst_va
    return (← putchar ch.fd (BitVec.ofNat 8 v), rest)
  else if c = ascii 's' then
    let (s, rest) ← vaString lst_va
    return (← putstr ch.fd s, rest)
  else if c = ascii 'p' then
    let (v, rest) ← vaWord lst_va
    return (← putaddress ch.fd hexLower v, rest)
  else if c = ascii 'P' then
    let (v, rest) ← vaWord lst_va
    return (← putaddress ch.fd hexUpper v, rest)
  else if c = ascii 'd' ∨ c = ascii 'i' then
    let (v, rest) ← vaWord lst_va
    return (← putnbr ch (asInt v), rest)
  else if c = ascii 'u' then
    let (v, rest) ← vaWord lst_va
    return (← putnbrUn ch.fd (v % 2 ^ 32), rest)
  else if c = ascii 'x' then
    let (v, rest) ← vaWord lst_va
    return (← putHex ch.fd hexLower (v % 2 ^ 32), rest)
  else if c = ascii 'X' then
    let (v, rest) ← vaWord lst_va
    return (← putHex ch.fd hexUpper (v % 2 ^ 32), rest)
  else if c = ascii '%' then
    return (← putchar ch.fd (ascii '%'), lst_va)
  else
    return (-1, lst_va)

/-- `ft_callstr`, `ft_fcallstr`, from `str` on.  The bytes of the format include its terminating
null. -/
def callstr (ch : Channel) : List Arg → List Byte → Int → Print Int
  | _, [], _ => undefined
  | lst_va, c :: str, cnt2 =>
    if c = 0#8 ∨ cnt2 = -1 then return cnt2
    else if c = ascii '%' then
      match str with
      | [] => undefined
      | d :: str => do
        let (flag, rest) ← convert ch lst_va d
        if flag = -1 then return -1 else callstr ch rest str (cnt2 + flag)
    else do
      let flag ← putchar ch.fd c
      if flag = -1 then return -1 else callstr ch lst_va str (cnt2 + flag)

/-- `ft_printf`, `ft_fprintf`. -/
def printf (ch : Channel) (str : Option (List Byte)) (args : List Arg) : Print Int := do
  let fd_close ← write ch.fd []
  match str with
  | none => return -1
  | some str => if fd_close = -1 then return -1 else callstr ch args str 0

/-! ## The members for descriptor 1 -/

/-- `ft_putchar`. -/
def ftPutchar : Byte → Print Int := putchar 1

/-- `ft_putstr`. -/
def ftPutstr : Option (List Byte) → Print Int := putstr 1

/-- `ft_putaddress`. -/
def ftPutaddress : Nat → Print Int := putaddress 1 hexLower

/-- `ft_putaddress_upper`. -/
def ftPutaddressUpper : Nat → Print Int := putaddress 1 hexUpper

/-- `ft_put_hex`. -/
def ftPutHex : Nat → Print Int := putHex 1 hexLower

/-- `ft_put_hex_upper`. -/
def ftPutHexUpper : Nat → Print Int := putHex 1 hexUpper

/-- `ft_putnbr`. -/
def ftPutnbr : Int → Print Int := putnbr ⟨1, 1⟩

/-- `ft_putnbr_un`. -/
def ftPutnbrUn : Nat → Print Int := putnbrUn 1

/-- `ft_type`. -/
def ftType : List Arg → Byte → Print (Int × List Arg) := convert ⟨1, 1⟩

/-- `ft_callstr`. -/
def ftCallstr : List Arg → List Byte → Int → Print Int := callstr ⟨1, 1⟩

/-- `ft_printf`. -/
def ftPrintf : Option (List Byte) → List Arg → Print Int := printf ⟨1, 1⟩

/-! ## The members for a descriptor

The descriptor is a `size_t`, which `write` takes as an `int`.  `ft_fputnbr` calls `ft_putchar` for
the minus sign, and so writes it to descriptor 1. -/

/-- `ft_fputchar`. -/
def ftFputchar (c : Byte) (fd : Nat) : Print Int := putchar (asInt fd) c

/-- `ft_fputstr`. -/
def ftFputstr (s : Option (List Byte)) (fd : Nat) : Print Int := putstr (asInt fd) s

/-- `ft_fputaddress`. -/
def ftFputaddress (ptr fd : Nat) : Print Int := putaddress (asInt fd) hexLower ptr

/-- `ft_fputaddress_upper`. -/
def ftFputaddressUpper (ptr fd : Nat) : Print Int := putaddress (asInt fd) hexUpper ptr

/-- `ft_fput_hex`. -/
def ftFputHex (n fd : Nat) : Print Int := putHex (asInt fd) hexLower n

/-- `ft_fput_hex_upper`. -/
def ftFputHexUpper (n fd : Nat) : Print Int := putHex (asInt fd) hexUpper n

/-- `ft_fputnbr`. -/
def ftFputnbr (n : Int) (fd : Nat) : Print Int := putnbr ⟨asInt fd, 1⟩ n

/-- `ft_fputnbr_un`. -/
def ftFputnbrUn (n fd : Nat) : Print Int := putnbrUn (asInt fd) n

/-- `ft_ftype`. -/
def ftFtype (lst_va : List Arg) (c : Byte) (fd : Nat) : Print (Int × List Arg) :=
  convert ⟨asInt fd, 1⟩ lst_va c

/-- `ft_fcallstr`. -/
def ftFcallstr (lst_va : List Arg) (str : List Byte) (fd : Nat) (cnt2 : Int) : Print Int :=
  callstr ⟨asInt fd, 1⟩ lst_va str cnt2

/-- `ft_fprintf`. -/
def ftFprintf (fd : Nat) (str : Option (List Byte)) (args : List Arg) : Print Int :=
  printf ⟨asInt fd, 1⟩ str args

end FtMalloc
