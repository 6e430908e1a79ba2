import FtMalloc.Formats

/-!
# What `ft_printf` sends

`printf_sends_expansion` is the specification of `ft_printf` for the caller of it: for any format
that ends with a null byte, and arguments that match its conversions one by one, it sends the
expansion of the format, and stops in front of the first conversion that is not supported.

The format is a list of bytes whose last one is the null, so that a `ft_callstr` that read past it
would be `undefined`.  The arguments are those of the conversions, and any others behind them: what
the call does must not depend on `more`.
-/

set_option autoImplicit false

namespace FtMalloc

open ByteMemory

variable {str s : List Byte} {args : List Arg}

/-- The conversions of a format that take an argument, up to the first one that is not supported. -/
def conversions : List Byte → List Byte
  | [] => []
  | [_] => []
  | c :: d :: str =>
    if c = 0#8 then []
    else if c = ascii '%' then
      if d = ascii '%' then conversions str
      else if takesArg d then d :: conversions str
      else []
    else conversions (d :: str)

/-- There is one argument for each conversion, of the kind the conversion takes, in their order. -/
def Matches (str : List Byte) (args : List Arg) : Prop :=
  List.Forall₂ (fun c a ↦ (argItem c a).isSome = true) (conversions str) args

end FtMalloc
