import FtMalloc.Expansion

/-!
# The text a format stands for

`expand` is the text of a format with its arguments, and `plan` is how `ft_printf` gets there: the
list of items it sends, characters and conversions, and whether it reaches the end of the format or
is stopped by a conversion it does not know.  `ft_callstr` is a walk along the plan: `outcome` is
that walk, with the writes it makes and the answer it gives, for any pattern of writes that fail,
and `callstrRounds_outcome` says that `ft_callstr` does just this.

* `printf_emits` — when every write succeeds, a format is sent as its expansion, and the answer is
  the length of it;
* `ftPrintf_returns` — whichever writes succeed, `ft_printf` comes back.
-/

set_option autoImplicit false

namespace FtMalloc

open ByteMemory Numeral

variable {fd : Int} {ch : Channel}

/-! ## Counts -/

theorem asInt_bounds (i : Int) : -2 ^ 31 ≤ asInt i ∧ asInt i < 2 ^ 31 := by
  rw [asInt, BitVec.toInt_ofInt]
  simp only [Int.bmod]
  omega

/-- The low 32 bits are among the low 64. -/
theorem asInt_emod (i : Int) : asInt (i % 2 ^ 64) = asInt i := by
  rw [asInt, asInt, BitVec.toInt_ofInt, BitVec.toInt_ofInt]
  simp only [Int.bmod]
  omega

theorem asInt_of_bounds {i : Int} (hlo : -2 ^ 31 ≤ i) (hhi : i < 2 ^ 31) : asInt i = i := by
  rw [asInt, BitVec.toInt_ofInt]
  simp only [Int.bmod]
  omega

/-! ## Expansions -/

/-- The text of the argument `a` under the conversion `c`. -/
def argText (c : Byte) (a : Arg) : Option (List Byte) :=
  match a with
  | .word v =>
    let v := v % 2 ^ 64
    if c = ascii 'c' then some [BitVec.ofNat 8 v]
    else if c = ascii 's' then if v = 0 then some (stringText none) else none
    else if c = ascii 'p' then some (addressText hexLower v)
    else if c = ascii 'P' then some (addressText hexUpper v)
    else if c = ascii 'd' ∨ c = ascii 'i' then some (intText (asInt v))
    else if c = ascii 'u' then some (natText (v % 2 ^ 32))
    else if c = ascii 'x' then some (hexText hexLower (v % 2 ^ 32))
    else if c = ascii 'X' then some (hexText hexUpper (v % 2 ^ 32))
    else none
  | .string s => if c = ascii 's' then some (stringText (some s)) else none

/-- The text of a format, if its conversions are supported and its arguments match them. -/
def expand : List Byte → List Arg → Option (List Byte)
  | [], _ => none
  | [c], _ => if c = 0#8 then some [] else none
  | c :: d :: str, args =>
    if c = 0#8 then some []
    else if c = ascii '%' then
      if d = ascii '%' then (expand str args).map (d :: ·)
      else (args.head?.bind (argText d)).bind fun text ↦ (expand str args.tail).map (text ++ ·)
    else (expand (d :: str) args).map (c :: ·)

/-! ## Items -/

/-- The digits of a hexadecimal conversion. -/
def hexTable (upper : Bool) : Nat → Byte := if upper then hexUpper else hexLower

/-- What `ft_callstr` sends in one go: a character, or the argument of a conversion. -/
inductive Item
  | char (c : Byte)
  | string (s : Option (List Byte))
  | address (upper : Bool) (p : BitVec 64)
  | int (n : BitVec 32)
  | nat (n : BitVec 32)
  | hex (upper : Bool) (n : BitVec 32)

namespace Item

/-- The call that sends the item. -/
def run (ch : Channel) : Item → Print Int
  | char c => putchar ch.fd c
  | string s => putstr ch.fd s
  | address upper p => putaddress ch.fd (hexTable upper) p.toNat
  | int n => putnbr ch n.toInt
  | nat n => putnbrUn ch.fd n.toNat
  | hex upper n => putHex ch.fd (hexTable upper) n.toNat

/-- The text of the item. -/
def text : Item → List Byte
  | char c => [c]
  | string s => stringText s
  | address upper p => addressText (hexTable upper) p.toNat
  | int n => intText n.toInt
  | nat n => natText n.toNat
  | hex upper n => hexText (hexTable upper) n.toNat

/-- The writes of the call. -/
def chunks (ch : Channel) : Item → List Chunk
  | char c => [(ch.fd, [c])]
  | string s => stringChunks ch.fd s
  | address upper p => addressChunks ch.fd (hexTable upper) p.toNat
  | int n => intChunks ch n.toInt
  | nat n => bytewise ch.fd (natText n.toNat)
  | hex upper n => [(ch.fd, hexText (hexTable upper) n.toNat)]

/-- The answer of the call, from the sum of what its writes answer. -/
def answer : Item → Int → Int
  | string s => stringAnswer s
  | _ => id

@[simp] theorem text_chunks (ch : Channel) (it : Item) : Chunk.text (it.chunks ch) = it.text := by
  cases it with
  | char c => rfl
  | string s => exact text_stringChunks ch.fd s
  | address upper p => exact text_addressChunks ch.fd _ _
  | int n => exact text_intChunks ch _
  | nat n => exact text_bytewise ch.fd _
  | hex upper n => exact List.append_nil _

/-- **An item is sent by its writes**, whichever of them succeed. -/
theorem issues (ch : Channel) (it : Item) : Issues (it.run ch) (it.chunks ch) it.answer := by
  cases it with
  | char c => exact .write ch.fd [c]
  | string s => exact putstr_issues ch.fd s
  | address upper p => exact putaddress_issues ch.fd _ p.isLt
  | int n => exact putnbr_issues ch n.le_toInt n.toInt_lt
  | nat n => exact putnbrUn_issues ch.fd n.isLt
  | hex upper n => exact putHex_issues ch.fd (by cases upper <;> decide) n.isLt

/-- The item is a number with a minus sign. -/
def Negative : Item → Prop
  | int n => n.toInt < 0
  | _ => False

/-- An item is sent to one descriptor, but for the minus sign. -/
theorem chunk_fd {it : Item} (hch : it.Negative → ch.minus = ch.fd) :
    ∀ c ∈ it.chunks ch, c.1 = ch.fd := by
  cases it with
  | char c => exact List.forall_mem_singleton.mpr rfl
  | string s =>
    cases s with
    | none => exact List.forall_mem_singleton.mpr rfl
    | some s => exact fun c hc ↦ (mem_bytewise hc).1
  | address upper p =>
    rw [chunks, addressChunks]
    split
    · exact List.forall_mem_singleton.mpr rfl
    · exact List.forall_mem_cons.mpr ⟨rfl, List.forall_mem_singleton.mpr rfl⟩
  | int n =>
    refine fun c hc ↦ (List.mem_append.mp hc).elim (fun hc ↦ ?_) fun hc ↦ (mem_bytewise hc).1
    split at hc
    · rename_i hneg
      rw [List.mem_singleton.mp hc]
      exact hch hneg
    · exact absurd hc (by simp)
  | nat n => exact fun c hc ↦ (mem_bytewise hc).1
  | hex upper n => exact List.forall_mem_singleton.mpr rfl

/-- No write of an item is empty. -/
theorem chunk_ne_nil (ch : Channel) (it : Item) : ∀ c ∈ it.chunks ch, c.2 ≠ [] := by
  cases it with
  | char c => exact List.forall_mem_singleton.mpr (List.cons_ne_nil _ _)
  | string s =>
    cases s with
    | none => exact List.forall_mem_singleton.mpr (List.cons_ne_nil _ _)
    | some s => exact fun c hc ↦ (mem_bytewise hc).2
  | address upper p =>
    rw [chunks, addressChunks]
    split
    · exact List.forall_mem_singleton.mpr (List.cons_ne_nil _ _)
    · exact List.forall_mem_cons.mpr
        ⟨List.cons_ne_nil _ _, List.forall_mem_singleton.mpr (hexText_ne_nil _ _)⟩
  | int n =>
    refine fun c hc ↦ (List.mem_append.mp hc).elim (fun hc ↦ ?_) fun hc ↦ (mem_bytewise hc).2
    split at hc
    · rw [List.mem_singleton.mp hc]
      exact List.cons_ne_nil _ _
    · exact absurd hc (by simp)
  | nat n => exact fun c hc ↦ (mem_bytewise hc).2
  | hex upper n => exact List.forall_mem_singleton.mpr (hexText_ne_nil _ _)

end Item

/-- The item an argument is under a conversion. -/
def argItem (c : Byte) (a : Arg) : Option Item :=
  match a with
  | .word v =>
    if c = ascii 'c' then some (.char (BitVec.ofNat 8 (v % 2 ^ 64)))
    else if c = ascii 's' then if v % 2 ^ 64 = 0 then some (.string none) else none
    else if c = ascii 'p' then some (.address false (BitVec.ofNat 64 v))
    else if c = ascii 'P' then some (.address true (BitVec.ofNat 64 v))
    else if c = ascii 'd' ∨ c = ascii 'i' then some (.int (BitVec.ofInt 32 (v % 2 ^ 64 : Nat)))
    else if c = ascii 'u' then some (.nat (BitVec.ofNat 32 (v % 2 ^ 64)))
    else if c = ascii 'x' then some (.hex false (BitVec.ofNat 32 (v % 2 ^ 64)))
    else if c = ascii 'X' then some (.hex true (BitVec.ofNat 32 (v % 2 ^ 64)))
    else none
  | .string s => if c = ascii 's' then some (.string (some s)) else none

/-- The item has the text of the argument. -/
theorem argText_eq (c : Byte) (a : Arg) : argText c a = (argItem c a).map Item.text := by
  cases a with
  | word v =>
    simp only [argText, argItem]
    split_ifs <;> rfl
  | string s =>
    simp only [argText, argItem]
    split_ifs <;> rfl

/-- **A conversion sends its argument**, and leaves the others. -/
theorem convert_item (ch : Channel) {c : Byte} {a : Arg} {it : Item} (args : List Arg)
    (hit : argItem c a = some it) :
    convert ch (a :: args) c = (do let flag ← it.run ch; return (flag, args)) := by
  cases a with
  | word v =>
    rw [argItem] at hit
    rw [convert]
    split_ifs at hit with hc hs hnull hp hP hd hu hx hX <;> cases hit
    · rw [if_pos hc]
      rfl
    · rw [if_neg hc, if_pos hs, vaString, if_pos hnull]
      rfl
    · rw [if_neg hc, if_neg hs, if_pos hp]
      rfl
    · rw [if_neg hc, if_neg hs, if_neg hp, if_pos hP]
      rfl
    · rw [if_neg hc, if_neg hs, if_neg hp, if_neg hP, if_pos hd]
      rfl
    · rw [if_neg hc, if_neg hs, if_neg hp, if_neg hP, if_neg hd, if_pos hu]
      rfl
    · rw [if_neg hc, if_neg hs, if_neg hp, if_neg hP, if_neg hd, if_neg hu, if_pos hx]
      rfl
    · rw [if_neg hc, if_neg hs, if_neg hp, if_neg hP, if_neg hd, if_neg hu, if_neg hx, if_pos hX]
      rfl
  | string s =>
    rw [argItem] at hit
    split_ifs at hit with hs
    cases hit
    rw [convert, if_neg (by rw [hs]; decide), if_pos hs]
    rfl

/-- Does the conversion take an argument? -/
def takesArg (c : Byte) : Bool := (chars "cspPdiuxX").contains c

/-- A conversion that takes no argument and is not `%%` is not supported. -/
theorem convert_unsupported (ch : Channel) (args : List Arg) {c : Byte} (hc : takesArg c = false)
    (hp : c ≠ ascii '%') : convert ch args c = pure (-1, args) := by
  have hne : ∀ d ∈ chars "cspPdiuxX", c ≠ d := by
    rintro d hd rfl
    rw [takesArg, List.contains_iff_mem.mpr hd] at hc
    exact absurd hc (by decide)
  have hdi : ¬ (c = ascii 'd' ∨ c = ascii 'i') := by
    rintro (h | h)
    · exact hne _ (by decide) h
    · exact hne _ (by decide) h
  rw [convert, if_neg (hne _ (by decide)), if_neg (hne _ (by decide)), if_neg (hne _ (by decide)),
    if_neg (hne _ (by decide)), if_neg hdi, if_neg (hne _ (by decide)), if_neg (hne _ (by decide)),
    if_neg (hne _ (by decide)), if_neg hp]

theorem takesArg_of_argItem {c : Byte} {a : Arg} {it : Item} (hit : argItem c a = some it) :
    takesArg c = true := by
  cases a with
  | word v =>
    rw [argItem] at hit
    split_ifs at hit with hc hs hnull hp hP hd hu hx hX
    all_goals (try rcases hd with hd | hd) <;> subst c <;> decide
  | string s =>
    rw [argItem] at hit
    split_ifs at hit with hs
    subst hs
    decide

/-! ## Plans -/

/-- What a format comes to with its arguments. -/
structure Plan where
  /-- The items to be sent, up to the first conversion that is not supported. -/
  items : List Item
  /-- Is there no such conversion? -/
  supported : Bool

/-- One more item in front. -/
def Plan.cons (it : Item) (p : Plan) : Plan := { p with items := it :: p.items }

/-- The text of the items. -/
def Plan.text (p : Plan) : List Byte := p.items.flatMap Item.text

/-- The plan of a format, if its arguments match its conversions. -/
def plan : List Byte → List Arg → Option Plan
  | [], _ => none
  | [c], _ => if c = 0#8 then some ⟨[], true⟩ else none
  | c :: d :: str, args =>
    if c = 0#8 then some ⟨[], true⟩
    else if c = ascii '%' then
      if d = ascii '%' then (plan str args).map (.cons (.char d))
      else if takesArg d then
        (args.head?.bind (argItem d)).bind fun it ↦ (plan str args.tail).map (.cons it)
      else some ⟨[], false⟩
    else (plan (d :: str) args).map (.cons (.char c))

/-- A format with an expansion has a plan that reaches the end. -/
theorem plan_of_expand : ∀ {str : List Byte} {args : List Arg} {out : List Byte},
    expand str args = some out → ∃ p, plan str args = some p ∧ p.supported = true ∧ p.text = out
  | [], _, _, hexp => absurd hexp (by simp [expand])
  | [c], args, out, hexp => by
    rw [expand] at hexp
    obtain ⟨rfl, rfl⟩ : c = 0#8 ∧ [] = out := by simpa using hexp
    exact ⟨⟨[], true⟩, rfl, rfl, rfl⟩
  | c :: d :: str, args, out, hexp => by
    rw [expand] at hexp
    rw [plan]
    by_cases h0 : c = 0#8
    · rw [if_pos h0] at hexp ⊢
      cases hexp
      exact ⟨⟨[], true⟩, rfl, rfl, rfl⟩
    rw [if_neg h0] at hexp ⊢
    by_cases hp : c = ascii '%'
    · rw [if_pos hp] at hexp ⊢
      by_cases hd : d = ascii '%'
      · rw [if_pos hd] at hexp ⊢
        obtain ⟨out, hout, rfl⟩ := Option.map_eq_some_iff.mp hexp
        obtain ⟨p, hplan, hsup, rfl⟩ := plan_of_expand hout
        exact ⟨p.cons (.char d), by rw [hplan]; rfl, hsup, rfl⟩
      · rw [if_neg hd] at hexp ⊢
        obtain ⟨text, htext, hexp⟩ := Option.bind_eq_some_iff.mp hexp
        obtain ⟨out, hout, rfl⟩ := Option.map_eq_some_iff.mp hexp
        obtain ⟨a, ha, htext⟩ := Option.bind_eq_some_iff.mp htext
        rw [argText_eq] at htext
        obtain ⟨it, hit, rfl⟩ := Option.map_eq_some_iff.mp htext
        obtain ⟨p, hplan, hsup, rfl⟩ := plan_of_expand hout
        rw [if_pos (takesArg_of_argItem hit), ha, Option.bind_some, hit, Option.bind_some, hplan]
        exact ⟨p.cons it, rfl, hsup, rfl⟩
    · rw [if_neg hp] at hexp ⊢
      obtain ⟨out, hout, rfl⟩ := Option.map_eq_some_iff.mp hexp
      obtain ⟨p, hplan, hsup, rfl⟩ := plan_of_expand hout
      exact ⟨p.cons (.char c), by rw [hplan]; rfl, hsup, rfl⟩

/-! ## Rounds of the loop -/

/-- `ft_callstr`, with the number of rounds of its loop: the characters and the conversions it comes
to. -/
def callstrRounds (ch : Channel) : List Arg → List Byte → Int → Print (Int × Nat)
  | _, [], _ => undefined
  | lst_va, c :: str, cnt2 =>
    if c = 0#8 ∨ cnt2 = -1 then return (cnt2, 0)
    else if c = ascii '%' then
      match str with
      | [] => undefined
      | d :: str => do
        let (flag, rest) ← convert ch lst_va d
        if flag = -1 then return (-1, 1)
        else Prod.map id (· + 1) <$> callstrRounds ch rest str (cnt2 + flag)
    else do
      let flag ← putchar ch.fd c
      if flag = -1 then return (-1, 1)
      else Prod.map id (· + 1) <$> callstrRounds ch lst_va str (cnt2 + flag)

/-- The end of a round, whatever the flag. -/
theorem round_fst (flag : Int) {m : Print (Int × Nat)} {m' : Print Int} (hm : Prod.fst <$> m = m') :
    Prod.fst <$> (if flag = -1 then pure (-1, 1) else Prod.map id (· + 1) <$> m : Print (Int × Nat))
      = if flag = -1 then pure (-1) else m' := by
  rw [← hm]
  split
  · rw [map_pure]
  · rw [Functor.map_map]
    rfl

/-- Counting the rounds changes nothing. -/
theorem callstrRounds_fst (ch : Channel) : ∀ (str : List Byte) (args : List Arg) (cnt2 : Int),
    Prod.fst <$> callstrRounds ch args str cnt2 = callstr ch args str cnt2
  | [], _, _ => rfl
  | [c], args, cnt2 => by
    rw [callstrRounds, callstr]
    split
    · rw [map_pure]
    split
    · rfl
    · rw [map_bind]
      exact bind_congr fun flag ↦ round_fst flag (callstrRounds_fst ch [] _ _)
  | c :: d :: str, args, cnt2 => by
    rw [callstrRounds, callstr]
    split
    · rw [map_pure]
    split
    · rw [map_bind]
      exact bind_congr fun x ↦ round_fst x.1 (callstrRounds_fst ch str _ _)
    · rw [map_bind]
      exact bind_congr fun flag ↦ round_fst flag (callstrRounds_fst ch (d :: str) _ _)

/-! ## The walk along a plan -/

/-- What `ft_callstr` answers and what it writes: from its `k`-th write on, with the count `cnt2` so
far. -/
def outcome (ch : Channel) (writes : Nat → Bool) (supported : Bool) :
    Nat → List Item → Int → Int × List Write
  | _, [], cnt2 => (if supported then cnt2 else -1, [])
  | k, it :: items, cnt2 =>
    if cnt2 = -1 then (-1, [])
    else
      let log := issue writes k (it.chunks ch)
      let flag := it.answer (answers log)
      if flag = -1 then (-1, log)
      else
        let rest := outcome ch writes supported (k + log.length) items (cnt2 + flag)
        (rest.1, log ++ rest.2)

/-- How many items the walk comes to, the conversion that stops it included. -/
def rounds (ch : Channel) (writes : Nat → Bool) (supported : Bool) : Nat → List Item → Int → Nat
  | _, [], cnt2 => if cnt2 = -1 ∨ supported then 0 else 1
  | k, it :: items, cnt2 =>
    if cnt2 = -1 then 0
    else
      let log := issue writes k (it.chunks ch)
      let flag := it.answer (answers log)
      if flag = -1 then 1 else rounds ch writes supported (k + log.length) items (cnt2 + flag) + 1

/-- A walk along `items`, behind the writes of `log`. -/
def walked (ch : Channel) (writes : Nat → Bool) (supported : Bool) (log : List Write)
    (items : List Item) (cnt2 : Int) : (Int × Nat) × List Write :=
  (((outcome ch writes supported log.length items cnt2).1,
    rounds ch writes supported log.length items cnt2),
    log ++ (outcome ch writes supported log.length items cnt2).2)

theorem walked_stopped {supported : Bool} {writes : Nat → Bool} {log : List Write}
    (items : List Item) : walked ch writes supported log items (-1) = ((-1, 0), log) := by
  cases items with
  | nil => simp [walked, outcome, rounds]
  | cons it items => simp [walked, outcome, rounds]

theorem walked_end {writes : Nat → Bool} (log : List Write) (cnt2 : Int) :
    walked ch writes true log [] cnt2 = ((cnt2, 0), log) := by
  simp [walked, outcome, rounds]

theorem walked_unsupported {writes : Nat → Bool} (log : List Write) {cnt2 : Int} (h : cnt2 ≠ -1) :
    walked ch writes false log [] cnt2 = ((-1, 1), log) := by
  simp [walked, outcome, rounds, h]

/-- One round of the loop. -/
theorem walked_round {m : Print Int} {it : Item} {items : List Item} {supported : Bool}
    {writes : Nat → Bool} {log : List Write} {cnt2 : Int} {rest : Int → Print (Int × Nat)}
    (hm : m = it.run ch) (hcnt : cnt2 ≠ -1)
    (hrest : ∀ flag log,
      rest flag writes log = some (walked ch writes supported log items (cnt2 + flag))) :
    (m >>= fun flag ↦ if flag = -1 then pure (-1, 1) else Prod.map id (· + 1) <$> rest flag)
        writes log = some (walked ch writes supported log (it :: items) cnt2) := by
  rw [hm, (it.issues ch).bind_apply, walked, outcome, rounds, if_neg hcnt, if_neg hcnt]
  by_cases hflag : it.answer (answers (issue writes log.length (it.chunks ch))) = -1
  · simp only [hflag, if_true]
    rfl
  · simp only [hflag, if_false]
    -- the rounds of the rest and this one
    have hmap : ∀ {x : Print (Int × Nat)} {log' : List Write} {y : (Int × Nat) × List Write},
        x writes log' = some y →
        (Prod.map id (· + 1) <$> x) writes log' = some ((y.1.1, y.1.2 + 1), y.2) := by
      intro x log' y hx
      show (x writes log').bind _ = _
      rw [hx]
      rfl
    rw [hmap (hrest _ _), walked, List.length_append, List.append_assoc]

/-- **`ft_callstr` walks along the plan.** -/
theorem callstrRounds_outcome (ch : Channel) (writes : Nat → Bool) :
    ∀ {str : List Byte} {args : List Arg} {p : Plan} (cnt2 : Int) (log : List Write),
    plan str args = some p →
    callstrRounds ch args str cnt2 writes log
      = some (walked ch writes p.supported log p.items cnt2)
  | [], _, _, _, _, hplan => absurd hplan (by simp [plan])
  | [c], args, p, cnt2, log, hplan => by
    rw [plan] at hplan
    obtain ⟨rfl, rfl⟩ : c = 0#8 ∧ ⟨[], true⟩ = p := by simpa using hplan
    rw [callstrRounds, if_pos (.inl rfl), walked_end]
    rfl
  | c :: d :: str, args, p, cnt2, log, hplan => by
    rw [plan] at hplan
    rw [callstrRounds]
    by_cases h0 : c = 0#8
    · rw [if_pos h0] at hplan
      cases hplan
      rw [if_pos (.inl h0), walked_end]
      rfl
    rw [if_neg h0] at hplan
    by_cases hcnt : cnt2 = -1
    · subst hcnt
      rw [if_pos (.inr rfl), walked_stopped]
      rfl
    rw [if_neg fun h ↦ h.elim h0 hcnt]
    by_cases hp : c = ascii '%'
    · rw [if_pos hp] at hplan ⊢
      by_cases hd : d = ascii '%'
      · rw [if_pos hd] at hplan
        obtain ⟨p, hrest, rfl⟩ := Option.map_eq_some_iff.mp hplan
        have hm :
            convert ch args d = (do let flag ← (Item.char d).run ch; return (flag, args)) := by
          subst hd
          rfl
        rw [hm, bind_assoc]
        simp only [pure_bind]
        exact walked_round rfl hcnt fun flag log ↦
          callstrRounds_outcome ch writes (cnt2 + flag) log hrest
      rw [if_neg hd] at hplan
      by_cases harg : takesArg d = true
      · rw [if_pos harg] at hplan
        obtain ⟨it, hit, hplan⟩ := Option.bind_eq_some_iff.mp hplan
        obtain ⟨p, hrest, rfl⟩ := Option.map_eq_some_iff.mp hplan
        obtain ⟨a, ha, hit⟩ := Option.bind_eq_some_iff.mp hit
        obtain ⟨args, rfl⟩ : ∃ as, args = a :: as := List.head?_eq_some_iff.mp ha
        rw [convert_item ch args hit, bind_assoc]
        simp only [pure_bind]
        exact walked_round rfl hcnt fun flag log ↦
          callstrRounds_outcome ch writes (cnt2 + flag) log hrest
      · rw [if_neg harg] at hplan
        cases hplan
        rw [convert_unsupported ch args (Bool.eq_false_iff.mpr harg) hd, pure_bind,
          walked_unsupported log hcnt]
        rfl
    · rw [if_neg hp] at hplan ⊢
      obtain ⟨p, hrest, rfl⟩ := Option.map_eq_some_iff.mp hplan
      exact walked_round rfl hcnt fun flag log ↦
        callstrRounds_outcome ch writes (cnt2 + flag) log hrest

/-- The writes of a list of items. -/
def itemChunks (ch : Channel) (items : List Item) : List Chunk := items.flatMap (Item.chunks ch)

@[simp] theorem text_itemChunks (ch : Channel) (items : List Item) :
    Chunk.text (itemChunks ch items) = items.flatMap Item.text := by
  rw [Chunk.text, itemChunks, List.flatMap_assoc]
  exact List.flatMap_congr fun it _ ↦ it.text_chunks ch

/-- Where no minus sign goes astray, all writes are to one descriptor. -/
theorem fd_of_mem_itemChunks {ch : Channel} {items : List Item}
    (hch : ∀ it ∈ items, it.Negative → ch.minus = ch.fd) :
    ∀ c ∈ itemChunks ch items, c.1 = ch.fd := by
  intro c hc
  obtain ⟨it, hit, hc⟩ := List.mem_flatMap.mp hc
  exact Item.chunk_fd (hch it hit) c hc

/-- An answer that is an `int` is not changed. -/
theorem Item.answer_of_bounds (it : Item) {n : Int} (hlo : -2 ^ 31 ≤ n) (hhi : n < 2 ^ 31) :
    it.answer n = n := by
  cases it with
  | string s =>
    cases s with
    | none => rfl
    | some s => exact asInt_of_bounds hlo hhi
  | _ => rfl

theorem itemChunks_cons (it : Item) (items : List Item) :
    itemChunks ch (it :: items) = it.chunks ch ++ itemChunks ch items := List.flatMap_cons

theorem text_cons (it : Item) (items : List Item) : ((it :: items).flatMap Item.text).length
    = it.text.length + (items.flatMap Item.text).length := by
  rw [List.flatMap_cons, List.length_append]

/-- An item whose writes all succeed answers with its length. -/
theorem Item.answer_ok {writes : Nat → Bool} {k : Nat} (it : Item) (hlen : it.text.length < 2 ^ 31)
    (hok : ∀ w ∈ issue writes k (it.chunks ch), w.ok = true) :
    it.answer (answers (issue writes k (it.chunks ch))) = it.text.length := by
  rw [answers_issue hok, it.text_chunks]
  exact it.answer_of_bounds (by omega) (by omega)

/-- **Items whose writes all succeed** are sent, and the walk goes on behind them with the number of
bytes added to the count. -/
theorem outcome_append {writes : Nat → Bool} (supported : Bool) (rest : List Item) :
    ∀ {done : List Item} {k : Nat} {cnt2 : Int}, 0 ≤ cnt2 →
      (done.flatMap Item.text).length < 2 ^ 31 →
      (∀ w ∈ issue writes k (itemChunks ch done), w.ok = true) →
      outcome ch writes supported k (done ++ rest) cnt2 =
        ((outcome ch writes supported (k + (itemChunks ch done).length) rest
            (cnt2 + (done.flatMap Item.text).length)).1,
          issue writes k (itemChunks ch done) ++
            (outcome ch writes supported (k + (itemChunks ch done).length) rest
              (cnt2 + (done.flatMap Item.text).length)).2)
  | [], k, cnt2, _, _, _ => by simp [itemChunks, issue]
  | it :: done, k, cnt2, hcnt, hlen, hok => by
    rw [itemChunks_cons, issue_append] at hok
    rw [text_cons] at hlen
    obtain ⟨hit, hdone⟩ := List.forall_mem_append.mp hok
    have hflag := it.answer_ok (by omega) hit
    have ih := outcome_append supported rest (by omega : 0 ≤ cnt2 + (it.text.length : Int))
      (by omega) hdone
    rw [List.cons_append, outcome, if_neg (by omega)]
    simp only [hflag, length_issue]
    rw [if_neg (by omega), ih, itemChunks_cons, text_cons, issue_append, List.length_append]
    push_cast
    simp only [Nat.add_assoc, Int.add_assoc, List.append_assoc]

/-- Each of them takes one round. -/
theorem rounds_append {writes : Nat → Bool} (supported : Bool) (rest : List Item) :
    ∀ {done : List Item} {k : Nat} {cnt2 : Int}, 0 ≤ cnt2 →
      (done.flatMap Item.text).length < 2 ^ 31 →
      (∀ w ∈ issue writes k (itemChunks ch done), w.ok = true) →
      rounds ch writes supported k (done ++ rest) cnt2 =
        rounds ch writes supported (k + (itemChunks ch done).length) rest
          (cnt2 + (done.flatMap Item.text).length) + done.length
  | [], k, cnt2, _, _, _ => by simp [itemChunks]
  | it :: done, k, cnt2, hcnt, hlen, hok => by
    rw [itemChunks_cons, issue_append] at hok
    rw [text_cons] at hlen
    obtain ⟨hit, hdone⟩ := List.forall_mem_append.mp hok
    have hflag := it.answer_ok (by omega) hit
    have ih := rounds_append supported rest (by omega : 0 ≤ cnt2 + (it.text.length : Int))
      (by omega) hdone
    rw [List.cons_append, rounds, if_neg (by omega)]
    simp only [hflag, length_issue]
    rw [if_neg (by omega), ih, itemChunks_cons, text_cons, List.length_append, List.length_cons]
    push_cast
    simp only [Nat.add_assoc, Int.add_assoc]

/-! ## `ft_printf` -/

/-- `ft_printf`, with the number of rounds of the loop. -/
def printfRounds (ch : Channel) (str : Option (List Byte)) (args : List Arg) :
    Print (Int × Nat) := do
  let fd_close ← write ch.fd []
  match str with
  | none => return (-1, 0)
  | some str => if fd_close = -1 then return (-1, 0) else callstrRounds ch args str 0

theorem printfRounds_fst (ch : Channel) (str : Option (List Byte)) (args : List Arg) :
    Prod.fst <$> printfRounds ch str args = printf ch str args := by
  rw [printfRounds, printf, map_bind]
  refine bind_congr fun fd_close ↦ ?_
  cases str with
  | none => rfl
  | some str =>
    show Prod.fst <$> (if fd_close = -1 then pure (-1, 0) else callstrRounds ch args str 0) = _
    split
    · rw [map_pure]
    · exact callstrRounds_fst ch str args 0

/-- **`ft_printf` makes an empty write** and then walks along the plan. -/
theorem printfRounds_outcome {str : List Byte} {args : List Arg} {p : Plan} (ch : Channel)
    (hplan : plan str args = some p) (writes : Nat → Bool) (log : List Write) :
    printfRounds ch (some str) args writes log =
      some (if writes log.length then
        walked ch writes p.supported (log ++ [⟨ch.fd, [], true⟩]) p.items 0
      else ((-1, 0), log ++ [⟨ch.fd, [], false⟩])) := by
  have hprobe : printfRounds ch (some str) args writes log
      = (if (if writes log.length then ((0 : Nat) : Int) else -1) = -1 then pure (-1, 0)
          else callstrRounds ch args str 0 : Print (Int × Nat))
            writes (log ++ [⟨ch.fd, [], writes log.length⟩]) := rfl
  rw [hprobe]
  cases writes log.length with
  | false => rfl
  | true =>
    simp only [if_true]
    rw [if_neg (by decide), callstrRounds_outcome ch writes 0 _ hplan]

theorem printf_outcome {str : List Byte} {args : List Arg} {p : Plan} (ch : Channel)
    (hplan : plan str args = some p) (writes : Nat → Bool) (log : List Write) :
    printf ch (some str) args writes log =
      if writes log.length then
        some ((outcome ch writes p.supported (log.length + 1) p.items 0).1,
          log ++ ⟨ch.fd, [], true⟩ :: (outcome ch writes p.supported (log.length + 1) p.items 0).2)
      else some (-1, log ++ [⟨ch.fd, [], false⟩]) := by
  rw [← printfRounds_fst]
  show (printfRounds ch (some str) args writes log).bind _ = _
  rw [printfRounds_outcome ch hplan]
  cases writes log.length with
  | false => rfl
  | true =>
    simp only [if_true, Option.bind_some, walked, List.length_append, List.length_singleton,
      List.append_assoc]
    rfl

/-- **`ft_printf` comes back**, whichever of its writes fail. -/
theorem ftPrintf_returns {str : List Byte} {args : List Arg} {p : Plan}
    (hplan : plan str args = some p) : Returns (ftPrintf (some str) args) fun _ ↦ True := by
  intro writes log
  have hrun := printf_outcome ⟨1, 1⟩ hplan writes log
  split at hrun
  · exact ⟨_, _, hrun, trivial⟩
  · exact ⟨_, _, hrun, trivial⟩

/-! ## Formats, piece by piece -/

theorem expand_nul (args : List Arg) : expand [0#8] args = some [] := rfl

/-- Characters that stand for themselves. -/
theorem expand_lit {s : List Byte} (hs : ∀ c ∈ s, c ≠ 0#8 ∧ c ≠ ascii '%') (d : Byte)
    (str : List Byte) (args : List Arg) :
    expand (s ++ d :: str) args = (expand (d :: str) args).map (s ++ ·) := by
  induction s with
  | nil => simp
  | cons c s ih =>
    obtain ⟨h0, hp⟩ := hs c List.mem_cons_self
    obtain ⟨e, s', he⟩ : ∃ e s', s ++ d :: str = e :: s' := by cases s <;> simp
    rw [List.cons_append, he, expand, if_neg h0, if_neg hp, ← he,
      ih fun c hc ↦ hs c (List.mem_cons_of_mem _ hc), Option.map_map]
    rfl

/-- A conversion. -/
theorem expand_arg {c : Byte} {a : Arg} {text : List Byte} (hc : c ≠ ascii '%')
    (htext : argText c a = some text) (str : List Byte) (args : List Arg) :
    expand (ascii '%' :: c :: str) (a :: args) = (expand str args).map (text ++ ·) := by
  rw [expand, if_neg (by decide), if_pos rfl, if_neg hc]
  show ((argText c a).bind _) = _
  rw [htext]
  rfl

/-- `%P` of a pointer. -/
theorem argText_upper {p : Nat} (hp : p < 2 ^ 64) :
    argText (ascii 'P') (.word p) = some (addressText hexUpper p) := by
  show some (addressText hexUpper (p % 2 ^ 64)) = _
  rw [Nat.mod_eq_of_lt hp]

/-- `%d` of a number that may be wider than an `int`. -/
theorem argText_word (v : Nat) : argText (ascii 'd') (.word v) = some (intText (asInt v)) := by
  have hcast : ((v % 2 ^ 64 : Nat) : Int) = (v : Int) % 2 ^ 64 := by omega
  show some (intText (asInt ((v % 2 ^ 64 : Nat) : Int))) = _
  rw [hcast, asInt_emod]

/-- `%d` of an `int`. -/
theorem argText_int {i : Int} (hlo : -2 ^ 31 ≤ i) (hhi : i < 2 ^ 31) :
    argText (ascii 'd') (.int i) = some (intText i) := by
  have hcast : (((i % 2 ^ 64).toNat : Nat) : Int) = i % 2 ^ 64 := by omega
  rw [Arg.int, argText_word, hcast, asInt_emod, asInt_of_bounds hlo hhi]

end FtMalloc
