import FtMalloc.Printf

/-!
# What a piece of the program writes

Three ways to say what a `Print` does.

* `Emits fd m a out` — when every write succeeds, `m` returns `a` and sends `out` to `fd`, and
  nothing anywhere else.
* `Returns m q` — whichever writes succeed, `m` comes back, with an answer that meets `q`.
* `Issues m chunks f` — the strongest: whichever writes succeed, `m` makes the writes `chunks`, one
  after the other, and its answer is `f` of the sum of theirs.

The third is what the conversions of `ft_printf` satisfy: none of them looks at the answer of a
write before it makes the next.
-/

set_option autoImplicit false

namespace FtMalloc

open ByteMemory

variable {α β : Type} {fd : Int}

/-! ## When every write succeeds -/

/-- The bytes that were sent, each with its descriptor. -/
def sent (log : List Write) : List (Int × Byte) :=
  log.flatMap fun w ↦ if w.ok then w.bytes.map (w.fd, ·) else []

/-- When every write succeeds, `m` returns `a` and sends `out` to `fd`, and nothing else. -/
def Emits (fd : Int) (m : Print α) (a : α) (out : List Byte) : Prop :=
  ∀ log, ∃ log', m (fun _ ↦ true) log = some (a, log') ∧ sent log' = sent log ++ out.map (fd, ·)

/-! ## Whichever writes succeed -/

/-- Whichever writes succeed, `m` comes back, with an answer that meets `q`. -/
def Returns (m : Print α) (q : α → Prop) : Prop :=
  ∀ writes log, ∃ a log', m writes log = some (a, log') ∧ q a

namespace Returns

theorem pure {q : α → Prop} {a : α} (ha : q a) : Returns (pure a) q := fun _ log ↦ ⟨a, log, rfl, ha⟩

theorem bind {m : Print α} {f : α → Print β} {q : α → Prop} {q' : β → Prop} (hm : Returns m q)
    (hf : ∀ a, q a → Returns (f a) q') : Returns (m >>= f) q' := by
  intro writes log
  obtain ⟨a, log₁, hrun₁, ha⟩ := hm writes log
  obtain ⟨b, log₂, hrun₂, hb⟩ := hf a ha writes log₁
  refine ⟨b, log₂, ?_, hb⟩
  show (m writes log).bind (fun r ↦ f r.1 writes r.2) = _
  rw [hrun₁]
  exact hrun₂

end Returns

/-! ## A fixed list of writes -/

/-- A write to be made: the descriptor and the bytes. -/
abbrev Chunk := Int × List Byte

/-- The bytes of a list of writes. -/
def Chunk.text (chunks : List Chunk) : List Byte := chunks.flatMap Prod.snd

/-- The writes `chunks` as they are made, the first of them as the `k`-th of all. -/
def issue (writes : Nat → Bool) : Nat → List Chunk → List Write
  | _, [] => []
  | k, c :: chunks => ⟨c.1, c.2, writes k⟩ :: issue writes (k + 1) chunks

/-- What `write` answers. -/
def Write.answer (w : Write) : Int := if w.ok then w.bytes.length else -1

/-- What the writes answer, added up. -/
def answers (log : List Write) : Int := (log.map Write.answer).sum

/-- Whichever writes succeed, `m` makes the writes `chunks`, and its answer is `f` of theirs. -/
def Issues (m : Print α) (chunks : List Chunk) (f : Int → α) : Prop :=
  ∀ writes log, m writes log = some (f (answers (issue writes log.length chunks)),
    log ++ issue writes log.length chunks)

@[simp] theorem length_issue (writes : Nat → Bool) : ∀ k chunks,
    (issue writes k chunks).length = chunks.length
  | _, [] => rfl
  | k, _ :: chunks => congrArg (· + 1) (length_issue writes (k + 1) chunks)

theorem issue_append (writes : Nat → Bool) : ∀ k cs ds,
    issue writes k (cs ++ ds) = issue writes k cs ++ issue writes (k + cs.length) ds
  | _, [], _ => rfl
  | k, c :: cs, ds => by
    rw [List.cons_append, issue, issue_append, issue, List.cons_append, List.length_cons,
      Nat.add_right_comm, ← Nat.add_assoc]

theorem answers_append (log log' : List Write) :
    answers (log ++ log') = answers log + answers log' := by
  rw [answers, List.map_append, List.sum_append]
  rfl

/-- Writes that all succeed answer with the number of bytes they send. -/
theorem answers_issue {writes : Nat → Bool} : ∀ {k chunks},
    (∀ w ∈ issue writes k chunks, w.ok = true) →
      answers (issue writes k chunks) = (Chunk.text chunks).length
  | _, [], _ => rfl
  | k, c :: chunks, hok => by
    obtain ⟨hc, hrest⟩ := List.forall_mem_cons.mp hok
    have hw : writes k = true := hc
    have hsum : answers (issue writes k (c :: chunks))
        = Write.answer ⟨c.1, c.2, writes k⟩ + answers (issue writes (k + 1) chunks) :=
      List.sum_cons
    have htext : (Chunk.text (c :: chunks)).length = c.2.length + (Chunk.text chunks).length := by
      rw [Chunk.text, List.flatMap_cons, List.length_append, Chunk.text]
    rw [hsum, answers_issue hrest, Write.answer, if_pos hw, htext]
    push_cast
    rfl

theorem sent_append (log log' : List Write) : sent (log ++ log') = sent log ++ sent log' :=
  List.flatMap_append

theorem sent_issue {writes : Nat → Bool} : ∀ {k chunks},
    (∀ w ∈ issue writes k chunks, w.ok = true) →
      sent (issue writes k chunks) = chunks.flatMap fun c ↦ c.2.map (c.1, ·)
  | _, [], _ => rfl
  | k, c :: chunks, hok => by
    obtain ⟨hc, hrest⟩ := List.forall_mem_cons.mp hok
    have hw : writes k = true := hc
    rw [issue, sent, List.flatMap_cons, ← sent, sent_issue hrest, if_pos hw, List.flatMap_cons]

/-- Writes to one descriptor send their bytes there. -/
theorem sent_issue_of_fd {writes : Nat → Bool} {k : Nat} {chunks : List Chunk}
    (hfd : ∀ c ∈ chunks, c.1 = fd) (hok : ∀ w ∈ issue writes k chunks, w.ok = true) :
    sent (issue writes k chunks) = (Chunk.text chunks).map (fd, ·) := by
  rw [sent_issue hok, Chunk.text, List.map_flatMap]
  exact List.flatMap_congr fun c hc ↦ by rw [hfd c hc]

theorem ok_issue_true (k : Nat) (chunks : List Chunk) :
    ∀ w ∈ issue (fun _ ↦ true) k chunks, w.ok = true := by
  induction chunks generalizing k with
  | nil => simp [issue]
  | cons c chunks ih => exact List.forall_mem_cons.mpr ⟨rfl, ih (k + 1)⟩

namespace Issues

variable {m : Print α} {cs ds : List Chunk} {f : Int → α} {h : Int → β}

theorem pure {a : α} (ha : f 0 = a) : Issues (pure a) [] f := fun writes log ↦ by
  rw [issue, List.append_nil, ← ha]
  rfl

/-- What follows goes on with the answer, behind the writes. -/
theorem bind_apply (hm : Issues m cs f) (k : α → Print β) (writes : Nat → Bool) (log : List Write) :
    (m >>= k) writes log = k (f (answers (issue writes log.length cs))) writes
      (log ++ issue writes log.length cs) := by
  show (m writes log).bind (fun r ↦ k r.1 writes r.2) = _
  rw [hm writes log]
  rfl

theorem bind {k : α → Print β} (hm : Issues m cs f)
    (hk : ∀ s, Issues (k (f s)) ds fun s' ↦ h (s + s')) : Issues (m >>= k) (cs ++ ds) h := by
  intro writes log
  rw [hm.bind_apply, hk _ writes _, issue_append, answers_append, List.length_append, length_issue,
    List.append_assoc]

/-- A silent last part. -/
theorem bind_pure (hm : Issues m cs f) (g : α → β) :
    Issues (m >>= fun x ↦ Pure.pure (g x)) cs fun s ↦ g (f s) := by
  rw [← List.append_nil cs]
  exact hm.bind fun s ↦ .pure (by rw [Int.add_zero])

/-- A silent first part. -/
theorem defined_bind {x : Option α} {a : α} {k : α → Print β} (hx : x = some a)
    (hk : Issues (k a) ds h) : Issues (defined x >>= k) ds h := by
  subst hx
  exact hk

theorem write (fd : Int) (bytes : List Byte) : Issues (write fd bytes) [(fd, bytes)] id := by
  intro writes log
  have hsum : answers (issue writes log.length [(fd, bytes)])
      = if writes log.length then (bytes.length : Int) else -1 := by
    rw [issue, issue, answers, List.map_singleton, List.sum_singleton]
    rfl
  rw [hsum]
  rfl

end Issues

end FtMalloc
