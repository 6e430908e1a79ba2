import FtMalloc.Lib.Memory

/-!
# The same writes to two memories

A program is run twice, from memories `m` and `n`, and leaves `m'` and `n'`.  `SameWrites m n m' n'`
says that it wrote the same to both: each byte is the same in `m'` and `n'`, or was left alone in
both runs.  So the program may have written to every byte, but nothing it wrote tells the two
memories apart.

Stores, fills and copies keep this (`SameWrites.store`, `SameWrites.fill`, `SameWrites.copy`), and
where the memories agreed before they agree after (`SameWrites.agree`).
-/

set_option autoImplicit false

namespace ByteMemory

variable {m n m' n' : Memory} {a k : Nat}

/-- Each byte is the same in `m'` and `n'`, or was left alone on the way there from `m` and `n`. -/
def SameWrites (m n m' n' : Memory) : Prop := ∀ x, n' x = m' x ∨ m' x = m x ∧ n' x = n x

namespace SameWrites

theorem refl (m n : Memory) : SameWrites m n m n := fun _ ↦ .inr ⟨rfl, rfl⟩

/-- Where the memories agreed before, they agree after. -/
theorem agree (hw : SameWrites m n m' n') (hag : Agree m n a k) : Agree m' n' a k := by
  intro x h1 h2
  rcases hw x with heq | ⟨hm, hn⟩
  · exact heq
  · rw [hm, hn]
    exact hag x h1 h2

/-- A block of bytes is written, the same bytes to both memories. -/
theorem write (hw : SameWrites m n m' n') {v u : Memory}
    (hvu : ∀ x, a ≤ x → x < a + k → u x = v x) :
    SameWrites m n (fun x ↦ if a ≤ x ∧ x < a + k then v x else m' x)
      (fun x ↦ if a ≤ x ∧ x < a + k then u x else n' x) := by
  intro x
  dsimp only
  split
  · rename_i hin
    exact .inl (hvu x hin.1 hin.2)
  · exact hw x

theorem store (hw : SameWrites m n m' n') (a k v : Nat) :
    SameWrites m n (store m' a k v) (store n' a k v) := hw.write fun _ _ _ ↦ rfl

theorem fill (hw : SameWrites m n m' n') (a k : Nat) (v : Byte) :
    SameWrites m n (fill m' a k v) (fill n' a k v) := hw.write fun _ _ _ ↦ rfl

/-- What is copied has to be the same in both memories. -/
theorem copy (hw : SameWrites m n m' n') {s : Nat} (hag : Agree m' n' s k) (d : Nat) :
    SameWrites m n (copy m' d s k) (copy n' d s k) :=
  hw.write fun x h1 h2 ↦ hag _ (by omega) (by omega)

/-- If the second run starts one byte apart from the first, at a byte that neither run writes, it
ends there. -/
theorem poke_eq {v : Byte} (hw : SameWrites m (poke m a v) m' n') (hm : m' a = m a)
    (hn : n' a = v) : n' = poke m' a v := by
  funext x
  by_cases hx : x = a
  · subst hx
    rw [hn, poke, if_pos rfl]
  · rw [poke, if_neg hx]
    rcases hw x with heq | ⟨h1, h2⟩
    · exact heq
    · rw [h1, h2, poke, if_neg hx]

end SameWrites

end ByteMemory
