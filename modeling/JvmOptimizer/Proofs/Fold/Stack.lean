import JvmOptimizer.Proofs.Fold.Run

/-!
# Simulated and real stacks

The simulated stack speaks of the top of a real one: of the machine's values, or
of a verifier's types. `Describes` says that what it knows of each entry is
true. `strip` takes those entries away whose slot is marked, which is what
becomes of a real stack when the nodes that pushed them are deleted.
-/

namespace JvmOptimizer.Fold

variable {β : Type} {P : Slot → β → Prop} {gone : Slot → Bool} {slot : Slot} {slots : List Slot}
  {x : β} {stack : List β} {k : Nat}

/-! ### Description -/

/-- The slots speak truly of the top of a stack. -/
def Describes (P : Slot → β → Prop) : List Slot → List β → Prop
  | [], _ => True
  | slot :: slots, x :: stack => P slot x ∧ Describes P slots stack
  | _ :: _, [] => False

namespace Describes

theorem drop (h : Describes P slots stack) (k : Nat) :
    Describes P (slots.drop k) (stack.drop k) := by
  induction k generalizing slots stack with
  | zero => exact h
  | succ k ih =>
      cases slots with
      | nil => trivial
      | cons slot slots =>
          cases stack with
          | nil => exact h.elim
          | cons x stack => exact ih h.2

theorem map {f : Slot → Slot} (h : Describes P slots stack)
    (hf : ∀ slot x, P slot x → P (f slot) x) : Describes P (slots.map f) stack := by
  induction slots generalizing stack with
  | nil => trivial
  | cons slot slots ih =>
      cases stack with
      | nil => exact h.elim
      | cons x stack => exact ⟨hf _ _ h.1, ih h.2⟩

/-- Values that are known for certain stand on the stack. -/
theorem take_eq {f : Value → β} {values : List Value} (h : Describes P slots stack)
    (hP : ∀ slot x v, P slot x → slot.value = some v → x = f v) (hle : k ≤ slots.length)
    (hv : (slots.take k).map (·.value) = values.map some) : stack.take k = values.map f := by
  induction k generalizing slots stack values with
  | zero =>
      cases values with
      | nil => rfl
      | cons v values => simp at hv
  | succ k ih =>
      cases slots with
      | nil => simp at hle
      | cons slot slots =>
          cases stack with
          | nil => exact h.elim
          | cons x stack =>
              cases values with
              | nil => simp at hv
              | cons v values =>
                  simp only [List.take_succ_cons, List.map_cons, List.cons.injEq] at hv ⊢
                  exact ⟨hP _ _ _ h.1 hv.1, ih h.2 (Nat.le_of_succ_le_succ hle) hv.2⟩

end Describes

/-! ### Stripping -/

/-- The stack without the entries whose slots are marked. -/
def strip (gone : Slot → Bool) : List Slot → List β → List β
  | slot :: slots, x :: stack =>
      if gone slot then strip gone slots stack else x :: strip gone slots stack
  | _, stack => stack

@[simp]
theorem strip_nil : strip gone [] stack = stack := by
  cases stack <;> rfl

@[simp]
theorem strip_nil_right : strip gone slots ([] : List β) = [] := by
  cases slots <;> rfl

theorem strip_cons_of_gone (h : gone slot = true) :
    strip gone (slot :: slots) (x :: stack) = strip gone slots stack := by
  rw [strip, if_pos h]

theorem strip_cons_of_not_gone (h : gone slot = false) :
    strip gone (slot :: slots) (x :: stack) = x :: strip gone slots stack := by
  rw [strip, if_neg (by rw [h]; decide)]

/-- Slots without a mark among the first `k`. -/
theorem take_strip (stack : List β) (h : ∀ slot ∈ slots.take k, gone slot = false) :
    (strip gone slots stack).take k = stack.take k ∧
      (strip gone slots stack).drop k = strip gone (slots.drop k) (stack.drop k) := by
  induction k generalizing slots stack with
  | zero => exact ⟨rfl, rfl⟩
  | succ k ih =>
      cases slots with
      | nil => simp
      | cons slot slots =>
          cases stack with
          | nil => simp
          | cons x stack =>
              rw [List.take_succ_cons, List.forall_mem_cons] at h
              obtain ⟨htake, hdrop⟩ := ih stack h.2
              rw [strip_cons_of_not_gone h.1]
              exact ⟨by rw [List.take_succ_cons, List.take_succ_cons, htake], hdrop⟩

theorem strip_eq_self (h : ∀ slot ∈ slots, gone slot = false) : strip gone slots stack = stack := by
  induction slots generalizing stack with
  | nil => exact strip_nil
  | cons slot slots ih =>
      cases stack with
      | nil => rfl
      | cons x stack =>
          rw [List.forall_mem_cons] at h
          rw [strip_cons_of_not_gone h.1, ih h.2]

/-- Marks on all the first `k` slots. -/
theorem strip_of_gone (hle : k ≤ slots.length) (h : ∀ slot ∈ slots.take k, gone slot = true) :
    strip gone slots stack = strip gone (slots.drop k) (stack.drop k) := by
  induction k generalizing slots stack with
  | zero => rfl
  | succ k ih =>
      cases slots with
      | nil => simp at hle
      | cons slot slots =>
          cases stack with
          | nil => simp
          | cons x stack =>
              rw [List.take_succ_cons, List.forall_mem_cons] at h
              rw [strip_cons_of_gone h.1, ih (Nat.le_of_succ_le_succ hle) h.2]
              rfl

end JvmOptimizer.Fold
