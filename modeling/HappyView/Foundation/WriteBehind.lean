import Mathlib.Data.List.Basic

/-!
# Buffers that hold some events back

Events come in one at a time. Some are held back and sent later, in the order they came; others
are sent at once and overtake what is held. `InOrder p` says of a class of events that those sent
and then those held are the ones that came, in their order.
-/

namespace HappyView.Foundation

structure Buffer (α : Type*) where
  sent : List α
  held : List α

namespace Buffer

variable {α : Type*}

def hold (b : Buffer α) (event : α) : Buffer α := { b with held := b.held ++ [event] }

def release (b : Buffer α) : Buffer α := ⟨b.sent ++ b.held, []⟩

def pass (b : Buffer α) (event : α) : Buffer α := { b with sent := b.sent ++ [event] }

def InOrder (p : α → Bool) (came : List α) (b : Buffer α) : Prop :=
  b.sent.filter p ++ b.held.filter p = came.filter p

variable {p : α → Bool} {came : List α} {b : Buffer α} {event : α}

theorem inOrder_empty (p : α → Bool) : (⟨[], []⟩ : Buffer α).InOrder p [] := rfl

theorem InOrder.hold (h : b.InOrder p came) (event : α) :
    (b.hold event).InOrder p (came ++ [event]) := by
  unfold InOrder Buffer.hold at *
  rw [List.filter_append, List.filter_append, ← h, List.append_assoc]

theorem InOrder.release (h : b.InOrder p came) : b.release.InOrder p came := by
  unfold InOrder Buffer.release at *
  rw [List.filter_append, h, List.filter_nil, List.append_nil]

theorem InOrder.pass (h : b.InOrder p came)
    (clear : p event = true → ∀ held ∈ b.held, p held = false) :
    (b.pass event).InOrder p (came ++ [event]) := by
  unfold InOrder Buffer.pass at *
  rw [List.filter_append, List.filter_append, ← h]
  by_cases relevant : p event = true
  · have none : b.held.filter p = [] := by
      simpa [List.filter_eq_nil_iff] using clear relevant
    simp [none]
  · simp [relevant]

theorem InOrder.sent_of_empty (h : b.InOrder p came) (empty : b.held = []) :
    b.sent.filter p = came.filter p := by
  unfold InOrder at h
  rwa [empty, List.filter_nil, List.append_nil] at h

end Buffer

end HappyView.Foundation
