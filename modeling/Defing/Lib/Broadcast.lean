import Mathlib.Data.List.Basic

/-!
# A bounded broadcast channel, as one receiver sees it

A receiver has still to take what was sent since its last turn, at most `cap`
of it, the newest. If it has lost some, it is told so before it gets the rest.
-/

namespace Broadcast

structure Receiver (α : Type) where
  queue : List α
  lagged : Bool
  deriving DecidableEq, Repr

inductive Received (α : Type)
  | lagged
  | value (a : α)

variable {α : Type} {cap : Nat} {r r' : Receiver α} {a : α}

def Receiver.new : Receiver α := ⟨[], false⟩

def Receiver.send (cap : Nat) (r : Receiver α) (a : α) : Receiver α where
  queue := (r.queue ++ [a]).drop (r.queue.length + 1 - cap)
  lagged := r.lagged || cap ≤ r.queue.length

def Receiver.recv (r : Receiver α) : Option (Received α × Receiver α) :=
  if r.lagged then some (.lagged, { r with lagged := false })
  else
    match r.queue with
    | [] => none
    | a :: queue => some (.value a, { r with queue })

@[simp] theorem Receiver.queue_new : (Receiver.new : Receiver α).queue = [] := rfl
@[simp] theorem Receiver.lagged_new : (Receiver.new : Receiver α).lagged = false := rfl

theorem Receiver.lagged_send : (r.send cap a).lagged = false ↔ r.lagged = false ∧ r.queue.length < cap := by
  simp [send]

theorem Receiver.queue_send (h : r.queue.length < cap) : (r.send cap a).queue = r.queue ++ [a] := by
  rw [send, Nat.sub_eq_zero_of_le h, List.drop_zero]

theorem Receiver.queue_of_not_lagged (h : (r.send cap a).lagged = false) : (r.send cap a).queue = r.queue ++ [a] :=
  queue_send (lagged_send.mp h).2

theorem Receiver.recv_value (h : r.recv = some (.value a, r')) : r.lagged = false ∧ r'.lagged = false ∧ r.queue = a :: r'.queue := by
  unfold recv at h
  split at h
  · cases h
  · rename_i hlagged
    split at h
    · cases h
    · cases h
      exact ⟨by simpa using hlagged, by simpa using hlagged, ‹_›⟩

theorem Receiver.recv_lagged (h : r.recv = some (.lagged, r')) : r.lagged = true := by
  unfold recv at h
  split at h
  · assumption
  · split at h <;> cases h

end Broadcast
