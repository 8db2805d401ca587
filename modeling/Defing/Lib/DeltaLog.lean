import Mathlib.Data.List.Basic

/-!
# Logs of checkpoints and deltas

A value with numbered versions. Version one and the multiples of an interval
are stored whole, the others as the change from the version before. `read` is
what a version stands for, `walk` how a reader rebuilds it from a checkpoint,
`rebuild` how one does that takes a whole version where parts are missing, and
`Records` says that a log stands for a history, up to an equivalence.
-/

namespace DeltaLog

structure Log (S D : Type) where
  full : Nat → Option S
  delta : Nat → Option D

def Checkpoint (c n : Nat) : Prop := n = 1 ∨ c ∣ n

instance (c n : Nat) : Decidable (Checkpoint c n) := inferInstanceAs (Decidable (_ ∨ _))

/-- The checkpoint that a number is rebuilt from. -/
def base (c n : Nat) : Nat :=
  if c ∣ n then n else if (n - 1) / c * c = 0 then 1 else (n - 1) / c * c

section
variable {c n m : Nat}

theorem base_of_dvd (h : c ∣ n) : base c n = n := if_pos h

theorem checkpoint_base (c n : Nat) : Checkpoint c (base c n) := by
  unfold base
  split
  · rename_i h; exact .inr h
  · split
    · exact .inl rfl
    · exact .inr (Nat.dvd_mul_left _ _)

theorem base_pos (hn : 0 < n) : 0 < base c n := by
  unfold base
  split
  · exact hn
  · split
    · exact Nat.one_pos
    · rename_i h; exact Nat.pos_of_ne_zero h

theorem base_le (hn : 0 < n) : base c n ≤ n := by
  unfold base
  split
  · exact Nat.le_refl n
  · split
    · exact hn
    · exact Nat.le_trans (Nat.div_mul_le_self (n - 1) c) (Nat.sub_le n 1)

theorem not_checkpoint_of_base_lt (hm : base c n < m) (hmn : m ≤ n) : ¬ Checkpoint c m := by
  have hd : ¬ c ∣ n := fun h => by rw [base_of_dvd h] at hm; omega
  have hq : (n - 1) / c * c < m := by
    rw [base, if_neg hd] at hm
    split at hm <;> omega
  rintro (rfl | ⟨k, rfl⟩)
  · have := base_pos (c := c) (n := n) (by omega); omega
  · rcases Nat.lt_or_ge (c * k) n with h | h
    · have hc : 0 < c := Nat.pos_of_ne_zero (by rintro rfl; omega)
      have : k ≤ (n - 1) / c := (Nat.le_div_iff_mul_le hc).mpr (by rw [Nat.mul_comm]; omega)
      have := Nat.mul_le_mul_right c this
      rw [Nat.mul_comm k c] at this
      omega
    · exact hd ⟨k, by omega⟩

/-- No checkpoint up to a number is past the one it is rebuilt from. -/
theorem le_base (hm : Checkpoint c m) (h : m ≤ n) : m ≤ base c n := by
  by_contra hlt
  exact not_checkpoint_of_base_lt (Nat.lt_of_not_le hlt) h hm

/-- A number that is no checkpoint has the checkpoint of the one before it. -/
theorem base_succ (h : ¬ Checkpoint c (n + 1)) : base c (n + 1) = base c n := by
  have hd : ¬ c ∣ n + 1 := fun hd => h (.inr hd)
  have hn : 0 < n := Nat.pos_of_ne_zero fun h0 => h (.inl (by rw [h0]))
  rw [base, if_neg hd, Nat.add_sub_cancel, base]
  by_cases hcn : c ∣ n
  · rw [if_pos hcn, Nat.div_mul_cancel hcn, if_neg (Nat.ne_of_gt hn)]
  · obtain ⟨k, rfl⟩ := Nat.exists_eq_succ_of_ne_zero (Nat.ne_of_gt hn)
    rw [if_neg hcn, Nat.succ_div, if_neg hcn, Nat.add_zero, Nat.succ_sub_one]

end

/-! ## Reading -/

section
variable {S D : Type} (c : Nat) (app : S → D → S)

def read (L : Log S D) : Nat → Option S
  | 0 => none
  | n + 1 =>
    if Checkpoint c (n + 1) then L.full (n + 1)
    else (read L n).bind fun s => (L.delta (n + 1)).map (app s)

/-- The changes of `n` versions from `v` on, put on top of a value. -/
def walk (L : Log S D) : (n v : Nat) → S → Option S
  | 0, _, s => some s
  | n + 1, v, s => (L.delta v).bind fun d => walk L n (v + 1) (app s d)

/-- The same way, that ends at the first number without a change, with what stands there whole. -/
def walkOr (L : Log S D) : (n v : Nat) → S → Option S
  | 0, _, s => some s
  | n + 1, v, s =>
    match L.delta v with
    | some d => walkOr L n (v + 1) (app s d)
    | none => L.full v

def rebuild (L : Log S D) (n : Nat) : Option S :=
  match L.full (base c n) with
  | some s => walkOr app L (n - base c n) (base c n + 1) s
  | none => L.full n

variable {c app} {L L' : Log S D} {n m : Nat}

theorem read_checkpoint (hn : 0 < n) (h : Checkpoint c n) : read c app L n = L.full n := by
  obtain ⟨n, rfl⟩ := Nat.exists_eq_succ_of_ne_zero (Nat.ne_of_gt hn)
  exact if_pos h

theorem read_succ (h : ¬ Checkpoint c (n + 1)) :
    read c app L (n + 1) = (read c app L n).bind fun s => (L.delta (n + 1)).map (app s) := if_neg h

theorem read_add (k b : Nat) (h : ∀ m, b < m → m ≤ b + k → ¬ Checkpoint c m) :
    read c app L (b + k) = (read c app L b).bind (walk app L k (b + 1)) := by
  induction k generalizing b with
  | zero => cases read c app L b <;> rfl
  | succ k ih =>
    have hb : ¬ Checkpoint c (b + 1) := h (b + 1) (by omega) (by omega)
    rw [show b + (k + 1) = b + 1 + k by omega, ih (b + 1) fun m hm hk => h m (by omega) (by omega), read_succ hb]
    cases read c app L b with
    | none => rfl
    | some s => cases hd : L.delta (b + 1) <;> simp [walk, hd]

/-- The way of the reader: the checkpoint, then the changes up to the version. -/
theorem read_eq_walk (hn : 0 < n) :
    read c app L n = (L.full (base c n)).bind (walk app L (n - base c n) (base c n + 1)) := by
  have hb := base_le (c := c) hn
  have : read c app L (base c n + (n - base c n)) = _ :=
    read_add (n - base c n) (base c n) fun m hm hk => not_checkpoint_of_base_lt hm (by omega)
  rw [show base c n + (n - base c n) = n by omega] at this
  rw [this, read_checkpoint (base_pos hn) (checkpoint_base c n)]

theorem walkOr_eq_walk {v : Nat} {s : S} (h : ∀ m, v ≤ m → m < v + n → L.full m = none) :
    walkOr app L n v s = walk app L n v s := by
  induction n generalizing v s with
  | zero => rfl
  | succ n ih =>
    rw [walkOr, walk]
    cases L.delta v with
    | none => exact h v (Nat.le_refl v) (by omega)
    | some d => exact ih fun m hm hlt => h m (by omega) (by omega)

theorem walkOr_of_walk {v : Nat} {s r : S} (h : walk app L n v s = some r) : walkOr app L n v s = some r := by
  induction n generalizing v s with
  | zero => exact h
  | succ n ih =>
    rw [walk, Option.bind_eq_some_iff] at h
    obtain ⟨d, hd, h⟩ := h
    rw [walkOr, hd]
    exact ih h

/-- Where only checkpoints stand whole, both ways are one. -/
theorem rebuild_eq_read (hn : 0 < n) (h : ∀ m, base c n < m → m ≤ n → L.full m = none) :
    rebuild c app L n = read c app L n := by
  have hb := base_le (c := c) hn
  rw [rebuild, read_eq_walk hn]
  cases hf : L.full (base c n) with
  | some s => exact walkOr_eq_walk fun m hm hlt => h m hm (by omega)
  | none =>
    by_cases he : base c n = n
    · rw [← he, hf]
      rfl
    · exact h n (by omega) (Nat.le_refl n)

/-- What a version stands for is found whatever else stands whole. -/
theorem rebuild_of_read (hn : 0 < n) {s : S} (h : read c app L n = some s) : rebuild c app L n = some s := by
  rw [read_eq_walk hn, Option.bind_eq_some_iff] at h
  obtain ⟨s₀, hs₀, h⟩ := h
  rw [rebuild, hs₀]
  exact walkOr_of_walk h

theorem rebuild_base (h : base c n = n) : rebuild c app L n = L.full n := by
  rw [rebuild, h, Nat.sub_self]
  cases L.full n <;> rfl

/-- Without a change right after the checkpoint the way ends there. -/
theorem rebuild_first {s : S} (h : base c n < n) (hs : L.full (base c n) = some s) (hd : L.delta (base c n + 1) = none) :
    rebuild c app L n = L.full (base c n + 1) := by
  obtain ⟨k, hk⟩ := Nat.exists_eq_add_of_lt h
  rw [rebuild, hs, show n - base c n = k + 1 by omega]
  change walkOr app L (k + 1) (base c n + 1) s = _
  rw [walkOr, hd]

theorem read_congr (h : ∀ m ≤ n, L.full m = L'.full m ∧ L.delta m = L'.delta m) :
    read c app L n = read c app L' n := by
  induction n with
  | zero => rfl
  | succ n ih =>
    simp only [read, ih fun m hm => h m (by omega), h (n + 1) (Nat.le_refl _)]

theorem walk_congr {v : Nat} {s : S} (h : ∀ m, v ≤ m → m < v + n → L.delta m = L'.delta m) :
    walk app L n v s = walk app L' n v s := by
  induction n generalizing v s with
  | zero => rfl
  | succ n ih =>
    rw [walk, walk, h v (Nat.le_refl v) (by omega)]
    cases L'.delta v with
    | none => rfl
    | some d => exact ih fun m hm hlt => h m (by omega) (by omega)

/-- Nor on anything before the checkpoint it is rebuilt from. -/
theorem read_congr_base (hn : 0 < n)
    (h : ∀ m, base c n ≤ m → m ≤ n → L.full m = L'.full m ∧ L.delta m = L'.delta m) :
    read c app L n = read c app L' n := by
  have hb := base_le (c := c) hn
  rw [read_eq_walk hn, read_eq_walk hn, (h _ (Nat.le_refl _) hb).1]
  cases L'.full (base c n) with
  | none => rfl
  | some s => exact walk_congr fun m hm hlt => (h m (by omega) (by omega)).2

/-! ## Writing -/

def Log.write (c : Nat) (L : Log S D) (n : Nat) (s : S) (d : D) : Log S D where
  full m := if m = n ∧ Checkpoint c n then some s else L.full m
  delta m := if m = n ∧ ¬ Checkpoint c n then some d else L.delta m

theorem read_write_of_lt (h : m < n) (s : S) (d : D) :
    read c app (L.write c n s d) m = read c app L m :=
  read_congr fun k hk => by simp [Log.write, show k ≠ n by omega]

theorem read_write_checkpoint (hn : 0 < n) (h : Checkpoint c n) (s : S) (d : D) :
    read c app (L.write c n s d) n = some s := by
  rw [read_checkpoint hn h]
  simp [Log.write, h]

theorem read_write_succ (h : ¬ Checkpoint c (n + 1)) (s : S) (d : D) :
    read c app (L.write c (n + 1) s d) (n + 1) = (read c app L n).map fun old => app old d := by
  rw [read_succ h, read_write_of_lt (Nat.lt_succ_self n)]
  cases read c app L n <;> simp [Log.write, h]

/-- The version after a readable one is readable, and so is a checkpoint wherever it stands. -/
theorem isSome_read_write (hn : 0 < n) {s : S} {d : D}
    (h : Checkpoint c n ∨ (read c app L (n - 1)).isSome) : (read c app (L.write c n s d) n).isSome := by
  by_cases hc : Checkpoint c n
  · rw [read_write_checkpoint hn hc]; rfl
  · obtain ⟨n, rfl⟩ := Nat.exists_eq_succ_of_ne_zero (Nat.ne_of_gt hn)
    rw [read_write_succ hc, Option.isSome_map]
    exact h.resolve_left hc

/-! ## Histories -/

variable (c app) in
/-- The versions of a log are those of a history, up to `r`. -/
def Records (r : S → S → Prop) (L : Log S D) (hist : List S) : Prop :=
  ∀ n new, hist[n]? = some new → ∃ s, read c app L (n + 1) = some s ∧ r s new

theorem records_nil (r : S → S → Prop) (L : Log S D) : Records c app r L [] := by
  intro n new h
  simp at h

/-- The next version of a history, written whole or as a change of the last one. -/
theorem Records.write {r : S → S → Prop} {hist : List S} (hL : Records c app r L hist) {s new : S} {d : D}
    (hs : Checkpoint c (hist.length + 1) → r s new)
    (hd : ¬ Checkpoint c (hist.length + 1) → ∀ old, read c app L hist.length = some old → r (app old d) new) :
    Records c app r (L.write c (hist.length + 1) s d) (hist ++ [new]) := by
  intro n x hx
  rcases Nat.lt_trichotomy n hist.length with h | rfl | h
  · rw [read_write_of_lt (by omega)]
    exact hL n x (by rwa [List.getElem?_append_left h] at hx)
  · rw [List.getElem?_concat_length, Option.some.injEq] at hx
    subst hx
    by_cases hc : Checkpoint c (hist.length + 1)
    · exact ⟨s, read_write_checkpoint (by omega) hc _ _, hs hc⟩
    · rw [read_write_succ hc]
      have hpos : 0 < hist.length := Nat.pos_of_ne_zero fun h0 => hc (.inl (by rw [h0]))
      obtain ⟨old, ho, -⟩ := hL (hist.length - 1) (hist.get ⟨hist.length - 1, by omega⟩)
        (List.getElem?_eq_getElem (by omega))
      rw [show hist.length - 1 + 1 = hist.length by omega] at ho
      exact ⟨_, by rw [ho]; rfl, hd hc old ho⟩
  · rw [List.getElem?_eq_none (by simp; omega)] at hx
    cases hx

end

end DeltaLog
