import Mathlib.Data.List.Basic
import Mathlib.Order.Basic

/-!
# Scans of sorted rows

Rows are sorted by keys that are sequences, in lexicographic order. The keys
with a given prefix stand together, so a scan may start at the prefix and stop
at the first key without it. A page is the beginning of a scan.
-/

namespace Scan

open Std (TransOrd LawfulEqOrd)

/-! ## Beginnings that are filters -/

section
variable {β : Type} {R : β → β → Prop} {f : β → Bool} {l : List β}

theorem takeWhile_eq_filter (hl : l.Pairwise R) (h : ∀ a ∈ l, ∀ b ∈ l, R a b → f b → f a) : l.takeWhile f = l.filter f := by
  induction l with
  | nil => rfl
  | cons a l ih =>
    obtain ⟨ha, hl⟩ := List.pairwise_cons.mp hl
    have ih := ih hl fun x hx y hy => h x (List.mem_cons_of_mem a hx) y (List.mem_cons_of_mem a hy)
    by_cases hf : f a
    · rw [List.takeWhile_cons_of_pos hf, List.filter_cons_of_pos hf, ih]
    · rw [List.takeWhile_cons_of_neg hf, List.filter_cons_of_neg hf, eq_comm, List.filter_eq_nil_iff]
      intro b hb hfb
      exact hf (h a (List.mem_cons_self ..) b (List.mem_cons_of_mem a hb) (ha b hb) hfb)

theorem dropWhile_eq_filter (hl : l.Pairwise R) (h : ∀ a ∈ l, ∀ b ∈ l, R a b → f b → f a) :
    l.dropWhile f = l.filter fun a => !f a := by
  induction l with
  | nil => rfl
  | cons a l ih =>
    obtain ⟨ha, hl'⟩ := List.pairwise_cons.mp hl
    by_cases hf : f a
    · have ih := ih hl' fun x hx y hy => h x (List.mem_cons_of_mem a hx) y (List.mem_cons_of_mem a hy)
      rw [List.dropWhile_cons_of_pos hf, List.filter_cons_of_neg (by simpa using hf), ih]
    · rw [List.dropWhile_cons_of_neg hf, eq_comm, List.filter_eq_self]
      intro b hb
      have hfb : ¬ f b := by
        rcases List.mem_cons.mp hb with rfl | hb'
        · exact hf
        · exact fun hfb => hf (h a (List.mem_cons_self ..) b hb (ha b hb') hfb)
      simpa using hfb

theorem of_mem_takeWhile (hl : l.Pairwise R) (hirr : ∀ a b, R a b → ¬ R b a) {a b : β} (hb : b ∈ l.takeWhile f) (ha : a ∈ l)
    (hab : R a b) : f a := by
  induction l with
  | nil => cases ha
  | cons c l ih =>
    obtain ⟨hc, hl⟩ := List.pairwise_cons.mp hl
    by_cases hf : f c
    · rw [List.takeWhile_cons_of_pos hf] at hb
      rcases List.mem_cons.mp ha with rfl | ha
      · exact hf
      · rcases List.mem_cons.mp hb with hb | hb
        · rw [hb] at hab
          exact absurd hab (hirr _ _ (hc a ha))
        · exact ih hl hb ha
    · rw [List.takeWhile_cons_of_neg hf] at hb
      cases hb

end

/-! ## Keys with a prefix -/

section
variable {α V : Type} [Ord α] [TransOrd α] [LawfulEqOrd α] {p a b c : List α}

omit [TransOrd α] in
theorem not_lt_prefix (h : p <+: a) : compare a p ≠ .lt := by
  induction p generalizing a with
  | nil => cases a <;> simp
  | cons x p ih =>
    obtain ⟨s, rfl⟩ := h
    rw [List.cons_append, List.compare_cons_cons, Std.ReflOrd.compare_self]
    exact ih ⟨s, rfl⟩

omit [TransOrd α] in
theorem prefix_of_between (hc : p <+: c) (hp : compare a p ≠ .lt) (hac : compare a c = .lt) : p <+: a := by
  induction p generalizing a c with
  | nil => exact List.nil_prefix
  | cons x p ih =>
    obtain ⟨s, rfl⟩ := hc
    cases a with
    | nil => exact absurd rfl hp
    | cons y a =>
      rw [List.cons_append, List.compare_cons_cons] at hac
      rw [List.compare_cons_cons] at hp
      cases hyx : compare y x with
      | lt => simp [hyx] at hp
      | gt => simp [hyx] at hac
      | eq =>
        rw [hyx] at hp hac
        obtain rfl := Std.LawfulEqOrd.eq_of_compare hyx
        exact List.cons_prefix_cons.mpr ⟨rfl, ih ⟨s, rfl⟩ hp hac⟩

omit [LawfulEqOrd α] in
theorem lt_asymm (h : compare a b = .lt) : ¬ compare b a = .lt := by
  intro h'
  have hgt := Std.OrientedCmp.gt_iff_lt.mpr h'
  rw [h] at hgt
  cases hgt

variable {rows : List (List α × V)}

def Sorted (rows : List (List α × V)) : Prop := rows.Pairwise fun r s => compare r.1 s.1 = .lt

omit [TransOrd α] [LawfulEqOrd α] in
theorem Sorted.filter (h : Sorted rows) (f : List α × V → Bool) : Sorted (rows.filter f) := List.Pairwise.filter f h

def rangeFrom (start : List α) (rows : List (List α × V)) : List (List α × V) :=
  rows.dropWhile fun r => compare r.1 start == .lt

omit [LawfulEqOrd α] in
theorem rangeFrom_eq_filter (h : Sorted rows) (start : List α) :
    rangeFrom start rows = rows.filter fun r => !(compare r.1 start == .lt) := by
  refine dropWhile_eq_filter h ?_
  intro r _ s _ hrs hs
  simp only [beq_iff_eq] at hs ⊢
  exact Std.TransCmp.lt_trans hrs hs

variable [DecidableEq α]

theorem scan_eq_filter (h : Sorted rows) (p : List α) :
    (rangeFrom p rows).takeWhile (fun r => p.isPrefixOf r.1) = rows.filter fun r => p.isPrefixOf r.1 := by
  rw [rangeFrom_eq_filter h, takeWhile_eq_filter (h.filter _), List.filter_filter]
  · refine List.filter_congr ?_
    intro r _
    by_cases hp : p <+: r.1
    · simp [hp, not_lt_prefix hp]
    · simp [hp]
  · intro r hr s _ hrs hs
    have hlt : compare r.1 p ≠ .lt := by simpa using (List.mem_filter.mp hr).2
    simp only [List.isPrefixOf_iff_prefix] at hs ⊢
    exact prefix_of_between hs hlt hrs

/-! ## Pages -/

/-- Rows until their sizes reach a budget; the row that reaches it is taken. -/
def cut (size : List α × V → Nat) (budget : Nat) : (bytes : Nat) → List (List α × V) → List (List α × V)
  | _, [] => []
  | bytes, r :: rows =>
    if bytes + size r ≥ budget then [r] else r :: cut size budget (bytes + size r) rows

variable {size : List α × V → Nat} {budget bytes : Nat}

omit [Ord α] [TransOrd α] [LawfulEqOrd α] [DecidableEq α] in
theorem cut_eq_nil : cut size budget bytes rows = [] ↔ rows = [] := by
  cases rows with
  | nil => simp [cut]
  | cons r rows =>
    rw [cut]
    split <;> simp

omit [Ord α] [TransOrd α] [LawfulEqOrd α] [DecidableEq α] in
theorem cut_prefix : cut size budget bytes rows <+: rows := by
  induction rows generalizing bytes with
  | nil => exact List.nil_prefix
  | cons r rows ih =>
    rw [cut]
    split
    · exact List.cons_prefix_cons.mpr ⟨rfl, List.nil_prefix⟩
    · exact List.cons_prefix_cons.mpr ⟨rfl, ih⟩

omit [DecidableEq α] in
/-- After a beginning of sorted rows come the rows after its last key. -/
theorem rest_eq_filter {page : List (List α × V)} {last : List α × V} (h : Sorted rows) (hp : page <+: rows)
    (hlast : page.getLast? = some last) : rows = page ++ rows.filter fun r => compare last.1 r.1 == .lt := by
  obtain ⟨rest, rfl⟩ := hp
  obtain ⟨hpage, _, hcross⟩ := List.pairwise_append.mp h
  obtain ⟨init, rfl⟩ := List.getLast?_eq_some_iff.mp hlast
  have hmem : last ∈ init ++ [last] := by simp
  have hnone : (init ++ [last]).filter (fun r => compare last.1 r.1 == .lt) = [] := by
    refine List.filter_eq_nil_iff.mpr ?_
    intro r hr
    rw [beq_iff_eq]
    rcases List.mem_append.mp hr with hr | hr
    · exact lt_asymm ((List.pairwise_append.mp hpage).2.2 r hr last (by simp))
    · rw [List.mem_singleton.mp hr, Std.ReflOrd.compare_self]
      intro h
      cases h
  have hall : rest.filter (fun r => compare last.1 r.1 == .lt) = rest := by
    refine List.filter_eq_self.mpr ?_
    intro r hr
    rw [beq_iff_eq]
    exact hcross last hmem r hr
  rw [List.filter_append, hnone, hall, List.nil_append]

end

end Scan
