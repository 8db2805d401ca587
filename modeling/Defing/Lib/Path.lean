import Mathlib.Data.List.Basic

/-!
# Paths

Strings read as paths: their segments are what stands between slashes. Two
paths put together from slash-free parts are equal exactly when their parts
are, so an equation between keys is decided by comparing lists.
-/

namespace KV

/-- A string without a slash, one segment of a path. -/
def Plain (s : String) : Prop := '/' ∉ s.toList

def segments (s : String) : List String := (s.toList.splitOn '/').map String.ofList

theorem segments_cons {a : String} (h : Plain a) (b : String) :
    segments (a ++ "/" ++ b) = a :: segments b := by
  have e : (a ++ "/" ++ b).toList = a.toList ++ '/' :: b.toList := by simp
  unfold segments
  rw [e, List.splitOn, List.splitOnP_append_cons_of_forall_mem]
  · simp [List.splitOn]
  · intro c hc
    have : c ≠ '/' := by rintro rfl; exact h hc
    simp [this]
  · simp

/-- The path of the given segments, followed by `tail`. -/
def under (xs : List String) (tail : String) : String := xs.foldr (fun a rest => a ++ "/" ++ rest) tail

theorem segments_under {xs : List String} (h : ∀ a ∈ xs, Plain a) (tail : String) :
    segments (under xs tail) = xs ++ segments tail := by
  induction xs with
  | nil => rfl
  | cons a xs ih =>
    rw [under, List.foldr_cons, segments_cons (h a (by simp)), List.cons_append]
    exact congrArg _ (ih fun c hc => h c (by simp [hc]))

theorem segments_of {key : String} (xs : List String) (tail : String)
    (e : key.toList = (under xs tail).toList) (h : ∀ a ∈ xs, Plain a) : segments key = xs ++ segments tail := by
  rw [String.toList_inj.mp e, segments_under h]

theorem segments_plain {a : String} (h : Plain a) : segments a = [a] := by
  unfold segments
  rw [List.splitOn, List.splitOnP_eq_singleton]
  · simp
  · intro c hc
    have : c ≠ '/' := by rintro rfl; exact h hc
    simp [this]

theorem segments_append (a b : String) : segments (a ++ "/" ++ b) = segments a ++ segments b := by
  have e : (a ++ "/" ++ b).toList = a.toList ++ '/' :: b.toList := by simp
  unfold segments
  rw [e, List.splitOn, List.splitOnP_append_cons _ _ (by simp), List.map_append]
  rfl

theorem segments_of_suffix {x key : String} (hx : Plain x) (h : '/' :: x.toList <:+ key.toList) :
    ∃ init, segments key = init ++ [x] := by
  obtain ⟨a, ha⟩ := h
  refine ⟨segments (String.ofList a), ?_⟩
  rw [show key = String.ofList a ++ "/" ++ x from String.toList_inj.mp (by rw [← ha]; simp), segments_append,
    segments_plain hx]

theorem mem_segments_of_infix {x key : String} (hx : Plain x) (h : '/' :: (x.toList ++ ['/']) <:+: key.toList) :
    x ∈ segments key := by
  obtain ⟨a, c, hac⟩ := h
  have e : key = String.ofList a ++ "/" ++ (x ++ "/" ++ String.ofList c) :=
    String.toList_inj.mp (by rw [← hac]; simp)
  rw [e, segments_append, segments_cons hx]
  simp

theorem plain_of_forall {s : String} {p : Char → Bool} (h : s.toList.all p) (hp : p '/' = false) : Plain s :=
  fun hm => by have := List.all_eq_true.mp h _ hm; rw [hp] at this; cases this

theorem plain_repr (n : Nat) : Plain n.repr := by
  intro h
  rw [Nat.toList_repr] at h
  exact absurd (Nat.isDigit_of_mem_toDigits (by omega) (by omega) h) (by decide)

@[simp] theorem repr_inj {m n : Nat} : m.repr = n.repr ↔ m = n := by
  constructor
  · intro h
    have := congrArg (fun s : String => Nat.ofDigitChars 10 s.toList 0) h
    simpa [Nat.toList_repr, Nat.ofDigitChars_ten_toDigits] using this
  · rintro rfl; rfl

/-! ## Stems -/

theorem prefix_cancel (x a b : List Char) : x ++ a <+: x ++ b ↔ a <+: b :=
  List.prefix_append_right_inj x

/-- A slash-free string is a stem of a path exactly if it is one of the path's first segment. -/
theorem plain_prefix {a b : String} (ha : Plain a) (c : List Char) :
    a.toList <+: b.toList ++ '/' :: c ↔ a.toList <+: b.toList := by
  refine ⟨fun h => ?_, fun h => h.trans (List.prefix_append _ _)⟩
  rcases List.prefix_or_prefix_of_prefix h (List.prefix_append b.toList ('/' :: c)) with h' | h'
  · exact h'
  · obtain ⟨d, hd⟩ := h'
    rw [← hd] at h
    rcases d with _ | ⟨x, d⟩
    · exact ⟨[], by simp [← hd]⟩
    · rw [prefix_cancel, List.cons_prefix_cons] at h
      exact absurd (by rw [← hd, h.1]; simp) ha

end KV
