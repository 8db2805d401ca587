import Defing.Lib.Path

/-!
# Route tables

A table of patterns, matched with the raw path of a request segment by
segment. The first pattern that matches decides; its handler is the one for the
method.
-/

namespace KV

/-! ## Paths by their segments -/

theorem segments_cases (s : String) :
    Plain s ∧ segments s = [s] ∨ ∃ a b, Plain a ∧ s = a ++ "/" ++ b ∧ segments s = a :: segments b := by
  by_cases h : Plain s
  · exact .inl ⟨h, segments_plain h⟩
  · obtain ⟨l, r, hs, hl⟩ := List.eq_append_cons_of_mem (not_not.mp h)
    have hp : Plain (String.ofList l) := by simpa [Plain] using hl
    have he : s = String.ofList l ++ "/" ++ String.ofList r := String.toList_inj.mp (by simp [hs])
    exact .inr ⟨_, _, hp, he, by rw [he, segments_cons hp]⟩

theorem segments_ne_nil (s : String) : segments s ≠ [] := by
  intro h
  exact List.splitOn_ne_nil '/' s.toList (List.map_eq_nil_iff.mp h)

theorem segments_singleton_iff {s x : String} : segments s = [x] ↔ Plain x ∧ s = x := by
  constructor
  · intro h
    rcases segments_cases s with ⟨hp, hs⟩ | ⟨a, b, -, -, hs⟩
    · obtain rfl := List.singleton_inj.mp (hs.symm.trans h)
      exact ⟨hp, rfl⟩
    · rw [hs, List.cons_eq_cons] at h
      exact absurd h.2 (segments_ne_nil b)
  · rintro ⟨hp, rfl⟩
    exact segments_plain hp

theorem segments_cons_cons_iff {s x y : String} {ys : List String} :
    segments s = x :: y :: ys ↔ Plain x ∧ ∃ b, s = x ++ "/" ++ b ∧ segments b = y :: ys := by
  constructor
  · intro h
    rcases segments_cases s with ⟨-, hs⟩ | ⟨a, b, ha, he, hs⟩
    · rw [hs] at h
      cases h
    · rw [hs, List.cons_eq_cons] at h
      obtain ⟨rfl, hb⟩ := h
      exact ⟨ha, b, he, hb⟩
  · rintro ⟨hp, b, rfl, hb⟩
    rw [segments_cons hp, hb]

theorem under_append (xs : List String) (a b : String) : under xs (a ++ b) = under xs a ++ b := by
  induction xs with
  | nil => rfl
  | cons x xs ih =>
    change x ++ "/" ++ under xs (a ++ b) = x ++ "/" ++ under xs a ++ b
    rw [ih, String.append_assoc, String.append_assoc, String.append_assoc]

theorem eq_under_of_segments (xs : List String) {y : String} {ys : List String} :
    ∀ {s : String}, segments s = xs ++ y :: ys → ∃ b, s = under xs b ∧ segments b = y :: ys := by
  induction xs with
  | nil => exact fun h => ⟨_, rfl, h⟩
  | cons x xs ih =>
    intro s h
    have hcons : ∃ z zs, xs ++ y :: ys = z :: zs := by cases xs <;> simp
    obtain ⟨z, zs, e⟩ := hcons
    rw [List.cons_append, e] at h
    obtain ⟨-, b, rfl, hb⟩ := segments_cons_cons_iff.mp h
    obtain ⟨c, rfl, hc⟩ := ih (hb.trans e.symm)
    exact ⟨c, rfl, hc⟩

/-! ## Patterns -/

/-- A segment of a pattern; `rest` stands for all that is left of the path. -/
inductive Seg
  | lit (s : String)
  | param (name : String)
  | rest (name : String)
  deriving DecidableEq

def matchSegs : List Seg → List String → Option (List (String × String))
  | [], [] => some []
  | .lit s :: ps, x :: xs => if s = x then matchSegs ps xs else none
  | .param name :: ps, x :: xs => (matchSegs ps xs).map ((name, x) :: ·)
  | [.rest name], x :: xs => some [(name, "/".intercalate (x :: xs))]
  | _, _ => none

section
variable {s name : String} {ps : List Seg} {segs : List String} {params : List (String × String)}

theorem matchSegs_nil : matchSegs [] segs = some params ↔ segs = [] ∧ params = [] := by
  cases segs <;> simp [matchSegs, eq_comm]

theorem matchSegs_lit : matchSegs (.lit s :: ps) segs = some params ↔ ∃ xs, segs = s :: xs ∧ matchSegs ps xs = some params := by
  cases segs with
  | nil => simp [matchSegs]
  | cons x xs =>
    simp only [matchSegs]
    by_cases h : s = x
    · subst h
      simp
    · simp [h, Ne.symm h]

theorem matchSegs_param : matchSegs (.param name :: ps) segs = some params ↔
    ∃ x xs params', segs = x :: xs ∧ params = (name, x) :: params' ∧ matchSegs ps xs = some params' := by
  cases segs with
  | nil => simp [matchSegs]
  | cons x xs =>
    simp only [matchSegs, Option.map_eq_some_iff]
    constructor
    · rintro ⟨params', h, rfl⟩
      exact ⟨x, xs, params', rfl, rfl, h⟩
    · rintro ⟨_, _, params', e, rfl, h⟩
      cases e
      exact ⟨params', h, rfl⟩

end

def mayMatch : List String → List Seg → Bool
  | [], _ => true
  | x :: xs, .lit s :: ps => s = x && mayMatch xs ps
  | _ :: xs, .param _ :: ps => mayMatch xs ps
  | _ :: _, .rest _ :: _ => true
  | _ :: _, [] => false

structure Route (η : Type) where
  pattern : List Seg
  methods : List (String × η)

/-! ## Tables -/

section
variable {η : Type}

def dispatch (table : List (Route η)) (method path : String) : Option (η × List (String × String)) :=
  match segments path with
  | "" :: segs =>
    (table.findSome? fun r => (matchSegs r.pattern segs).map fun params => (r.methods, params)).bind fun found =>
      (found.1.lookup method).map fun handler => (handler, found.2)
  | _ => none

variable {table : List (Route η)} {method path : String} {handler : η} {params : List (String × String)}

theorem mem_of_lookup {α β : Type} [BEq α] [LawfulBEq α] {l : List (α × β)} {a : α} {b : β} (h : l.lookup a = some b) :
    (a, b) ∈ l := by
  induction l with
  | nil => cases h
  | cons e l ih =>
    rw [List.lookup_cons] at h
    split at h
    · rename_i he
      obtain rfl := eq_of_beq he
      obtain rfl := Option.some.inj h
      exact List.mem_cons_self
    · exact List.mem_cons_of_mem _ (ih h)

theorem dispatch_some (h : dispatch table method path = some (handler, params)) :
    ∃ r ∈ table, ∃ segs, segments path = "" :: segs ∧ matchSegs r.pattern segs = some params ∧ (method, handler) ∈ r.methods := by
  unfold dispatch at h
  split at h
  · rename_i segs hsegs
    obtain ⟨found, hfound, h⟩ := Option.bind_eq_some_iff.mp h
    obtain ⟨r, hr, hmatch⟩ := List.exists_of_findSome?_eq_some hfound
    obtain ⟨ps, hps, rfl⟩ := Option.map_eq_some_iff.mp hmatch
    obtain ⟨x, hx, he⟩ := Option.map_eq_some_iff.mp h
    cases he
    exact ⟨r, hr, segs, hsegs, hps, mem_of_lookup hx⟩
  · cases h

theorem mayMatch_of_match (xs : List String) {ys : List String} :
    ∀ {pattern : List Seg} {params : List (String × String)}, matchSegs pattern (xs ++ ys) = some params → mayMatch xs pattern := by
  induction xs with
  | nil =>
    intro pattern params _
    simp [mayMatch]
  | cons x xs ih =>
    intro pattern params h
    rcases pattern with _ | ⟨s | name | name, ps⟩
    · cases h
    · rw [List.cons_append, matchSegs] at h
      split at h
      · rename_i hs
        simp [mayMatch, hs, ih h]
      · cases h
    · rw [List.cons_append, matchSegs] at h
      obtain ⟨params', h', -⟩ := Option.map_eq_some_iff.mp h
      exact ih h'
    · rfl

end

end KV
