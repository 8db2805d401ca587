import Defing.Core.Exec
import Defing.Core.Paths

/-!
# Contracts of the accesses

What it takes for each access of `M` to obey a contract. All lemmas are
equivalences and simp lemmas: a command's contract reduces to the conditions
on the rows it reads and writes.
-/

namespace Defing

open KV (Prog Contract)

variable {α β : Type} {C : Contract String Stored VersionWrite} {Q : α → Prop}

@[simp] theorem obeys_throw (e : Error) : (fail e : M α).Obeys C Q ↔ True := Iff.rfl

@[simp] theorem obeys_ensure (c : Prop) [Decidable c] (e : Error) {Q : Unit → Prop} :
    (ensure c e).Obeys C Q ↔ (c → Q ()) := by
  unfold ensure
  split <;> simp [*]

@[simp] theorem obeys_okOr (o : Option α) (e : Error) : (okOr o e).Obeys C Q ↔ ∀ a, o = some a → Q a := by
  cases o <;> simp [okOr]

@[simp] theorem obeys_ofExcept (r : Except Error α) :
    (Prog.ofExcept r : M α).Obeys C Q ↔ ∀ a, r = .ok a → Q a := by
  cases r <;> simp [Prog.ofExcept, Prog.Obeys]

@[simp] theorem obeys_putPending (k : String) (v : Stored) {Q : Unit → Prop} :
    (putPending k v).Obeys C Q ↔ C.put k v ∧ Q () := Iff.rfl

@[simp] theorem obeys_savePending [Codec α] (k : String) (a : α) {Q : Unit → Prop} :
    (savePending k a).Obeys C Q ↔ C.put k (Codec.encode a) ∧ Q () := Iff.rfl

@[simp] theorem obeys_deletePending (k : String) {Q : Unit → Prop} :
    (deletePending k).Obeys C Q ↔ C.del k ∧ Q () := Iff.rfl

@[simp] theorem obeys_storeDelete (k : String) {Q : Unit → Prop} :
    (storeDelete k).Obeys C Q ↔ C.direct k ∧ C.del k ∧ Q () := by
  refine ⟨fun h => ⟨h.1, h.2.1, h.2.2 (.ok ())⟩, fun h => ⟨h.1, h.2.1, ?_⟩⟩
  rintro (_ | _)
  · trivial
  · exact h.2.2

@[simp] theorem obeys_getMerged (k : String) {Q : Option Stored → Prop} :
    (getMerged k).Obeys C Q ↔ Q none ∧ ∀ v, C.row k v → Q (some v) := by
  constructor
  · exact fun h => ⟨h (.ok none) (by rintro _ ⟨⟩), fun v hv => h (.ok (some v)) (by rintro _ ⟨rfl⟩; exact hv)⟩
  · rintro ⟨h₀, h₁⟩ (_ | _ | v) hr
    · trivial
    · exact h₀
    · exact h₁ v (hr v rfl)

@[simp] theorem obeys_getPrefixMerged (stem : String) {Q : List (String × Stored) → Prop} :
    (getPrefixMerged stem).Obeys C Q ↔
      ∀ rows, (∀ row ∈ rows, startsWith stem row.1 ∧ C.row row.1 row.2) → Q rows := by
  constructor
  · exact fun h rows hr => h (.ok rows) (by rintro _ ⟨rfl⟩; exact hr)
  · rintro h (_ | rows) hr
    · trivial
    · exact h rows (hr rows rfl)

section
variable [Codec α] [SerdeJson] {Q : Option α → Prop}

@[simp] theorem obeys_readAs (what k : String) :
    (readAs what k).Obeys C Q ↔ Q none ∧ ∀ a, C.row k (Codec.encode a) → Q (some (Codec.reread a)) := by
  rw [readAs, Prog.obeys_bind, obeys_getMerged]
  simp only [obeys_ofExcept, parseRow_ok]
  constructor
  · exact fun h => ⟨h.1 none (decodes_none.mpr rfl), fun a ha => h.2 _ ha _ (decodes_encode a)⟩
  · rintro ⟨h₀, h₁⟩
    refine ⟨?_, ?_⟩
    · rintro (_ | a) ha
      · exact h₀
      · obtain ⟨x, ⟨⟩, -⟩ := decodes_some.mp ha
    · rintro v hv (_ | a) ha
      · cases decodes_none.mp ha
      · obtain ⟨x, ⟨⟩, rfl⟩ := decodes_some.mp ha
        exact h₁ x hv

@[simp] theorem obeys_loadMerged (k : String) :
    (loadMerged k).Obeys C Q ↔ Q none ∧ ∀ a, C.row k (Codec.encode a) → Q (some (Codec.reread a)) := obeys_readAs _ k

@[simp] theorem obeys_load (k : String) :
    (load k).Obeys C Q ↔ Q none ∧ ∀ a, C.row k (Codec.encode a) → Q (some (Codec.reread a)) := by
  constructor
  · intro h
    refine ⟨h (.ok none) (by rintro _ ⟨⟩), fun a ha => ?_⟩
    have := h (.ok (some (Codec.encode a))) (by rintro _ ⟨rfl⟩; exact ha)
    simp only [obeys_ofExcept] at this
    exact this _ (by simp [Except.bind, parseRow_ok])
  · rintro ⟨h₀, h₁⟩ (_ | o) hr
    · trivial
    · simp only [obeys_ofExcept]
      rintro (_ | a) ha
      · exact h₀
      · obtain ⟨x, rfl, rfl⟩ := decodes_some.mp (parseRow_ok.mp ha)
        exact h₁ x (hr _ rfl)

@[simp] theorem obeys_tryLoadMerged (k : String) :
    (tryLoadMerged k).Obeys C Q ↔ Q none ∧ ∀ a, C.row k (Codec.encode a) → Q (some (Codec.reread a)) := by
  constructor
  · intro h
    refine ⟨h (.ok none) (by rintro _ ⟨⟩), fun a ha => ?_⟩
    have := h (.ok (some (Codec.encode a))) (by rintro _ ⟨rfl⟩; exact ha)
    simpa [Prog.obeys_pure, Except.bind, parseRow, Except.toOption] using this
  · rintro ⟨h₀, h₁⟩ (_ | o) hr
    · exact h₀
    · rw [Prog.obeys_pure]
      cases h : (Except.ok (ε := Error) o).bind (parseRow (α := α) s!"value at {k}") with
      | error => exact h₀
      | ok o' =>
        rcases o' with _ | a
        · exact h₀
        · obtain ⟨x, rfl, rfl⟩ := decodes_some.mp (parseRow_ok.mp h)
          exact h₁ x (hr _ rfl)

end

theorem obeys_readOnly {p : M α} (hp : p.ReadOnly) (h : ∀ a, Q a) : p.Obeys C Q := by
  induction p with
  | done a => exact h a
  | fail => trivial
  | get _ _ ih => exact fun r _ => ih r (hp r)
  | scan _ _ ih => exact fun r _ => ih r (hp r)
  | put | del | storeGet | storePut | storeDel | note => exact hp.elim

/-! ## Loops -/

theorem obeys_deleteRows {rows : List (String × Stored)} {Q : Unit → Prop} (h : ∀ row ∈ rows, C.del row.1)
    (hQ : Q ()) : (deleteRows rows).Obeys C Q := by
  refine (Prog.obeys_forM (C := C) fun row hr => ?_).mono fun _ _ => hQ
  exact (obeys_deletePending _).mpr ⟨h row hr, trivial⟩

theorem obeys_mapM {f : α → M β} {l : List α} (h : ∀ a ∈ l, (f a).Obeys C fun _ => True) :
    (l.mapM f).Obeys C fun _ => True := by
  induction l with
  | nil => rw [List.mapM_nil]; trivial
  | cons a l ih =>
    rw [List.mapM_cons, Prog.obeys_bind]
    refine (h a (by simp)).mono fun _ _ => Prog.obeys_bind.mpr ?_
    exact (ih fun a' ha' => h a' (by simp [ha'])).mono fun _ _ => trivial

theorem obeys_collect {f : α → M (List β)} (R : β → Prop) {l : List α}
    (h : ∀ a ∈ l, (f a).Obeys C fun bs => ∀ b ∈ bs, R b) : (collect f l).Obeys C fun bs => ∀ b ∈ bs, R b := by
  induction l with
  | nil => rw [collect]; simp
  | cons a l ih =>
    rw [collect, Prog.obeys_bind]
    refine (h a (by simp)).mono fun xs hx => Prog.obeys_bind.mpr ?_
    refine (ih fun a' ha' => h a' (by simp [ha'])).mono fun ys hy => ?_
    rw [Prog.obeys_pure]
    intro b hb
    rcases List.mem_append.mp hb with hb | hb
    · exact hx b hb
    · exact hy b hb

end Defing
