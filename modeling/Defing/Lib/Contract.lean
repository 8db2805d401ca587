import Defing.Lib.Prog

/-!
# Contracts

A contract bounds what a program may write, given what it may assume of the
rows it reads. `Obeys` checks a program against a contract over every result
of every read, so one check serves every handler: it yields the invariants of
single rows (`rows_exec`), the frame of a program (`frame_exec`) and the
history it may record (`notes_exec`).
-/

namespace KV

open Std (ExtTreeMap TransOrd LawfulEqOrd)

/-- The rows a program may assume to read, the writes it may make and the history it may record:
`direct` are the keys it may delete without going through the buffer. -/
structure Contract (K V G : Type) where
  row : K → V → Prop
  put : K → V → Prop
  del : K → Prop
  direct : K → Prop
  note : G → Prop

namespace Prog

variable {K V E G α β : Type}

def Obeys (C : Contract K V G) : Prog K V E G α → (α → Prop) → Prop
  | done a, Q => Q a
  | fail _, _ => True
  | get k next, Q => ∀ r, (∀ v, r = .ok (some v) → C.row k v) → (next r).Obeys C Q
  | scan hits next, Q =>
    ∀ r, (∀ rows, r = .ok rows → ∀ p ∈ rows, hits p.1 = true ∧ C.row p.1 p.2) → (next r).Obeys C Q
  | put k v next, Q => C.put k v ∧ next.Obeys C Q
  | del k next, Q => C.del k ∧ next.Obeys C Q
  | storeGet k next, Q => ∀ r, (∀ v, r = .ok (some v) → C.row k v) → (next r).Obeys C Q
  | storePut _ _ _, _ => False
  | storeDel k next, Q => C.direct k ∧ C.del k ∧ ∀ r, (next r).Obeys C Q
  | note g next, Q => C.note g ∧ next.Obeys C Q

variable {C : Contract K V G}

@[simp] theorem obeys_pure (a : α) (Q : α → Prop) : (pure a : Prog K V E G α).Obeys C Q ↔ Q a := Iff.rfl

@[simp] theorem obeys_fail (e : E) (Q : α → Prop) : (fail e : Prog K V E G α).Obeys C Q ↔ True := Iff.rfl

@[simp] theorem obeys_bind {p : Prog K V E G α} {f : α → Prog K V E G β} {Q : β → Prop} :
    (p >>= f).Obeys C Q ↔ p.Obeys C fun a => (f a).Obeys C Q := by
  change (p.bind f).Obeys C Q ↔ _
  induction p with
  | done | fail => rfl
  | put _ _ _ ih | del _ _ ih | note _ _ ih => exact and_congr_right fun _ => ih
  | get _ _ ih | scan _ _ ih | storeGet _ _ ih =>
    exact forall_congr' fun r => imp_congr_right fun _ => ih r
  | storePut => rfl
  | storeDel _ _ ih => exact and_congr_right fun _ => and_congr_right fun _ => forall_congr' fun r => ih r

@[simp] theorem obeys_map {p : Prog K V E G α} {f : α → β} {Q : β → Prop} :
    (f <$> p).Obeys C Q ↔ p.Obeys C fun a => Q (f a) := by
  rw [map_eq_pure_bind, obeys_bind]
  simp only [obeys_pure]

theorem Obeys.weaken {C' : Contract K V G} {p : Prog K V E G α} {Q : α → Prop} (h : p.Obeys C Q)
    (hr : ∀ k v, C'.row k v → C.row k v) (hp : ∀ k v, C.put k v → C'.put k v) (hd : ∀ k, C.del k → C'.del k)
    (hD : ∀ k, C.direct k → C'.direct k) (hn : ∀ g, C.note g → C'.note g) : p.Obeys C' Q := by
  induction p with
  | done => exact h
  | fail => trivial
  | put _ _ _ ih => exact ⟨hp _ _ h.1, ih h.2⟩
  | del _ _ ih => exact ⟨hd _ h.1, ih h.2⟩
  | note _ _ ih => exact ⟨hn _ h.1, ih h.2⟩
  | get _ _ ih | storeGet _ _ ih => exact fun r hv => ih r (h r fun v e => hr _ _ (hv v e))
  | scan _ _ ih => exact fun r hv => ih r (h r fun rows e p hm => ⟨(hv rows e p hm).1, hr _ _ (hv rows e p hm).2⟩)
  | storePut => exact h.elim
  | storeDel _ _ ih => exact ⟨hD _ h.1, hd _ h.2.1, fun r => ih r (h.2.2 r)⟩

theorem Obeys.mono {p : Prog K V E G α} {Q Q' : α → Prop} (h : p.Obeys C Q) (hQ : ∀ a, Q a → Q' a) :
    p.Obeys C Q' := by
  induction p with
  | done a => exact hQ _ h
  | fail => trivial
  | put _ _ _ ih | del _ _ ih | note _ _ ih => exact ⟨h.1, ih h.2⟩
  | get _ _ ih | scan _ _ ih | storeGet _ _ ih => exact fun r hr => ih r (h r hr)
  | storePut => exact h.elim
  | storeDel _ _ ih => exact ⟨h.1, h.2.1, fun r => ih r (h.2.2 r)⟩

/-- A loop obeys a contract if each pass does and keeps an invariant of the accumulator. -/
theorem obeys_foldlM {f : β → α → Prog K V E G β} (I : β → Prop) :
    ∀ (l : List α) (b : β), I b → (∀ a ∈ l, ∀ b, I b → (f b a).Obeys C I) → (l.foldlM f b).Obeys C I
  | [], _, h, _ => h
  | a :: l, b, h, hs => by
    rw [List.foldlM_cons, obeys_bind]
    exact (hs a (by simp) b h).mono fun b' hb' =>
      obeys_foldlM I l b' hb' fun a' ha' => hs a' (by simp [ha'])

theorem obeys_forM {f : α → Prog K V E G Unit} {l : List α} (h : ∀ a ∈ l, (f a).Obeys C fun _ => True) :
    (l.forM f).Obeys C fun _ => True := by
  induction l with
  | nil => trivial
  | cons a l ih =>
    change (f a >>= fun _ => l.forM f).Obeys C fun _ => True
    rw [obeys_bind]
    exact (h a (by simp)).mono fun _ _ => ih fun a' ha' => h a' (by simp [ha'])

/-! ## Invariants of single rows -/

section
variable [Ord K] [TransOrd K] [LawfulEqOrd K] [DecidableEq K]

def Rows (P : K → V → Prop) (t : ExtTreeMap K V) : Prop := ∀ (k : K) (v : V), t[k]? = some v → P k v

variable {P : K → V → Prop} {t : ExtTreeMap K V}

theorem Rows.insert (h : Rows P t) {k : K} {v : V} (hk : P k v) : Rows P (t.insert k v) := by
  intro a w ha
  rw [getElem?_insert] at ha
  split at ha
  · rename_i e; cases ha; exact e ▸ hk
  · exact h a w ha

theorem Rows.erase (h : Rows P t) (k : K) : Rows P (t.erase k) := by
  intro a w ha
  rw [getElem?_erase] at ha
  split at ha
  · cases ha
  · exact h a w ha

omit [DecidableEq K] in
theorem Rows.scan (h : Rows P t) (hits : K → Bool) :
    ∀ p ∈ (t.filter fun k _ => hits k).toList, hits p.1 = true ∧ P p.1 p.2 := by
  intro p hp
  rw [ExtTreeMap.toList_filter, List.mem_filter] at hp
  exact ⟨hp.2, h _ _ (ExtTreeMap.mem_toList_iff_getElem?_eq_some.mp hp.1)⟩

/-- The direct deletes of a program take nothing but keys out of the view of a buffer. -/
theorem view_storeDel {b : Buf K V G} {a k : K} {v : V}
    (h : ({ b with store := b.store.erase a } : Buf K V G).view[k]? = some v) : b.view[k]? = some v := by
  rw [← Buf.lookup_eq] at h ⊢
  simp only [Buf.lookup] at h ⊢
  cases hf : b.pending.reverse.find? fun op => op.key = k with
  | some op => rw [hf] at h; cases op <;> exact h
  | none =>
    rw [hf] at h
    simp only [getElem?_erase] at h
    split at h
    · cases h
    · exact h

/-! ## What a contract gives -/

variable (hput : ∀ k v, C.put k v → C.row k v) {p : Prog K V E G α} {Q : α → Prop} (hp : p.Obeys C Q)
include hput hp

/-- An invariant of single rows that every put establishes holds of every store along the way. -/
theorem rows_exec {s : Flat K V G} (hs : Rows C.row s.kv) :
    Rows C.row (p.exec s).2.kv ∧ ∀ a, (p.exec s).1 = .ok a → Q a := by
  induction p generalizing s with
  | done a => exact ⟨hs, by rintro a' ⟨rfl⟩; exact hp⟩
  | fail e => exact ⟨hs, by rintro a' ⟨⟩⟩
  | note g next ih => exact ih hp.2 (s := { s with notes := s.notes ++ [g] }) hs
  | put k v next ih => exact ih hp.2 (s := { s with kv := s.kv.insert k v }) (hs.insert (hput _ _ hp.1))
  | del k next ih => exact ih hp.2 (s := { s with kv := s.kv.erase k }) (hs.erase k)
  | get k next ih | storeGet k next ih =>
    exact ih _ (hp (.ok s.kv[k]?) fun v hv => hs k v (Except.ok.inj hv)) hs
  | scan hits next ih => exact ih _ (hp _ fun _ hr => Except.ok.inj hr ▸ hs.scan hits) hs
  | storePut => exact hp.elim
  | storeDel k next ih => exact ih _ (hp.2.2 _) (s := { s with kv := s.kv.erase k }) (hs.erase k)

/-- A key that a contract lets a program neither put nor delete keeps its value. -/
theorem frame_exec {s : Flat K V G} (hs : Rows C.row s.kv) {a : K} (ha : ∀ v, ¬ C.put a v) (hd : ¬ C.del a) :
    (p.exec s).2.kv[a]? = s.kv[a]? := by
  have hera : ∀ {t : ExtTreeMap K V} {k}, C.del k → (t.erase k)[a]? = t[a]? :=
    fun h => getElem?_erase_ne _ (by rintro rfl; exact hd h)
  induction p generalizing s with
  | done | fail => rfl
  | note g next ih => exact ih hp.2 (s := { s with notes := s.notes ++ [g] }) hs
  | put k v next ih =>
    refine (ih hp.2 (s := { s with kv := s.kv.insert k v }) (hs.insert (hput _ _ hp.1))).trans ?_
    exact getElem?_insert_ne _ (by rintro rfl; exact ha _ hp.1) _
  | del k next ih =>
    exact (ih hp.2 (s := { s with kv := s.kv.erase k }) (hs.erase k)).trans (hera hp.1)
  | get k next ih | storeGet k next ih =>
    exact ih _ (hp (.ok s.kv[k]?) fun v hv => hs k v (Except.ok.inj hv)) hs
  | scan hits next ih => exact ih _ (hp _ fun _ hr => Except.ok.inj hr ▸ hs.scan hits) hs
  | storePut => exact hp.elim
  | storeDel k next ih =>
    exact (ih _ (hp.2.2 _) (s := { s with kv := s.kv.erase k }) (hs.erase k)).trans (hera hp.2.1)

/-- A program adds to the history what its contract lets it, and takes nothing away. -/
theorem notes_exec {s : Flat K V G} (hs : Rows C.row s.kv) :
    ∃ l, (p.exec s).2.notes = s.notes ++ l ∧ ∀ g ∈ l, C.note g := by
  induction p generalizing s with
  | done | fail => exact ⟨[], by simp [exec], by simp⟩
  | note g next ih =>
    obtain ⟨l, hl, hg⟩ := ih hp.2 (s := { s with notes := s.notes ++ [g] }) hs
    refine ⟨g :: l, by rw [exec, hl, List.append_assoc]; rfl, ?_⟩
    intro g' hg'
    rcases List.mem_cons.mp hg' with rfl | hg'
    · exact hp.1
    · exact hg g' hg'
  | put k v next ih => exact ih hp.2 (s := { s with kv := s.kv.insert k v }) (hs.insert (hput _ _ hp.1))
  | del k next ih => exact ih hp.2 (s := { s with kv := s.kv.erase k }) (hs.erase k)
  | get k next ih | storeGet k next ih =>
    exact ih _ (hp (.ok s.kv[k]?) fun v hv => hs k v (Except.ok.inj hv)) hs
  | scan hits next ih => exact ih _ (hp _ fun _ hr => Except.ok.inj hr ▸ hs.scan hits) hs
  | storePut => exact hp.elim
  | storeDel k next ih => exact ih _ (hp.2.2 _) (s := { s with kv := s.kv.erase k }) (hs.erase k)

/-- Before the flush, a buffered run has done nothing to the store but its direct deletes. The rows of
the store and of the view through the buffer keep the invariant. -/
theorem store_run {b : Buf K V G} (hv : Rows C.row b.view) (hs : Rows C.row b.store) :
    (∀ k : K, (p.run b).2.store[k]? = b.store[k]? ∨ C.direct k ∧ (p.run b).2.store[k]? = none) ∧
      ((∀ k, ¬ C.direct k) → p.trail b = []) ∧ Rows C.row (p.run b).2.view ∧ Rows C.row (p.run b).2.store := by
  induction p generalizing b with
  | done | fail => exact ⟨fun _ => .inl rfl, fun _ => rfl, hv, hs⟩
  | note g next ih => exact ih hp.2 (b := { b with notes := b.notes ++ [g] }) hv hs
  | put a v next ih =>
    refine ih hp.2 (b := b.push (.put a v)) ?_ hs
    rw [Buf.view_push]
    exact hv.insert (hput _ _ hp.1)
  | del a next ih =>
    refine ih hp.2 (b := b.push (.delete a)) ?_ hs
    rw [Buf.view_push]
    exact hv.erase a
  | get a next ih => exact ih _ (hp _ fun v h => hv a v (by rw [← Buf.lookup_eq]; exact Except.ok.inj h)) hv hs
  | scan hits next ih =>
    refine ih _ (hp _ ?_) hv hs
    rintro rows ⟨rfl⟩
    rw [Buf.rows_eq]
    exact hv.scan hits
  | storeGet a next ih => exact ih _ (hp _ fun v h => hs a v (Except.ok.inj h)) hv hs
  | storePut => exact hp.elim
  | storeDel a next ih =>
    obtain ⟨hk, -, hrows⟩ := ih (.ok ()) (hp.2.2 _) (b := { b with store := b.store.erase a })
      (fun c w hc => hv c w (view_storeDel hc)) (hs.erase a)
    refine ⟨fun k => ?_, fun h => absurd hp.1 (h a), hrows⟩
    have hk := hk k
    simp only [getElem?_erase] at hk
    by_cases e : a = k
    · subst e
      simp only [if_true] at hk
      exact .inr ⟨hp.1, hk.elim id (·.2)⟩
    · rw [if_neg e] at hk
      exact hk

end

end Prog
end KV
