import Defing.State.Run

/-!
# Deletion and names

`ProjectDelete` and `BranchDelete` remove every key that the key of the
project, or the stem of the branch, is a stem of. That spares the others
exactly if no other name starts with the deleted one.
-/

namespace Defing

open KV (Prog Plain)

theorem startsWith_iff {stem k : String} : startsWith stem k = true ↔ stem.toList <+: k.toList :=
  List.isPrefixOf_iff_prefix

theorem mem_keys_rowsUnder {stem k : String} {t : Store} :
    k ∈ (rowsUnder stem t).map (·.1) ↔ startsWith stem k ∧ ∃ v, t[k]? = some v := by
  simp only [List.mem_map, Prod.exists, exists_and_right, exists_eq_right, mem_rowsUnder, exists_and_left]

theorem getElem?_eraseRows (s : State) (stem k : String) :
    (eraseAll s ((rowsUnder stem s.kv).map (·.1))).kv[k]? = if startsWith stem k then none else s.kv[k]? := by
  rw [getElem?_eraseAll]
  by_cases hk : startsWith stem k = true
  · cases h : s.kv[k]? with
    | none => simp
    | some v => rw [if_pos (mem_keys_rowsUnder.mpr ⟨hk, v, h⟩), if_pos hk]
  · rw [if_neg hk, if_neg fun h => hk (mem_keys_rowsUnder.mp h).1]

section
variable [SerdeJson] {t : Store} {now : Int} {op : String} {events : List PublishEvent} {s : State}

theorem projectDelete_keys (ht : WellPlaced t) {id : ProjectId}
    (h : execute (.projectDelete id op) now t = (.ok events, s)) {k : String} (hk : ¬ AccountKey k) :
    s.kv[k]? = if startsWith (projectKey id) k then none else t[k]? := by
  simp only [execute, applyInner, applyProjectDelete, Prog.exec_bind_ok] at h
  obtain ⟨o, _, h₀, p, _, h₁, rows, _, h₂, _, _, h₃, _, _, h₄, _, s₅, h₅, h₆⟩ := h
  obtain ⟨-, rfl⟩ := loadMerged_ok.mp h₀
  obtain ⟨-, rfl⟩ := okOr_ok.mp h₁
  obtain ⟨rfl, rfl⟩ := getPrefixMerged_ok.mp h₂
  cases deleteRows_ok.mp h₃
  cases deletePending_ok.mp h₄
  obtain ⟨-, rfl⟩ := pure_ok.mp h₆
  -- what follows the scan stays within the keys of accounts
  have hrest := Prog.frame_exec (C := accounts fun _ => False) (fun _ _ h => h.1)
    (deleteAccounts_obeys (fun _ h => h) id)
    (s := (eraseAll ⟨t, []⟩ ((rowsUnder (projectKey id) t).map (·.1))).erase (idxPname p.name))
    (fun a v ha => by
      rw [KV.Flat.erase_kv, KV.getElem?_erase] at ha
      split at ha
      · cases ha
      · exact wellPlaced_eraseAll (s := ⟨t, []⟩) ht _ a v ha)
    (a := k) (fun v h => hk h.2) hk
  rw [h₅] at hrest
  rw [hrest, KV.Flat.erase_kv, KV.getElem?_erase_ne, getElem?_eraseRows]
  rintro rfl
  exact hk (account_idxPname _)

theorem branchDelete_keys {id : ProjectId} {b : BranchName}
    (h : execute (.branchDelete id b op) now t = (.ok events, s)) (k : String) :
    s.kv[k]? = if startsWith (branchPrefix id b) k then none else t[k]? := by
  simp only [execute, applyInner, applyBranchDelete, Prog.exec_bind_ok] at h
  obtain ⟨o, _, h₀, st, _, h₁, _, _, h₂, rows, _, h₃, _, _, h₄, h₅⟩ := h
  obtain ⟨-, rfl⟩ := loadMerged_ok.mp h₀
  obtain ⟨-, rfl⟩ := okOr_ok.mp h₁
  obtain ⟨-, rfl⟩ := ensure_ok.mp h₂
  obtain ⟨rfl, rfl⟩ := getPrefixMerged_ok.mp h₃
  cases deleteRows_ok.mp h₄
  obtain ⟨-, rfl⟩ := pure_ok.mp h₅
  exact getElem?_eraseRows ⟨t, []⟩ _ _

end

/-! ## Keys of projects and branches -/

def KeyOfProject (q : ProjectId) (k : String) : Prop := k = projectKey q ∨ startsWith (projectKey q ++ "/") k

def KeyOfBranch (p : ProjectId) (b : BranchName) (k : String) : Prop := startsWith (branchPrefix p b ++ "/") k

def ProjectIn (t : Store) (q : ProjectId) : Prop := ∃ p, t[projectKey q]? = some (.project p)

def BranchIn (t : Store) (p : ProjectId) (b : BranchName) : Prop :=
  ∃ st, t[branchStateKey p b]? = some (.branchState st)

theorem ProjectIn.plain {t : Store} (ht : WellPlaced t) {q : ProjectId} (h : ProjectIn t q) : Plain q := by
  obtain ⟨p, hp⟩ := h
  exact plain_of_validName (validName_of_project p (ht _ _ hp)).1

theorem BranchIn.named {t : Store} (ht : WellPlaced t) {p : ProjectId} {b : BranchName} (h : BranchIn t p b) :
    Named p b := by
  obtain ⟨st, hst⟩ := h
  exact named_of_placed st (ht _ _ hst)

theorem KeyOfProject.not_outside {q : ProjectId} (hq : Plain q) {k : String} (h : KeyOfProject q k) :
    ¬ OutsideProjects k := by
  rcases h with rfl | h
  · simp [OutsideProjects, segments_projectKey hq]
  · obtain ⟨c, hc⟩ := startsWith_iff.mp h
    have := KV.segments_of ["p", q] (String.ofList c)
      (by rw [← hc]; simp [KV.under, projectKey, kProject]) (by simp_all [Plain])
    simp [OutsideProjects, this]

/-- The key of a project is a stem of a key of another one exactly if its name is one of its name. -/
theorem startsWith_projectKey {p q : ProjectId} (hp : Plain p) {k : String} (h : KeyOfProject q k) :
    startsWith (projectKey p) k ↔ p.toList <+: q.toList := by
  rw [startsWith_iff]
  rcases h with rfl | h
  · simp only [projectKey, String.toList_append, KV.prefix_cancel]
  · obtain ⟨c, hc⟩ := startsWith_iff.mp h
    rw [← hc]
    simp only [projectKey, String.toList_append, List.append_assoc, KV.prefix_cancel]
    exact KV.plain_prefix hp c

theorem startsWith_branchPrefix {p : ProjectId} {b b' : BranchName} (hb : Plain b) {k : String}
    (h : KeyOfBranch p b' k) : startsWith (branchPrefix p b) k ↔ b.toList <+: b'.toList := by
  obtain ⟨c, hc⟩ := startsWith_iff.mp h
  rw [startsWith_iff, ← hc]
  simp only [branchPrefix, String.toList_append, List.append_assoc, KV.prefix_cancel]
  exact KV.plain_prefix hb c

theorem keyOfBranch_stateKey (p : ProjectId) (b : BranchName) : KeyOfBranch p b (branchStateKey p b) := by
  rw [KeyOfBranch, startsWith_iff]
  exact ⟨"state".toList, by simp [branchPrefix, branchStateKey, kState]⟩

/-! ## When a deletion spares the others -/

/-- The deletion of a project leaves the keys of every other project alone. -/
def SparesProjects [SerdeJson] (t : Store) (p : ProjectId) (op : String) (now : Int) : Prop :=
  ∀ q, ProjectIn t q → q ≠ p → ∀ k : String, KeyOfProject q k →
    (apply (.projectDelete p op) now t).store[k]? = t[k]?

/-- The deletion of a branch leaves the keys of every other branch of the project alone. -/
def SparesBranches [SerdeJson] (t : Store) (p : ProjectId) (b : BranchName) (op : String) (now : Int) : Prop :=
  ∀ b', BranchIn t p b' → b' ≠ b → ∀ k : String, KeyOfBranch p b' k →
    (apply (.branchDelete p b op) now t).store[k]? = t[k]?

/-- Deletions spare the others exactly if no other name starts with the deleted one. -/
theorem deletes_isolated_iff [SerdeJson] (t : Store) (ht : Reachable t) (op : String) (now : Int) :
    (∀ p, ProjectIn t p → (∃ events, (apply (.projectDelete p op) now t).result = .ok events) →
      (SparesProjects t p op now ↔ ¬ ∃ q, ProjectIn t q ∧ q ≠ p ∧ p.toList <+: q.toList)) ∧
    (∀ p b, (∃ events, (apply (.branchDelete p b op) now t).result = .ok events) →
      (SparesBranches t p b op now ↔ ¬ ∃ b', BranchIn t p b' ∧ b' ≠ b ∧ b.toList <+: b'.toList)) := by
  have hwp := wellPlaced_of_reach ht
  constructor
  · rintro p hp ⟨events, hok⟩
    obtain ⟨s, hs, hstore, -⟩ := apply_ok hok
    have hplain := hp.plain hwp
    have hkeys : ∀ q, ProjectIn t q → ∀ k, KeyOfProject q k →
        s.kv[k]? = if startsWith (projectKey p) k then none else t[k]? :=
      fun q hq k hk => projectDelete_keys hwp hs fun h => hk.not_outside (hq.plain hwp) h.outside
    simp only [SparesProjects, hstore]
    constructor
    · rintro h ⟨q, hq, hne, hpre⟩
      have := h q hq hne _ (.inl rfl)
      rw [hkeys q hq _ (.inl rfl), if_pos ((startsWith_projectKey hplain (.inl rfl)).mpr hpre)] at this
      obtain ⟨proj, hproj⟩ := hq
      rw [hproj] at this
      cases this
    · rintro h q hq hne k hk
      rw [hkeys q hq k hk, if_neg]
      exact fun hpre => h ⟨q, hq, hne, (startsWith_projectKey hplain hk).mp hpre⟩
  · rintro p b ⟨events, hok⟩
    obtain ⟨s, hs, hstore, -⟩ := apply_ok hok
    have hb : Plain b := by
      have h := hs
      simp only [execute, applyInner, applyBranchDelete, Prog.exec_bind_ok] at h
      obtain ⟨o, _, h₀, st, _, h₁, -⟩ := h
      obtain ⟨hrow, rfl⟩ := loadMerged_ok.mp h₀
      obtain ⟨rfl, -⟩ := okOr_ok.mp h₁
      obtain ⟨x, hx, -⟩ := decodes_some.mp hrow
      exact (named_of_placed x (hwp _ _ hx)).plain.2
    simp only [SparesBranches, hstore]
    constructor
    · rintro h ⟨b', hb', hne, hpre⟩
      have := h b' hb' hne _ (keyOfBranch_stateKey p b')
      rw [branchDelete_keys hs, if_pos ((startsWith_branchPrefix hb (keyOfBranch_stateKey p b')).mpr hpre)] at this
      obtain ⟨st, hst⟩ := hb'
      rw [hst] at this
      cases this
    · rintro h b' hb' hne k hk
      rw [branchDelete_keys hs, if_neg]
      exact fun hpre => h ⟨b', hb', hne, (startsWith_branchPrefix hb hk).mp hpre⟩

section
attribute [local instance] sampleJson

/-- Three projects, one of them with the name of another in front of its own. -/
def isolationLog : List (Command × Int) := [
  (.projectCreate "app" "" 0 none, 1),
  (.projectCreate "app2" "" 0 none, 2),
  (.projectCreate "web" "" 0 none, 3),
  (.branchCreate "web" "dev2" none "" 0, 4)]

theorem projectIn_isolationLog : ProjectIn (runLog isolationLog) "web" ∧ ProjectIn (runLog isolationLog) "app" ∧
    ProjectIn (runLog isolationLog) "app2" :=
  ⟨⟨{ id := "web", name := "web", createdAt := 3 }, by decide +kernel⟩,
    ⟨{ id := "app", name := "app", createdAt := 1 }, by decide +kernel⟩,
    ⟨{ id := "app2", name := "app2", createdAt := 2 }, by decide +kernel⟩⟩

theorem deletes_isolated_iff_sample :
    (SparesProjects (runLog isolationLog) "web" "" 5 ↔
      ¬ ∃ q, ProjectIn (runLog isolationLog) q ∧ q ≠ "web" ∧ ("web" : String).toList <+: q.toList) ∧
    (SparesBranches (runLog isolationLog) "web" "test" "" 5 ↔
      ¬ ∃ b, BranchIn (runLog isolationLog) "web" b ∧ b ≠ "test" ∧ ("test" : String).toList <+: b.toList) :=
  have h := deletes_isolated_iff (runLog isolationLog) (reachable_runLog _) "" 5
  ⟨h.1 "web" projectIn_isolationLog.1 ⟨[], by decide +kernel⟩, h.2 "web" "test" ⟨[], by decide +kernel⟩⟩

/-- Deleting the project `app` takes `app2` with it, and deleting the branch `dev` takes `dev2`. -/
theorem deletes_not_isolated :
    (∃ t p, Reachable t ∧ ProjectIn t p ∧ (∃ events, (apply (.projectDelete p "") 5 t).result = .ok events) ∧
      ¬ SparesProjects t p "" 5) ∧
    (∃ t p b, Reachable t ∧ (∃ events, (apply (.branchDelete p b "") 5 t).result = .ok events) ∧
      ¬ SparesBranches t p b "" 5) := by
  refine ⟨⟨runLog isolationLog, "app", reachable_runLog _, projectIn_isolationLog.2.1, ⟨[], by decide +kernel⟩, ?_⟩,
    runLog isolationLog, "web", "dev", reachable_runLog _, ⟨[], by decide +kernel⟩, ?_⟩
  · intro h
    have := h "app2" projectIn_isolationLog.2.2 (by decide) _ (.inl rfl)
    exact absurd this (by decide +kernel)
  · intro h
    have := h "dev2" ⟨BranchState.new 1, by decide +kernel⟩ (by decide) _ (keyOfBranch_stateKey "web" "dev2")
    exact absurd this (by decide +kernel)

end

end Defing
