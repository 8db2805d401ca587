import Defing.Core.Config
import Defing.State.Always

/-!
# Pruning

Pruning deletes rows of versions of one branch, and nothing else. `Live` are
the stores that commands and prunings reach, in any order.
-/

namespace Defing

open KV (Prog Plain segments)

variable {id id' : ProjectId} {b b' : BranchName} {t : Store} {k : String}

def VersionRow (id : ProjectId) (b : BranchName) (k : String) : Prop :=
  Named id b ∧ ∃ n, k = versionKey id b n ∨ k = snapshotKey id b n ∨ k = diffKey id b n

theorem VersionRow.under (h : VersionRow id b k) : UnderBranch id b k := by
  obtain ⟨hn, n, rfl | rfl | rfl⟩ := h
  · exact under_versionKey hn n
  · exact under_snapshotKey hn n
  · exact under_diffKey hn n

theorem not_versionRow_graySnapKey (hn : Named id b) (seq : Nat) : ¬ VersionRow id' b' (graySnapKey id b seq) := by
  intro h
  obtain ⟨rfl, rfl⟩ := h.under.unique (under_graySnapKey hn seq)
  obtain ⟨-, n, e | e | e⟩ := h
  · exact absurd (Slot.key_inj (x := .gray seq) (y := .record n) hn e) (by simp)
  · exact absurd (Slot.key_inj (x := .gray seq) (y := .full n) hn e) (by simp)
  · exact absurd (Slot.key_inj (x := .gray seq) (y := .diff n) hn e) (by simp)

theorem not_versionRow_branchStateKey (hn : Named id b) : ¬ VersionRow id' b' (branchStateKey id b) := by
  intro h
  obtain ⟨rfl, rfl⟩ := h.under.unique (under_branchStateKey hn)
  obtain ⟨-, n, e | e | e⟩ := h
  · exact absurd (Slot.key_inj (x := .state) (y := .record n) hn e) (by simp)
  · exact absurd (Slot.key_inj (x := .state) (y := .full n) hn e) (by simp)
  · exact absurd (Slot.key_inj (x := .state) (y := .diff n) hn e) (by simp)

variable [SerdeJson]

omit [SerdeJson] in
theorem deleteVersion_obeys (hn : Named id b) (n : Nat) :
    (deleteVersion id b n).Obeys (rules (VersionRow id b) (VersionRow id b)) fun _ => True := by
  have hrow : ∀ k, k = versionKey id b n ∨ k = snapshotKey id b n ∨ k = diffKey id b n → VersionRow id b k :=
    fun k h => ⟨hn, n, h⟩
  simp only [deleteVersion, Prog.obeys_bind, obeys_storeDelete, rules_direct, rules_del]
  exact ⟨hrow _ (.inl rfl), hrow _ (.inl rfl), hrow _ (.inr (.inl rfl)), hrow _ (.inr (.inl rfl)),
    hrow _ (.inr (.inr rfl)), hrow _ (.inr (.inr rfl)), trivial⟩

theorem pruneVersions_obeys (id : ProjectId) (b : BranchName) (keep : Nat) :
    (pruneVersions id b keep).Obeys (rules (VersionRow id b) (VersionRow id b)) fun _ => True := by
  simp only [pruneVersions, getBranchState, versionHistory, Prog.obeys_bind, obeys_loadMerged, obeys_okOr,
    obeys_getPrefixMerged]
  refine ⟨by rintro _ ⟨⟩, ?_⟩
  rintro st hst _ ⟨rfl⟩ rows -
  have hn : Named id b := named_of_placed st hst
  simp only [Prog.obeys_pure]
  split
  · split
    · trivial
    · rw [Prog.obeys_bind]
      exact Prog.obeys_forM fun rec _ => deleteVersion_obeys hn rec.no
  · trivial

theorem prune_row (ht : WellPlaced t) (keep : Nat) (k : String) :
    (prune id b keep t)[k]? = t[k]? ∨ VersionRow id b k ∧ (prune id b keep t)[k]? = none :=
  (Prog.store_run (C := rules (VersionRow id b) (VersionRow id b)) (fun _ _ h => h.1) (pruneVersions_obeys id b keep)
    (b := { store := t }) ht ht).1 k

theorem wellPlaced_prune (ht : WellPlaced t) (keep : Nat) : WellPlaced (prune id b keep t) := by
  intro k v hv
  rcases prune_row ht keep k with h | h
  · exact ht k v (h ▸ hv)
  · rw [h.2] at hv
    cases hv

theorem stateOf_prune (id : ProjectId) (b : BranchName) (ht : WellPlaced t) (keep : Nat) (hn : Named id' b') :
    stateOf (prune id b keep t) id' b' = stateOf t id' b' :=
  entity_congr ((prune_row ht keep _).resolve_right fun h => not_versionRow_branchStateKey hn h.1)

theorem graySnap_prune (id : ProjectId) (b : BranchName) (ht : WellPlaced t) (keep : Nat) (hn : Named id' b') (seq : Nat) :
    (branchAt (prune id b keep t) id' b').gray seq = (branchAt t id' b').gray seq :=
  (prune_row ht keep _).resolve_right fun h => not_versionRow_graySnapKey hn seq h.1

theorem rooted_prune (ht : WellPlaced t) (hr : Rooted t) (keep : Nat) : Rooted (prune id b keep t) := by
  intro id' b' hn hst
  rw [stateOf_prune id b ht keep hn] at hst
  rw [entity_congr ((prune_row ht keep _).resolve_right fun h => ?_)]
  · exact hr id' b' hn hst
  · obtain ⟨tail, htail⟩ := h.1.under
    rw [segments_projectKey hn.plain.1] at htail
    cases htail

/-- The stores that commands and prunings reach from the empty one. -/
inductive Live : Store → Prop
  | empty : Live ∅
  | step {t : Store} (cmd : Command) (now : Int) : Live t → Live (apply cmd now t).store
  | prune {t : Store} (id : ProjectId) (b : BranchName) (keep : Nat) : Live t → Live (prune id b keep t)

theorem Live.placed (h : Live t) : WellPlaced t ∧ Rooted t := by
  induction h with
  | empty => exact ⟨wellPlaced_empty, rooted_empty⟩
  | step cmd now _ ih => exact ⟨wellPlaced_apply ih.1 cmd now, rooted_apply ih.1 ih.2 cmd now⟩
  | prune id b keep _ ih => exact ⟨wellPlaced_prune ih.1 keep, rooted_prune ih.1 ih.2 keep⟩

theorem Reach.live {allowed : Store → Command → Int → Prop} (h : Reach allowed t) : Live t := by
  induction h with
  | empty => exact .empty
  | step cmd now _ _ ih => exact .step cmd now ih

end Defing
