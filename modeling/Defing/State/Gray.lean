import Defing.State.OwnRows
import Defing.State.Prune

/-!
# Gray releases

A branch keeps one gray snapshot while it has a gray release, under the number
in its state, and none otherwise. So a client that is sent to the gray release
finds it.
-/

namespace Defing

open KV (Prog Plain segments)

section
variable [SerdeJson] {id id' : ProjectId} {b b' : BranchName} {t : Store} {br br' : Branch} {cmd : Command} {now : Int}

/-! ## The snapshot of a gray release -/

/-- Number `n`, if it is positive, is the one there is a snapshot of. -/
def OnlyGray (gray : Nat → Option Stored) (n : Nat) : Prop := ∀ m, gray m ≠ none ↔ m = n ∧ n > 0

omit [SerdeJson] in
/-- A snapshot under a greater number takes the place of the one there is. -/
theorem OnlyGray.advance {gray : Nat → Option Stored} {n n' : Nat} {v : Option Stored} (h : OnlyGray gray n)
    (hlt : n < n') (hv : v ≠ none) :
    OnlyGray (if n > 0 then Function.update (Function.update gray n' v) n none else Function.update gray n' v) n' := by
  intro m
  have hm := h m
  by_cases e : m = n'
  · subst e
    have hne : m ≠ n := Nat.ne_of_gt hlt
    have hpos : m > 0 := Nat.lt_of_le_of_lt (Nat.zero_le n) hlt
    split <;> simp [hne, hv, hpos]
  · split
    · by_cases en : m = n
      · simp [en, Nat.ne_of_lt hlt]
      · simp only [Function.update_apply, e, en, if_false, hm, false_and]
    · have hn : n = 0 := by omega
      simp only [Function.update_apply, e, if_false, hm, hn, Nat.lt_irrefl, and_false, false_and]

omit [SerdeJson] in
theorem OnlyGray.drop {gray : Nat → Option Stored} {n : Nat} (h : OnlyGray gray n) :
    OnlyGray (Function.update gray n none) 0 := by
  intro m
  have hm := h m
  by_cases e : m = n
  · simp [e]
  · simp only [Function.update_apply, e, if_false, hm, Nat.lt_irrefl, and_false, false_and]

/-- A branch has a gray number, a rule and a snapshot under the number, or none of them. -/
structure GrayKept (br : Branch) : Prop where
  absent : br.state = none → ∀ n, br.gray n = none
  rule {st : BranchState} : br.state = some st → (st.graySeq > 0 ↔ st.grayRule ≠ none)
  snap {st : BranchState} : br.state = some st → OnlyGray br.gray st.graySeq

theorem GrayKept.of_become {st : BranchState} {gray : Nat → Option Stored} (hrule : st.graySeq > 0 ↔ st.grayRule ≠ none)
    (hsnap : OnlyGray gray st.graySeq) : GrayKept (br.become st gray) where
  absent h := by cases h
  rule h := Option.some.inj h ▸ hrule
  snap h := by
    obtain rfl := Option.some.inj h
    exact hsnap

theorem grayKept_empty : GrayKept Branch.empty where
  absent _ _ := rfl
  rule h := by cases h
  snap h := by cases h

theorem Move.grayKept {events : List PublishEvent} {ws : List VersionWrite} (h : Move t id b cmd br events ws br')
    (hk : GrayKept br) : GrayKept br' := by
  cases h with
  | create hs h =>
    have hnone : OnlyGray br.gray 0 := fun m => by simp [hk.absent hs m]
    cases h with
    | bare v => exact .of_become (by simp [BranchState.new]) hnone
    | copy at_ _ _ => exact .of_become (by simp [BranchState.new]) hnone
  | edit hat hs h =>
    have hrule := hk.rule hs
    have hsnap := hk.snap hs
    cases h with
    | draft => exact .of_become hrule hsnap
    | grayPublish => exact .of_become (by simp) (hsnap.advance (Nat.lt_succ_self _) (by simp))
    | grayAbort => exact .of_become (by simp) hsnap.drop
  | @release st _ _ _ _ _ record hs ho h =>
    have hrule := hk.rule hs
    have hsnap := hk.snap hs
    cases h with
    | publish => exact .of_become hrule hsnap
    | rollback => exact .of_become hrule hsnap
    | grayPromote => exact .of_become (by simp) hsnap.drop
    | @restructure _ _ _ _ _ _ _ _ gray =>
      by_cases hpos : st.graySeq > 0
      · refine .of_become ?_ ?_
        · simp only [if_pos hpos]
          exact iff_of_true (Nat.succ_pos _) (hrule.mp hpos)
        · simp only [if_pos hpos]
          have hlt : st.graySeq < nextMonotonic st.activeVersion st.graySeq + 1 := by
            rw [nextMonotonic]
            omega
          have h := hsnap.advance hlt (Option.some_ne_none (Codec.encode gray))
          rwa [if_pos hpos] at h
      · refine .of_become ?_ ?_
        · simpa only [if_neg hpos] using hrule
        · simpa only [if_neg hpos] using hsnap
    | cascade => exact .of_become hrule hsnap

/-! ## Runs -/

theorem Live.grayKept (h : Live t) : ∀ id b, Named id b → GrayKept (branchAt t id b) := by
  induction h with
  | empty =>
    intro id b _
    rw [show branchAt ∅ id b = Branch.empty from funext fun x => Std.ExtTreeMap.getElem?_empty]
    exact grayKept_empty
  | step cmd now h ih =>
    exact apply_invariant (I := fun _ _ br => GrayKept br) (fun _ _ => grayKept_empty) h.placed.1 h.placed.2
      (fun _ hk hm => hm.grayKept hk) ih now
  | prune id₀ b₀ keep h ih =>
    intro id b hn
    have hs := stateOf_prune id₀ b₀ h.placed.1 keep hn
    have hg := funext (graySnap_prune id₀ b₀ h.placed.1 keep hn)
    rw [← state_branchAt, ← state_branchAt] at hs
    have hk := ih id b hn
    refine ⟨?_, ?_, ?_⟩ <;> rw [hs]
    · rw [hg]
      exact hk.absent
    · exact hk.rule
    · rw [hg]
      exact hk.snap

omit [SerdeJson] in
theorem graySnapKey_of_startsWith (ht : WellPlaced t) (hn : Named id b) {k : String}
    (h : startsWith (kProject ++ id ++ kBranch ++ b ++ kGraySnap) k) (hk : t[k]? ≠ none) :
    ∃ n, k = graySnapKey id b n := by
  obtain ⟨v, hv⟩ := Option.ne_none_iff_exists'.mp hk
  obtain ⟨c, hc⟩ := startsWith_iff.mp h
  have hseg : segments k = ["p", id, "b", b, "gray-snap"] ++ segments (String.ofList c) :=
    KV.segments_of ["p", id, "b", b, "gray-snap"] (String.ofList c)
      (by rw [← hc]; simp [KV.under, kProject, kBranch, kGraySnap])
      (by have := hn.plain; simp_all [Plain])
  have hp := ht k v hv
  have hs := hp.shape
  rw [hseg] at hs
  cases v <;> simp [Shape] at hs
  obtain ⟨id', b', n, hn', ⟨-, e⟩ | e⟩ := hp
  · rw [e, segments_snapshotKey hn'.plain.1 hn'.plain.2] at hseg
    simp at hseg
  · rw [e, segments_graySnapKey hn'.plain.1 hn'.plain.2] at hseg
    simp only [List.cons_append, List.cons.injEq, true_and] at hseg
    exact ⟨n, by rw [e, hseg.1, hseg.2.1]⟩

omit [SerdeJson] in
theorem startsWith_graySnapKey (id : ProjectId) (b : BranchName) (n : Nat) :
    startsWith (kProject ++ id ++ kBranch ++ b ++ kGraySnap) (graySnapKey id b n) :=
  startsWith_iff.mpr ⟨(toString n).toList, by rw [graySnapKey]; simp⟩

def grayKeys (t : Store) (id : ProjectId) (b : BranchName) : List String :=
  (rowsUnder (kProject ++ id ++ kBranch ++ b ++ kGraySnap) t).map Prod.fst

omit [SerdeJson] in
theorem nodup_grayKeys : (grayKeys t id b).Nodup := by
  refine List.pairwise_map.mpr (Std.ExtTreeMap.distinct_keys_toList.imp fun h e => ?_)
  exact h (by rw [e]; exact Std.compare_self)

omit [SerdeJson] in
theorem mem_grayKeys (ht : WellPlaced t) (hn : Named id b) {k : String} :
    k ∈ grayKeys t id b ↔ ∃ n, k = graySnapKey id b n ∧ (branchAt t id b).gray n ≠ none := by
  constructor
  · intro h
    obtain ⟨⟨_, v⟩, hrow, rfl⟩ := List.mem_map.mp h
    obtain ⟨hk, hv⟩ := mem_rowsUnder.mp hrow
    obtain ⟨n, rfl⟩ := graySnapKey_of_startsWith ht hn hk (by rw [hv]; simp)
    exact ⟨n, rfl, fun h => by cases hv.symm.trans h⟩
  · rintro ⟨n, rfl, h⟩
    obtain ⟨v, hv⟩ := Option.ne_none_iff_exists'.mp h
    exact List.mem_map.mpr ⟨(_, v), mem_rowsUnder.mpr ⟨startsWith_graySnapKey id b n, hv⟩, rfl⟩

omit [SerdeJson] in
theorem grayKeys_eq (ht : WellPlaced t) (hn : Named id b) {n : Nat} (h : OnlyGray (branchAt t id b).gray n) :
    grayKeys t id b = if n > 0 then [graySnapKey id b n] else [] := by
  by_cases hpos : n > 0
  · rw [if_pos hpos]
    refine List.perm_singleton.mp ((List.perm_ext_iff_of_nodup nodup_grayKeys (List.nodup_singleton _)).mpr fun k => ?_)
    rw [mem_grayKeys ht hn, List.mem_singleton]
    constructor
    · rintro ⟨m, rfl, hm⟩
      rw [((h m).mp hm).1]
    · intro e
      exact ⟨n, e, (h n).mpr ⟨rfl, hpos⟩⟩
  · rw [if_neg hpos, List.eq_nil_iff_forall_not_mem]
    intro k hk
    obtain ⟨m, -, hm⟩ := (mem_grayKeys ht hn).mp hk
    exact hpos ((h m).mp hm).2

/-! ## Clients -/

theorem configState_readOnly (id : ProjectId) (b : BranchName) : (configState id b).ReadOnly := (configState_within id b).readOnly

theorem structureVersionOf_readOnly (id : ProjectId) : (structureVersionOf id).ReadOnly := (structureVersionOf_within id).readOnly

theorem resolveVersion_readOnly (id : ProjectId) (b : BranchName) (ctx : ClientCtx) : (resolveVersion id b ctx).ReadOnly :=
  (resolveVersion_within id b ctx).readOnly

theorem configState_eval (ht : WellPlaced t) {st : BranchState} (hst : stateOf t id b = some st) :
    (configState id b).eval t = .ok st := by
  have hn := named_of_stateOf ht hst
  have hro : (getBranchState id b).ReadOnly := loadMerged_readOnly _
  rw [configState, hro.eval_bind_ok (getBranchState_eval ht hn.plain.1 hn.plain.2), hst]
  rfl

theorem structureVersionOf_eval (ht : WellPlaced t) (hi : Plain id) :
    ∃ v, (structureVersionOf id).eval t = .ok v := by
  have hro : (getStructure id).ReadOnly := loadMerged_readOnly _
  have hload : (getStructure id).eval t = .ok (structOf t id) := by
    rw [getStructure, loadMerged, readAs_eval, parseRow_ok]
    exact reads_structKey ht hi
  exact ⟨_, by rw [structureVersionOf, hro.eval_bind_ok hload]; rfl⟩

/-- A client that is sent to a gray release is sent to that of the branch. -/
theorem resolveVersion_gray (ht : WellPlaced t) {st : BranchState} (hst : stateOf t id b = some st) {ctx : ClientCtx}
    {seq : Nat} (h : (resolveVersion id b ctx).eval t = .ok (.gray seq)) : seq = st.graySeq ∧ st.graySeq > 0 := by
  rw [resolveVersion, (configState_readOnly _ _).eval_bind_ok (configState_eval ht hst)] at h
  cases hr : st.grayRule with
  | none =>
    rw [hr] at h
    cases h
  | some rule =>
    rw [hr] at h
    dsimp only at h
    split at h
    · cases h
    · rename_i hz
      split at h
      · cases h
        exact ⟨rfl, Nat.pos_of_ne_zero fun e => hz (.inl e)⟩
      · cases h

/-- A branch has a gray number exactly if it has a rule, and exactly if it has a gray snapshot, which is then the
only one and under that number; clients that are sent to it read it. -/
theorem gray_consistent (h : Live t) {st : BranchState} (hst : stateOf t id b = some st) :
    (st.graySeq > 0 ↔ st.grayRule ≠ none) ∧ (st.graySeq > 0 ↔ ∃ k, grayKeys t id b = [k]) ∧
      (∀ k, grayKeys t id b = [k] → k = graySnapKey id b st.graySeq) ∧
      ∀ ctx seq, (resolveVersion id b ctx).eval t = .ok (.gray seq) →
        ∃ cfg, (getConfigResolved id b 0 ctx).eval t = .ok cfg ∧ cfg.gray = true ∧ cfg.resolvedVersion = seq ∧
          (graySnapshotOf id b seq).eval t = .ok cfg.groups := by
  have ht := h.placed.1
  have hn := named_of_stateOf ht hst
  have hk := h.grayKept id b hn
  have hsnap := hk.snap hst
  have hkeys := grayKeys_eq ht hn hsnap
  refine ⟨hk.rule hst, ?_, ?_, ?_⟩
  · by_cases hpos : st.graySeq > 0
    · exact iff_of_true hpos ⟨_, by rw [hkeys, if_pos hpos]⟩
    · rw [hkeys, if_neg hpos]
      exact iff_of_false hpos (by rintro ⟨k, hk⟩; cases hk)
  · intro k e
    rw [hkeys] at e
    split at e <;> cases e
    rfl
  · intro ctx seq hres
    obtain ⟨rfl, hpos⟩ := resolveVersion_gray ht hst hres
    obtain ⟨v, hv⟩ := Option.ne_none_iff_exists'.mp ((hsnap _).mpr ⟨rfl, hpos⟩)
    obtain ⟨snap, rfl⟩ := placed_at_graySnapKey hn.plain.1 hn.plain.2 (ht _ _ hv)
    have hread : (graySnapshotOf id b st.graySeq).eval t = .ok (rereadSnapshot snap) :=
      (graySnapshotOf_ok (s := ⟨t, []⟩) ht hn).mpr (hv ▸ decodes_encode snap)
    obtain ⟨sv, hsv⟩ := structureVersionOf_eval ht hn.plain.1
    refine ⟨⟨id, b, st.activeVersion, st.graySeq, sv, rereadSnapshot snap, true⟩, ?_, rfl, rfl, hread⟩
    rw [getConfigResolved, if_neg (not_not.mpr rfl), (resolveVersion_readOnly _ _ _).eval_bind_ok hres]
    dsimp only
    rw [(graySnapshotOf_readOnly _ _ _).eval_bind_ok hread, (structureVersionOf_readOnly _).eval_bind_ok hsv,
      (configState_readOnly _ _).eval_bind_ok (configState_eval ht hst)]
    rfl

end

section
attribute [local instance] sampleJson

def grayLog : List (Command × Int) := structureLog ++ [
  (.draftUpdate "p" "x" [⟨"g", "k", .string "v"⟩] [] [] "" 0 none, 5),
  (.grayPublish "p" "x" { percentage := some 100 } "" "r1" "" 0 .block, 6),
  (.draftUpdate "p" "x" [⟨"g", "k", .string "w"⟩] [] [] "" 0 none, 7),
  (.grayPublish "p" "x" { percentage := some 100 } "" "r2" "" 0 .block, 8)]

theorem gray_consistent_sample :
    ∃ cfg, (getConfigResolved "p" "x" 0 { instanceId := "i" }).eval (prune "p" "x" 0 (runLog grayLog)) = .ok cfg ∧
      cfg.gray = true ∧ cfg.resolvedVersion = 2 ∧
        (graySnapshotOf "p" "x" 2).eval (prune "p" "x" 0 (runLog grayLog)) = .ok cfg.groups := by
  have hfacts : (stateOf (prune "p" "x" 0 (runLog grayLog)) "p" "x").isSome ∧
      (resolveVersion "p" "x" { instanceId := "i" }).eval (prune "p" "x" 0 (runLog grayLog)) = .ok (.gray 2) := by
    decide +kernel
  obtain ⟨st, hst⟩ := Option.isSome_iff_exists.mp hfacts.1
  have hlive : Live (prune "p" "x" 0 (runLog grayLog)) := .prune _ _ _ (reachable_runLog grayLog).live
  exact (gray_consistent hlive hst).2.2.2 _ _ hfacts.2

end

end Defing
