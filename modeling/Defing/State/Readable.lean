import Defing.State.Evolve

/-!
# Active versions are readable

The number of a new version has to follow the active one, or be a checkpoint:
the reader walks every number from the last checkpoint on. `FollowsOn` says
when a command keeps to that; publications, rollbacks and cascades always do.
-/

namespace Defing

open KV (Prog Plain)

section
variable [SerdeJson] {id : ProjectId} {b : BranchName} {s s' : State} {t : Store}
variable {A : ProjectId → BranchName → BranchState → Nat → Prop} {G : Prop}

/-! ## Invariants of effects -/

def Readable (t : Store) : Prop :=
  ∀ id b st, Named id b → stateOf t id b = some st → st.activeVersion ≠ 0 →
    (contents t id b st.activeVersion).isSome

/-- A branch other than the one that something happens to. -/
theorem Elsewhere.state {id' : ProjectId} {b' : BranchName} (h : Elsewhere id b s s') (hn : Named id' b')
    (hne : ¬ (id' = id ∧ b' = b)) : stateOf s'.kv id' b' = stateOf s.kv id' b' :=
  (h.branches id' b' hn.plain.1 hn.plain.2 hne).state

theorem Effect.rooted (h : Effect A G s s') (hr : Rooted s.kv) : Rooted s'.kv := by
  intro id b hn hst
  cases h with
  | quiet h =>
    rw [(h.branches id b hn.plain.1 hn.plain.2).state] at hst
    exact h.projects id hn.plain.1 (hr id b hn hst)
  | create id₀ b₀ st hn₀ he hp =>
    by_cases e : id = id₀ ∧ b = b₀
    · rw [e.1]
      exact he.projects id₀ hn₀.plain.1 hp
    · rw [he.state hn e] at hst
      exact he.projects id hn.plain.1 (hr id b hn hst)
  | edit id₀ b₀ _ _ hn₀ he hs | release id₀ b₀ _ _ _ _ hn₀ he hs =>
    refine he.projects id hn.plain.1 (hr id b hn ?_)
    by_cases e : id = id₀ ∧ b = b₀
    · rw [e.1, e.2, hs]; rfl
    · rwa [← he.state hn e]

theorem Evolves.rooted (h : Evolves A G s s') (hr : Rooted s.kv) : Rooted s'.kv := by
  induction h with
  | refl => exact hr
  | tail _ he ih => exact he.rooted ih

def InStep (st : BranchState) (n : Nat) : Prop := n = st.activeVersion + 1 ∨ 0 < n ∧ checkpointInterval ∣ n

theorem Effect.readable (hA : ∀ id b st n, A id b st n → InStep st n) (h : Effect A G s s')
    (hr : Readable s.kv) : Readable s'.kv := by
  intro id b st hn hst hv
  cases h with
  | quiet h =>
    rw [(h.branches id b hn.plain.1 hn.plain.2).contents]
    rw [(h.branches id b hn.plain.1 hn.plain.2).state] at hst
    exact hr id b st hn hst hv
  | create id₀ b₀ st₀ hn₀ he _ _ hs' ha =>
    by_cases e : id = id₀ ∧ b = b₀
    · obtain ⟨rfl, rfl⟩ := e
      obtain rfl := Option.some.inj (hs'.symm.trans hst)
      exact absurd ha hv
    · rw [(he.branches id b hn.plain.1 hn.plain.2 e).contents]
      exact hr id b st hn (by rwa [← he.state hn e]) hv
  | edit id₀ b₀ st₀ st' hn₀ he hs hs' ha _ hl =>
    by_cases e : id = id₀ ∧ b = b₀
    · obtain ⟨rfl, rfl⟩ := e
      obtain rfl := Option.some.inj (hs'.symm.trans hst)
      rw [contents, hl, ha]
      exact hr id b st₀ hn hs (ha ▸ hv)
    · rw [(he.branches id b hn.plain.1 hn.plain.2 e).contents]
      exact hr id b st hn (by rwa [← he.state hn e]) hv
  | release id₀ b₀ st₀ st' old new hn₀ he hs hs' hAn _ _ hl =>
    by_cases e : id = id₀ ∧ b = b₀
    · obtain ⟨rfl, rfl⟩ := e
      obtain rfl := Option.some.inj (hs'.symm.trans hst)
      rw [contents, hl]
      refine DeltaLog.isSome_read_write (Nat.pos_of_ne_zero hv) ?_
      rcases hA _ _ _ _ hAn with hn' | ⟨-, hc⟩
      · rw [hn', Nat.add_sub_cancel]
        by_cases h0 : st₀.activeVersion = 0
        · exact .inl (.inl (by rw [h0]))
        · exact .inr (hr id b st₀ hn hs h0)
      · exact .inl (.inr hc)
    · rw [(he.branches id b hn.plain.1 hn.plain.2 e).contents]
      exact hr id b st hn (by rwa [← he.state hn e]) hv

theorem Evolves.readable (hA : ∀ id b st n, A id b st n → InStep st n) (h : Evolves A G s s')
    (hr : Readable s.kv) : Readable s'.kv := by
  induction h with
  | refl => exact hr
  | tail _ he ih => exact he.readable hA ih

/-! ## Commands -/

section
variable {cmd : Command} {now : Int}

/-- A command that fails has touched no branch. -/
theorem quiet_of_error (ht : WellPlaced t) {e : Error} (h : (apply cmd now t).result = .error e) :
    Quiet ⟨t, []⟩ ⟨(apply cmd now t).store, (apply cmd now t).writes⟩ := by
  rcases apply_cases ht cmd now with ⟨events, s, -, he⟩ | ⟨-, -, -, hw, hk⟩
  · rw [he] at h; cases h
  have hdirect : ∀ k, ¬ OutsideProjects k → ¬ touchesDirectly cmd k := by
    intro k hk h
    cases cmd <;> try exact h.elim
    obtain ⟨key, rfl⟩ := h
    exact hk (outside_sharedDraftKey key)
  refine ⟨fun id b hi hb => same_of_rows fun k hk' => ?_, fun id hi h => ?_, by rw [hw]⟩
  · exact (hk k).resolve_right fun h => hdirect k (not_outside_of_tracked hi hb hk') h.1
  · rwa [entity_congr ((hk _).resolve_right fun h => hdirect _ (not_outside_projectKey hi) h.1)]

theorem apply_evolves (ht : WellPlaced t) (hr : Rooted t) (hc : ¬ removesBranches cmd) (now : Int) :
    Evolves (allocates t cmd) (isGray cmd) ⟨t, []⟩ ⟨(apply cmd now t).store, (apply cmd now t).writes⟩ := by
  rcases apply_cases ht cmd now with ⟨events, s, hs, he⟩ | ⟨e, -, he, -⟩
  · rw [he]
    exact execute_evolves ht hr hc hs
  · exact (quiet_of_error ht he).evolves

/-- The gray numbers of a branch leave no gap for `nextMonotonic` to jump over, unless the number past
it is a checkpoint. -/
def GaplessGray (st : BranchState) : Prop :=
  st.graySeq ≤ st.activeVersion ∨ checkpointInterval ∣ st.graySeq + 1

omit [SerdeJson] in
theorem GaplessGray.inStep {st : BranchState} (h : GaplessGray st) :
    InStep st (nextMonotonic st.activeVersion st.graySeq) := by
  rcases Nat.le_total st.graySeq st.activeVersion with hle | hle
  · exact .inl (by rw [nextMonotonic, Nat.max_eq_left hle])
  · rcases h with h | h
    · exact .inl (by rw [nextMonotonic, Nat.max_eq_left h])
    · exact .inr ⟨Nat.succ_pos _, by rwa [nextMonotonic, Nat.max_eq_right hle]⟩

/-- The versions a command makes follow on from the active ones: no gray release is promoted, and no
structure published, over a gap. -/
def FollowsOn (t : Store) : Command → Prop
  | .grayPromote id b _ r .. => ∀ st, stateOf t id b = some st → st.lastRequestId ≠ some r → st.grayRule ≠ none →
      GaplessGray st
  | .publishStructure id _ _ _ _ policy => Publishable t id policy → ∀ b st, stateOf t id b = some st → GaplessGray st
  | _ => True

theorem allocates_inStep (hf : FollowsOn t cmd) {st : BranchState} {n : Nat} (h : allocates t cmd id b st n) :
    InStep st n := by
  cases cmd <;> try exact h.elim
  case publish | rollback | sharedPublish => exact .inl h
  case grayPromote =>
    obtain ⟨rfl, rfl, hst, hr, -, hrule, rfl⟩ := h
    exact (hf st hst hr hrule).inStep
  case publishStructure =>
    obtain ⟨rfl, hp, hst, rfl⟩ := h
    exact (hf hp b st hst).inStep

/-! ## Runs -/

theorem rooted_empty : Rooted ∅ := by
  intro id b _ h
  simp [stateOf, entity] at h

theorem rooted_of_reach {allowed : Store → Command → Int → Prop}
    (hc : ∀ t cmd now, allowed t cmd now → ¬ removesBranches cmd) (h : Reach allowed t) : Rooted t := by
  induction h with
  | empty => exact rooted_empty
  | step cmd now hreach hadm ih =>
    exact (apply_evolves (wellPlaced_of_reach hreach) ih (hc _ _ _ hadm) now).rooted ih

theorem readable_of_reach (h : Reach (fun t cmd _ => ¬ removesBranches cmd ∧ FollowsOn t cmd) t) : Readable t := by
  induction h with
  | empty =>
    intro id b st _ h
    simp [stateOf, entity] at h
  | step cmd now hreach hadm ih =>
    have hr := rooted_of_reach (fun _ _ _ h => h.1) hreach
    exact (apply_evolves (wellPlaced_of_reach hreach) hr hadm.1 now).readable
      (fun _ _ _ _ h => allocates_inStep hadm.2 h) ih

/-- In a run whose promotions and publications of structures follow on, the version that a branch is at
can be read in every state. -/
theorem active_version_readable (h : Reach (fun t cmd _ => ¬ removesBranches cmd ∧ FollowsOn t cmd) t)
    {st : BranchState} (hst : stateOf t id b = some st) (hv : st.activeVersion > 0) :
    ∃ snap, (snapshotOf id b st.activeVersion).eval t = .ok snap := by
  have ht := wellPlaced_of_reach h
  have hn := named_of_stateOf ht hst
  obtain ⟨snap, hsnap⟩ := Option.isSome_iff_exists.mp
    (readable_of_reach h id b st hn hst (Nat.pos_iff_ne_zero.mp hv))
  exact ⟨snap, (snapshotOf_eval ht hn.plain.1 hn.plain.2 _ _).mpr hsnap⟩

end

end

section
attribute [local instance] sampleJson

def oneItem : List GroupDef := [{ name := "g", items := [{ key := "k", ty := .string }] }]

def structureLog : List (Command × Int) := [
  (.projectCreate "p" "" 0 none, 1),
  (.structureDraftSet "p" 1 oneItem "", 2),
  (.publishStructure "p" "" "r0" "" 0 .block, 3),
  (.branchCreate "p" "x" none "" 0, 4)]

theorem active_version_readable_sample :
    ∃ snap, (snapshotOf "p" "dev" 1).eval (runLog (structureLog.take 3)) = .ok snap := by
  have hgap : ((runLog (structureLog.take 2)).toList.all fun row =>
      (Codec.decode row.2 : Option BranchState).all fun st => st.graySeq ≤ st.activeVersion) = true := by decide +kernel
  have hfollows : FollowsOn (runLog (structureLog.take 2)) (.publishStructure "p" "" "r0" "" 0 .block) := by
    intro _ b st hst
    exact .inl (of_all_entities (P := fun st : BranchState => st.graySeq ≤ st.activeVersion) hgap hst)
  have hreach : Reach (fun t cmd _ => ¬ removesBranches cmd ∧ FollowsOn t cmd) (runLog (structureLog.take 3)) :=
    .step _ 3 (.step _ 2 (.step _ 1 .empty ⟨id, trivial⟩) ⟨id, trivial⟩) ⟨id, hfollows⟩
  have hst : stateOf (runLog (structureLog.take 3)) "p" "dev" = some { activeVersion := 1, structureVersion := 2 } := by
    decide +kernel
  exact active_version_readable hreach hst (by decide)

/-- The first gray release of a branch without versions, promoted: version 2 is a diff to no version 1. -/
def promoteLog : List (Command × Int) := structureLog ++ [
  (.draftUpdate "p" "x" [⟨"g", "k", .string "v"⟩] [] [] "" 0 none, 5),
  (.grayPublish "p" "x" { percentage := some 50 } "" "r1" "" 0 .block, 6),
  (.grayPromote "p" "x" "" "r2" "" 0, 7)]

theorem active_version_unreadable :
    ¬ ∀ t, Reach (fun _ cmd _ => ¬ removesBranches cmd) t → ∀ id b st, stateOf t id b = some st →
      st.activeVersion > 0 → ∃ snap, (snapshotOf id b st.activeVersion).eval t = .ok snap := by
  intro h
  have hreach : Reach (fun _ cmd _ => ¬ removesBranches cmd) (runLog promoteLog) :=
    .step _ 7 (.step _ 6 (.step _ 5 (.step _ 4 (.step _ 3 (.step _ 2 (.step _ 1 .empty id) id) id) id) id) id) id
  obtain ⟨snap, hs⟩ := h _ hreach "p" "x"
    { activeVersion := 2, structureVersion := 2, lastRequestId := some "r2", draftRev := 1 } (by decide +kernel) (by decide)
  have herr : ((snapshotOf "p" "x" 2).eval (runLog promoteLog)).toOption = none := by decide +kernel
  rw [hs] at herr
  cases herr

end

end Defing
