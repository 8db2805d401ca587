import Mathlib.Logic.Relation
import Defing.State.Chain

/-!
# What a step may do to the versions of branches

`Effect` is the list of the things that happen to the states and logs of
branches: nothing, a new branch, an edit of a branch's state, or the release
of its next version. Commands evolve a store by such effects (`Evolves`), and
invariants of versions are proved once for each effect.
-/

namespace Defing

open KV (Prog Plain segments)
open DeltaLog (Log)

variable [SerdeJson] {id id' : ProjectId} {b b' : BranchName} {s s' : State}

/-! ## The rows of a branch -/

def Tracked (id : ProjectId) (b : BranchName) (k : String) : Prop :=
  k = branchStateKey id b ∨ (∃ n, k = snapshotKey id b n) ∨ ∃ n, k = diffKey id b n

structure Same (s s' : State) (id : ProjectId) (b : BranchName) : Prop where
  state : stateOf s'.kv id b = stateOf s.kv id b
  log : logOf s'.kv id b = logOf s.kv id b

def Keeps (s s' : State) : Prop :=
  ∀ id, Plain id → (entity Project s.kv (projectKey id)).isSome → (entity Project s'.kv (projectKey id)).isSome

structure Elsewhere (id : ProjectId) (b : BranchName) (s s' : State) : Prop where
  branches : ∀ id' b', Plain id' → Plain b' → ¬ (id' = id ∧ b' = b) → Same s s' id' b'
  projects : Keeps s s'

structure Quiet (s s' : State) : Prop where
  branches : ∀ id b, Plain id → Plain b → Same s s' id b
  projects : Keeps s s'
  notes : s'.notes = s.notes

theorem same_of_rows (h : ∀ k, Tracked id b k → s'.kv[k]? = s.kv[k]?) : Same s s' id b where
  state := entity_congr (h _ (.inl rfl))
  log := by
    simp only [logOf, Log.mk.injEq]
    exact ⟨funext fun n => entity_congr (h _ (.inr (.inl ⟨n, rfl⟩))),
      funext fun n => entity_congr (h _ (.inr (.inr ⟨n, rfl⟩)))⟩

theorem Same.contents (h : Same s s' id b) (n : Nat) : contents s'.kv id b n = contents s.kv id b n := by
  rw [Defing.contents, h.log, Defing.contents]

theorem Keeps.refl (s : State) : Keeps s s := fun _ _ h => h

theorem Quiet.refl (s : State) : Quiet s s := ⟨fun _ _ _ _ => ⟨rfl, rfl⟩, .refl s, rfl⟩

theorem Quiet.trans {s'' : State} (h : Quiet s s') (h' : Quiet s' s'') : Quiet s s'' where
  branches id b hi hb :=
    ⟨(h'.branches id b hi hb).state.trans (h.branches id b hi hb).state,
      (h'.branches id b hi hb).log.trans (h.branches id b hi hb).log⟩
  projects id hi hp := h'.projects id hi (h.projects id hi hp)
  notes := h'.notes.trans h.notes

omit [SerdeJson] in
theorem segments_of_tracked (hi : Plain id) (hb : Plain b) {k : String} (h : Tracked id b k) :
    ∃ tail, segments k = "p" :: id :: "b" :: b :: tail := by
  rcases h with rfl | ⟨n, rfl⟩ | ⟨n, rfl⟩
  · exact ⟨_, segments_branchStateKey hi hb⟩
  · exact ⟨_, segments_snapshotKey hi hb n⟩
  · exact ⟨_, segments_diffKey hi hb n⟩

omit [SerdeJson] in
theorem not_underBranch_of_tracked (hi : Plain id') (hb : Plain b') (hne : ¬ (id' = id ∧ b' = b)) {k : String}
    (h : Tracked id' b' k) : ¬ UnderBranch id b k := by
  obtain ⟨tail, ht⟩ := segments_of_tracked hi hb h
  rintro ⟨tail', ht'⟩
  rw [ht] at ht'
  simp only [List.cons.injEq, true_and] at ht'
  exact hne ⟨ht'.1, ht'.2.1⟩

omit [SerdeJson] in
theorem not_underBranch_projectKey (hi : Plain id') : ¬ UnderBranch id b (projectKey id') := by
  rintro ⟨tail, h⟩
  rw [segments_projectKey hi] at h
  simp at h

/-! ## Effects -/

/-- The snapshot a branch is at; empty before its first version. -/
def activeContents (t : Store) (id : ProjectId) (b : BranchName) (st : BranchState) : Option SnapshotMap :=
  if st.activeVersion = 0 then some ∅ else contents t id b st.activeVersion

/-- One thing that happens to branches. `A` says which numbers a branch in a state may be given next,
`G` whether a gray release may begin. -/
inductive Effect (A : ProjectId → BranchName → BranchState → Nat → Prop) (G : Prop) (s s' : State) : Prop
  | quiet (h : Quiet s s')
  | create (id : ProjectId) (b : BranchName) (st : BranchState) (hn : Named id b) (he : Elsewhere id b s s')
      (hp : (entity Project s.kv (projectKey id)).isSome) (hs : stateOf s.kv id b = none)
      (hs' : stateOf s'.kv id b = some st) (ha : st.activeVersion = 0) (hg : st.graySeq = 0)
      (hl : logOf s'.kv id b = logOf s.kv id b) (hm : s'.notes = s.notes)
  | edit (id : ProjectId) (b : BranchName) (st st' : BranchState) (hn : Named id b) (he : Elsewhere id b s s')
      (hs : stateOf s.kv id b = some st) (hs' : stateOf s'.kv id b = some st')
      (ha : st'.activeVersion = st.activeVersion) (hg : st.graySeq = 0 → G ∨ st'.graySeq = 0)
      (hl : logOf s'.kv id b = logOf s.kv id b) (hm : s'.notes = s.notes)
  | release (id : ProjectId) (b : BranchName) (st st' : BranchState) (old new : SnapshotMap) (hn : Named id b)
      (he : Elsewhere id b s s') (hs : stateOf s.kv id b = some st) (hs' : stateOf s'.kv id b = some st')
      (hA : A id b st st'.activeVersion) (ho : activeContents s.kv id b st = some old)
      (hg : st.graySeq = 0 → st'.graySeq = 0)
      (hl : logOf s'.kv id b =
        (logOf s.kv id b).write checkpointInterval st'.activeVersion (rereadSnapshot new) (rereadDiff (computeDiff old new)))
      (hm : s'.notes = s.notes ++ [⟨id, b, st'.activeVersion, old, new⟩])

abbrev Evolves (A : ProjectId → BranchName → BranchState → Nat → Prop) (G : Prop) : State → State → Prop :=
  Relation.ReflTransGen (Effect A G)

theorem Quiet.evolves {A : ProjectId → BranchName → BranchState → Nat → Prop} {G : Prop} (h : Quiet s s') :
    Evolves A G s s' := .single (.quiet h)

theorem Effect.keeps {A : ProjectId → BranchName → BranchState → Nat → Prop} {G : Prop} (h : Effect A G s s') :
    Keeps s s' := by
  cases h with
  | quiet h => exact h.projects
  | create _ _ _ _ he | edit _ _ _ _ _ he | release _ _ _ _ _ _ _ he => exact he.projects

/-! ## Frames -/

section
variable {α : Type} {p : M α} {T D : String → Prop} {Q : α → Prop} (hp : p.Obeys (rules T D) Q)
  (hs : WellPlaced s.kv)
include hp hs

omit [SerdeJson] in
theorem rows_of_obeys {k : String} (hk : ¬ T k) : (p.exec s).2.kv[k]? = s.kv[k]? :=
  Prog.frame_exec (C := rules T D) (fun _ _ h => h.1) hp hs (fun _ h => hk h.2) hk

omit [SerdeJson] in
theorem wellPlaced_of_obeys : WellPlaced (p.exec s).2.kv :=
  (Prog.rows_exec (C := rules T D) (fun _ _ h => h.1) hp hs).1

theorem quiet_of_obeys (hT : ∀ id b k, Plain id → Plain b → Tracked id b k → ¬ T k)
    (hP : ∀ id, Plain id → ¬ T (projectKey id)) : Quiet s (p.exec s).2 where
  branches id b hi hb := same_of_rows fun k hk => rows_of_obeys hp hs (hT id b k hi hb hk)
  projects id hi h := by rwa [entity_congr (rows_of_obeys hp hs (hP id hi))]
  notes := by
    obtain ⟨l, hl, hg⟩ := Prog.notes_exec (C := rules T D) (fun _ _ h => h.1) hp hs
    cases l with
    | nil => rw [hl, List.append_nil]
    | cons w l =>
      have hw := hg w (by simp)
      exact absurd hw.2 (hT _ _ _ hw.1.plain.1 hw.1.plain.2 (.inl rfl))

end

theorem elsewhere_of_obeys {α : Type} {p : M α} {Q : α → Prop} {r : Except Error α} (h : p.exec s = (r, s'))
    (hp : p.Obeys (rules (UnderBranch id b) fun _ => False) Q) (hs : WellPlaced s.kv) : Elsewhere id b s s' where
  branches id' b' hi hb hne :=
    same_of_rows fun k hk => by
      simpa only [h] using rows_of_obeys hp hs (not_underBranch_of_tracked hi hb hne hk)
  projects id' hi h' := by
    have := rows_of_obeys hp hs (not_underBranch_projectKey hi)
    rw [h] at this
    rwa [entity_congr this]

/-! ## Writes to a branch -/

section
variable (t : Store) {k : String} (v : Stored)

theorem stateOf_insert_ne (hk : k ≠ branchStateKey id b) : stateOf (t.insert k v) id b = stateOf t id b :=
  entity_congr (KV.getElem?_insert_ne t hk v)

theorem stateOf_insert (st : BranchState) :
    stateOf (t.insert (branchStateKey id b) (Codec.encode st)) id b = some (rereadState st) := entity_insert t _ st

def OffLog (id : ProjectId) (b : BranchName) (k : String) : Prop :=
  ∀ n, k ≠ snapshotKey id b n ∧ k ≠ diffKey id b n

theorem logOf_insert_ne (hk : OffLog id b k) : logOf (t.insert k v) id b = logOf t id b := by
  simp only [logOf, Log.mk.injEq]
  exact ⟨funext fun n => entity_congr (KV.getElem?_insert_ne t (hk n).1 v),
    funext fun n => entity_congr (KV.getElem?_insert_ne t (hk n).2 v)⟩

theorem logOf_erase_ne (hk : OffLog id b k) : logOf (t.erase k) id b = logOf t id b := by
  simp only [logOf, Log.mk.injEq]
  exact ⟨funext fun n => entity_congr (KV.getElem?_erase_ne t (hk n).1),
    funext fun n => entity_congr (KV.getElem?_erase_ne t (hk n).2)⟩

end

section
variable (hi : Plain id) (hb : Plain b)
include hi hb

omit [SerdeJson] in
theorem offLog_branchStateKey : OffLog id b (branchStateKey id b) := by
  intro n
  constructor
  all_goals
    intro h
    have := congrArg segments h
    simp [segments_branchStateKey hi hb, segments_snapshotKey hi hb, segments_diffKey hi hb] at this

omit [SerdeJson] in
theorem offLog_versionKey (m : Nat) : OffLog id b (versionKey id b m) := by
  intro n
  constructor
  all_goals
    intro h
    have := congrArg segments h
    simp [segments_versionKey hi hb, segments_snapshotKey hi hb, segments_diffKey hi hb] at this

omit [SerdeJson] in
theorem offLog_graySnapKey (m : Nat) : OffLog id b (graySnapKey id b m) := by
  intro n
  constructor
  all_goals
    intro h
    have := congrArg segments h
    simp [segments_graySnapKey hi hb, segments_snapshotKey hi hb, segments_diffKey hi hb] at this

omit [SerdeJson] in
theorem snapshotKey_inj {m n : Nat} : snapshotKey id b m = snapshotKey id b n ↔ m = n := by
  refine ⟨fun h => ?_, fun h => h ▸ rfl⟩
  have := congrArg segments h
  simpa [segments_snapshotKey hi hb] using this

omit [SerdeJson] in
theorem diffKey_inj {m n : Nat} : diffKey id b m = diffKey id b n ↔ m = n := by
  refine ⟨fun h => ?_, fun h => h ▸ rfl⟩
  have := congrArg segments h
  simpa [segments_diffKey hi hb] using this

omit [SerdeJson] in
theorem snapshotKey_ne_diffKey (m n : Nat) : snapshotKey id b m ≠ diffKey id b n := by
  intro h
  have := congrArg segments h
  simp [segments_snapshotKey hi hb, segments_diffKey hi hb] at this

theorem logOf_insert_snapshot (t : Store) (n : Nat) (new : SnapshotMap) :
    logOf (t.insert (snapshotKey id b n) (Codec.encode new)) id b =
      { logOf t id b with full := fun m => if m = n then some (rereadSnapshot new) else (logOf t id b).full m } := by
  simp only [logOf, Log.mk.injEq]
  refine ⟨funext fun m => ?_, funext fun m => entity_congr (KV.getElem?_insert_ne t ?_ _)⟩
  · by_cases h : m = n
    · rw [h, entity_insert, if_pos rfl]
      rfl
    · rw [if_neg h]
      exact entity_congr (KV.getElem?_insert_ne t (fun e => h ((snapshotKey_inj hi hb).mp e).symm) _)
  · exact snapshotKey_ne_diffKey hi hb n m

theorem logOf_insert_diff (t : Store) (n : Nat) (d : List DiffEntry) :
    logOf (t.insert (diffKey id b n) (Codec.encode d)) id b =
      { logOf t id b with delta := fun m => if m = n then some (rereadDiff d) else (logOf t id b).delta m } := by
  simp only [logOf, Log.mk.injEq]
  refine ⟨funext fun m => entity_congr (KV.getElem?_insert_ne t ?_ _), funext fun m => ?_⟩
  · exact (snapshotKey_ne_diffKey hi hb m n).symm
  · by_cases h : m = n
    · rw [h, entity_insert, if_pos rfl]
      rfl
    · rw [if_neg h]
      exact entity_congr (KV.getElem?_insert_ne t (fun e => h ((diffKey_inj hi hb).mp e).symm) _)

end

/-- What the writer of versions does: the history grows, the log gets a version, the state stays. -/
theorem writeVersionSnapshot_exec (hn : Named id b) (n : Nat) (old new : SnapshotMap) (r : VersionRecord) :
    ∃ s₁, (writeVersionSnapshot id b n old new r).exec s = (.ok (), s₁) ∧
      s₁.notes = s.notes ++ [⟨id, b, n, old, new⟩] ∧ stateOf s₁.kv id b = stateOf s.kv id b ∧
      logOf s₁.kv id b = (logOf s.kv id b).write checkpointInterval n (rereadSnapshot new) (rereadDiff (computeDiff old new)) := by
  have hv : ∀ (t : Store) (v : Stored), stateOf (t.insert (versionKey id b n) v) id b = stateOf t id b := by
    intro t v
    exact stateOf_insert_ne t v fun h => by
      have := congrArg segments h
      simp [segments_versionKey hn.plain.1 hn.plain.2, segments_branchStateKey hn.plain.1 hn.plain.2] at this
  have ho := offLog_branchStateKey hn.plain.1 hn.plain.2
  unfold writeVersionSnapshot
  by_cases hc : isCheckpoint n
  · refine ⟨⟨(s.kv.insert (snapshotKey id b n) (Codec.encode new)).insert (versionKey id b n)
      (Codec.encode { r with kind := .full }), s.notes ++ [⟨id, b, n, old, new⟩]⟩, ?_, rfl, ?_, ?_⟩
    · rw [if_pos hc]; rfl
    · exact (hv _ _).trans (stateOf_insert_ne _ _ (ho n).1.symm)
    · rw [logOf_insert_ne _ _ (offLog_versionKey hn.plain.1 hn.plain.2 n),
        logOf_insert_snapshot hn.plain.1 hn.plain.2]
      simp [Log.write, ← isCheckpoint_eq, hc]
  · refine ⟨⟨(s.kv.insert (diffKey id b n) (Codec.encode (computeDiff old new))).insert (versionKey id b n)
      (Codec.encode { r with kind := .diff }), s.notes ++ [⟨id, b, n, old, new⟩]⟩, ?_, rfl, ?_, ?_⟩
    · rw [if_neg hc]; rfl
    · exact (hv _ _).trans (stateOf_insert_ne _ _ (ho n).2.symm)
    · rw [logOf_insert_ne _ _ (offLog_versionKey hn.plain.1 hn.plain.2 n),
        logOf_insert_diff hn.plain.1 hn.plain.2]
      simp [Log.write, ← isCheckpoint_eq, hc]

end Defing
