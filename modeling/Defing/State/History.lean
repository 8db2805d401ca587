import Defing.State.Readable

/-!
# Versions keep the snapshots they were given

Runs together with the versions created along them. Without gray releases and
deletions the log of every branch stands for the snapshots its versions were
written with, in order and for good.
-/

namespace Defing

open KV (Prog Plain)
open DeltaLog (Records)

section
variable [SerdeJson] {id : ProjectId} {b : BranchName} {s s' : State} {t : Store}
variable {A : ProjectId → BranchName → BranchState → Nat → Prop} {G : Prop}

/-! ## Histories -/

def ofBranch (ws : List VersionWrite) (id : ProjectId) (b : BranchName) : List VersionWrite :=
  ws.filter fun w => w.project = id ∧ w.branch = b

/-- The version a branch is at; a branch that is not there is at none. -/
def activeNo (t : Store) (id : ProjectId) (b : BranchName) : Nat :=
  ((stateOf t id b).map (·.activeVersion)).getD 0

def SameItems (snap snap' : SnapshotMap) : Prop := dropEmpty snap = dropEmpty snap'

def VersionWrite.text (w : VersionWrite) : SnapshotMap := readBack w.no w.old w.new

/-- The store stands for the versions created: on every branch they are numbered without gaps up to
the active one, and their contents are what the snapshots they were written with are read as. -/
structure Faithful (t : Store) (ws : List VersionWrite) : Prop where
  named : ∀ w ∈ ws, Named w.project w.branch
  calm : ∀ id b st, Named id b → stateOf t id b = some st → st.graySeq = 0
  numbered : ∀ id b, Named id b → (ofBranch ws id b).map (·.no) = List.range' 1 (activeNo t id b)
  recorded : ∀ id b, Named id b → Records checkpointInterval applyDiff Eq (logOf t id b) ((ofBranch ws id b).map (·.text))

theorem activeNo_of_state {st : BranchState} (h : stateOf t id b = some st) : activeNo t id b = st.activeVersion := by
  rw [activeNo, h]; rfl

omit [SerdeJson] in
theorem ofBranch_append_ne {ws : List VersionWrite} {w : VersionWrite} (h : ¬ (id = w.project ∧ b = w.branch)) :
    ofBranch (ws ++ [w]) id b = ofBranch ws id b := by
  rw [ofBranch, List.filter_append, List.filter_cons_of_neg, List.filter_nil, List.append_nil, ofBranch]
  rintro hw
  obtain ⟨rfl, rfl⟩ := of_decide_eq_true hw
  exact h ⟨rfl, rfl⟩

omit [SerdeJson] in
theorem ofBranch_append_self (ws : List VersionWrite) (w : VersionWrite) :
    ofBranch (ws ++ [w]) w.project w.branch = ofBranch ws w.project w.branch ++ [w] := by
  rw [ofBranch, List.filter_append, List.filter_cons_of_pos (by simp), List.filter_nil, ofBranch]

/-- Nothing happened to the branches that matters for their history. -/
theorem Faithful.congr {t' : Store} {ws : List VersionWrite} (h : Faithful t ws)
    (hcalm : ∀ id b st, Named id b → stateOf t' id b = some st → st.graySeq = 0)
    (hno : ∀ id b, Named id b → activeNo t' id b = activeNo t id b)
    (hlog : ∀ id b, Named id b → logOf t' id b = logOf t id b) : Faithful t' ws where
  named := h.named
  calm := hcalm
  numbered id b hn := by rw [hno id b hn]; exact h.numbered id b hn
  recorded id b hn := by rw [hlog id b hn]; exact h.recorded id b hn

/-- The next version of a branch, written on top of the one it is at. -/
theorem Faithful.release {ws : List VersionWrite} (h : Faithful s.kv ws) {st st' : BranchState}
    {old new : SnapshotMap} (hn : Named id b) (he : Elsewhere id b s s') (hs : stateOf s.kv id b = some st)
    (hs' : stateOf s'.kv id b = some st') (hv : st'.activeVersion = st.activeVersion + 1)
    (ho : activeContents s.kv id b st = some old) (hg : st.graySeq = 0 → st'.graySeq = 0)
    (hl : logOf s'.kv id b =
      (logOf s.kv id b).write checkpointInterval st'.activeVersion (rereadSnapshot new) (rereadDiff (computeDiff old new))) :
    Faithful s'.kv (ws ++ [⟨id, b, st'.activeVersion, old, new⟩]) := by
  have hlen : (ofBranch ws id b).length = st.activeVersion := by
    have := congrArg List.length (h.numbered id b hn)
    rwa [List.length_map, List.length_range', activeNo_of_state hs] at this
  refine ⟨fun w hw => ?_, fun id' b' st₁ hn' hst₁ => ?_, fun id' b' hn' => ?_, fun id' b' hn' => ?_⟩
  · rcases List.mem_append.mp hw with hw | hw
    · exact h.named w hw
    · rw [List.mem_singleton.mp hw]
      exact hn
  · by_cases e : id' = id ∧ b' = b
    · obtain ⟨rfl, rfl⟩ := e
      obtain rfl := Option.some.inj (hs'.symm.trans hst₁)
      exact hg (h.calm _ _ st hn hs)
    · exact h.calm id' b' st₁ hn' (by rwa [← he.state hn' e])
  · by_cases e : id' = id ∧ b' = b
    · obtain ⟨rfl, rfl⟩ := e
      rw [ofBranch_append_self ws ⟨id', b', st'.activeVersion, old, new⟩, List.map_append, h.numbered _ _ hn,
        activeNo_of_state hs, activeNo_of_state hs', hv, List.range'_concat]
      simp [Nat.add_comm]
    · rw [ofBranch_append_ne e, activeNo, he.state hn' e]
      exact h.numbered id' b' hn'
  · by_cases e : id' = id ∧ b' = b
    · obtain ⟨rfl, rfl⟩ := e
      rw [ofBranch_append_self ws ⟨id', b', st'.activeVersion, old, new⟩, List.map_append, hl, hv, ← hlen,
        ← List.length_map (f := fun w : VersionWrite => w.text)]
      refine (h.recorded _ _ hn).write (fun hc => ?_) fun hc old' hold => ?_
      · exact (if_pos hc).symm
      · rw [List.length_map, hlen] at hold
        by_cases h0 : st.activeVersion = 0
        · rw [h0] at hold
          cases hold
        · rw [activeContents, if_neg h0] at ho
          rw [← Option.some.inj (ho.symm.trans hold)]
          exact (if_neg hc).symm
    · rw [ofBranch_append_ne e, (he.branches id' b' hn'.plain.1 hn'.plain.2 e).log]
      exact h.recorded id' b' hn'

theorem Effect.faithful (hA : ∀ id b st n, A id b st n → st.graySeq = 0 → n = st.activeVersion + 1) (hG : ¬ G)
    (h : Effect A G s s') {ws : List VersionWrite} (hf : Faithful s.kv (ws ++ s.notes)) :
    Faithful s'.kv (ws ++ s'.notes) := by
  cases h with
  | quiet h =>
    rw [h.notes]
    have hst := fun id b (hn : Named id b) => (h.branches id b hn.plain.1 hn.plain.2).state
    exact hf.congr (fun id b st hn hs => hf.calm id b st hn (by rwa [← hst id b hn]))
      (fun id b hn => by rw [activeNo, hst id b hn, activeNo])
      fun id b hn => (h.branches id b hn.plain.1 hn.plain.2).log
  | create id b st hn he _ hs hs' ha hg hl hm =>
    rw [hm]
    refine hf.congr (fun id' b' st' hn' hst' => ?_) (fun id' b' hn' => ?_) fun id' b' hn' => ?_
    · by_cases e : id' = id ∧ b' = b
      · obtain ⟨rfl, rfl⟩ := e
        rwa [← Option.some.inj (hs'.symm.trans hst')]
      · exact hf.calm id' b' st' hn' (by rwa [← he.state hn' e])
    · by_cases e : id' = id ∧ b' = b
      · obtain ⟨rfl, rfl⟩ := e
        rw [activeNo_of_state hs', activeNo, hs, ha]
        rfl
      · rw [activeNo, he.state hn' e, activeNo]
    · by_cases e : id' = id ∧ b' = b
      · obtain ⟨rfl, rfl⟩ := e
        exact hl
      · exact (he.branches id' b' hn'.plain.1 hn'.plain.2 e).log
  | edit id b st st' hn he hs hs' ha hg hl hm =>
    rw [hm]
    refine hf.congr (fun id' b' st₁ hn' hst₁ => ?_) (fun id' b' hn' => ?_) fun id' b' hn' => ?_
    · by_cases e : id' = id ∧ b' = b
      · obtain ⟨rfl, rfl⟩ := e
        rw [← Option.some.inj (hs'.symm.trans hst₁)]
        exact (hg (hf.calm _ _ st hn hs)).resolve_left hG
      · exact hf.calm id' b' st₁ hn' (by rwa [← he.state hn' e])
    · by_cases e : id' = id ∧ b' = b
      · obtain ⟨rfl, rfl⟩ := e
        rw [activeNo_of_state hs', activeNo_of_state hs, ha]
      · rw [activeNo, he.state hn' e, activeNo]
    · by_cases e : id' = id ∧ b' = b
      · obtain ⟨rfl, rfl⟩ := e
        exact hl
      · exact (he.branches id' b' hn'.plain.1 hn'.plain.2 e).log
  | release id b st st' old new hn he hs hs' hAn ho hg hl hm =>
    rw [hm, ← List.append_assoc]
    exact hf.release hn he hs hs' (hA _ _ _ _ hAn (hf.calm _ _ st hn hs)) ho hg hl

theorem Evolves.faithful (hA : ∀ id b st n, A id b st n → st.graySeq = 0 → n = st.activeVersion + 1) (hG : ¬ G)
    (h : Evolves A G s s') {ws : List VersionWrite} (hf : Faithful s.kv (ws ++ s.notes)) :
    Faithful s'.kv (ws ++ s'.notes) := by
  induction h with
  | refl => exact hf
  | tail _ he ih => exact he.faithful hA hG ih

theorem faithful_empty : Faithful ∅ [] where
  named := by simp
  calm id b st _ h := by simp [stateOf, entity] at h
  numbered id b _ := by simp [ofBranch, activeNo, stateOf, entity]
  recorded id b _ := DeltaLog.records_nil _ _

/-! ## Runs -/

variable {cmd : Command}

/-- Without a gray release under way every command gives the next number. -/
theorem allocates_next (hc : ¬ isGray cmd) {st : BranchState} {n : Nat} (h : allocates t cmd id b st n)
    (hg : st.graySeq = 0) : n = st.activeVersion + 1 := by
  cases cmd <;> try exact h.elim
  case publish | rollback | sharedPublish => exact h
  case grayPromote => exact absurd trivial hc
  case publishStructure =>
    obtain ⟨-, -, -, rfl⟩ := h
    rw [nextMonotonic, hg, Nat.max_zero]

/-- Runs from the empty store, with the versions that their commands created. -/
inductive Recorded (allowed : Command → Prop) : Store → List VersionWrite → Prop
  | empty : Recorded allowed ∅ []
  | step {t : Store} {ws : List VersionWrite} (cmd : Command) (nowMs : Int) :
      Recorded allowed t ws → allowed cmd →
      Recorded allowed (apply cmd nowMs t).store (ws ++ (apply cmd nowMs t).writes)

theorem Recorded.reach {allowed : Command → Prop} {ws : List VersionWrite} (h : Recorded allowed t ws) :
    Reach (fun _ cmd _ => allowed cmd) t := by
  induction h with
  | empty => exact .empty
  | step cmd now _ ha ih => exact .step cmd now ih ha

theorem faithful_of_recorded {ws : List VersionWrite}
    (h : Recorded (fun cmd => ¬ removesBranches cmd ∧ ¬ isGray cmd) t ws) : Faithful t ws := by
  induction h with
  | empty => exact faithful_empty
  | @step t ws cmd now hrun hc ih =>
    have hr := rooted_of_reach (fun _ _ _ h => h.1) hrun.reach
    have he := apply_evolves (wellPlaced_of_reach hrun.reach) hr hc.1 now
    exact he.faithful (fun _ _ _ _ h hg => allocates_next hc.2 h hg) hc.2 (by rwa [List.append_nil])

/-- Every version ever created in a run without gray releases and deletions is found in every later state, and it
is the snapshot it was written with exactly if the values printed for it are steady. -/
theorem version_faithful_iff {ws : List VersionWrite}
    (h : Recorded (fun cmd => ¬ removesBranches cmd ∧ ¬ isGray cmd) t ws) {w : VersionWrite} (hw : w ∈ ws) :
    ∃ snap, (snapshotOf w.project w.branch w.no).eval t = .ok snap ∧
      (dropEmpty snap = dropEmpty w.new ↔ PrintsSteady w.no w.old w.new) := by
  have hf := faithful_of_recorded h
  have hn := hf.named w hw
  have hmem : w ∈ ofBranch ws w.project w.branch := List.mem_filter.mpr ⟨hw, by simp⟩
  obtain ⟨i, hi⟩ := List.mem_iff_getElem?.mp hmem
  have hno : w.no = i + 1 := by
    have := congrArg (·[i]?) (hf.numbered _ _ hn)
    simp only [List.getElem?_map, hi, Option.map_some] at this
    obtain ⟨hlt, he⟩ := List.getElem?_eq_some_iff.mp this.symm
    rw [← he, List.getElem_range']
    omega
  obtain ⟨snap, hs, rfl⟩ := hf.recorded _ _ hn i w.text (by rw [List.getElem?_map, hi]; rfl)
  refine ⟨w.text, ?_, readBack_faithful_iff⟩
  rw [hno, snapshotOf_eval (wellPlaced_of_reach h.reach) hn.plain.1 hn.plain.2]
  exact hs

end

section
attribute [local instance] sampleJson

def doubleLog (f : Rat) : List (Command × Int) := [
  (.projectCreate "p" "" 0 none, 1),
  (.structureDraftSet "p" 1 [{ name := "g", items := [{ key := "k", ty := .float }] }] "", 2),
  (.publishStructure "p" "" "r0" "" 0 .block, 3),
  (.draftUpdate "p" "dev" [⟨"g", "k", .float f⟩] [] [] "" 0 none, 4),
  (.publish "p" "dev" "" "r1" "" 0 .block, 5)]

theorem doubleLog_recorded (f : Rat) :
    ∃ ws, Recorded (fun cmd => ¬ removesBranches cmd ∧ ¬ isGray cmd) (runLog (doubleLog f))
      (ws ++ (apply (.publish "p" "dev" "" "r1" "" 0 .block) 5 (runLog ((doubleLog f).take 4))).writes) :=
  ⟨_, .step (.publish "p" "dev" "" "r1" "" 0 .block) 5
    (.step (.draftUpdate "p" "dev" [⟨"g", "k", .float f⟩] [] [] "" 0 none) 4
      (.step (.publishStructure "p" "" "r0" "" 0 .block) 3
        (.step (.structureDraftSet "p" 1 [{ name := "g", items := [{ key := "k", ty := .float }] }] "") 2
          (.step (.projectCreate "p" "" 0 none) 1 .empty ⟨id, id⟩) ⟨id, id⟩) ⟨id, id⟩) ⟨id, id⟩) ⟨id, id⟩⟩

/-- A second version of a branch, stored as a diff: one half is read as it was printed. -/
theorem version_faithful_iff_sample :
    ∃ snap, (snapshotOf "p" "dev" 2).eval (runLog (doubleLog (1 / 2))) = .ok snap ∧
      dropEmpty snap = dropEmpty (setItem ∅ "g" "k" (.float (1 / 2))) := by
  obtain ⟨ws, hrun⟩ := doubleLog_recorded (1 / 2)
  obtain ⟨snap, hsnap, hiff⟩ := version_faithful_iff hrun (w := ⟨"p", "dev", 2, ∅, setItem ∅ "g" "k" (.float (1 / 2))⟩)
    (List.mem_append_right _ (by decide +kernel))
  refine ⟨snap, hsnap, hiff.mpr fun g k v hv _ => ?_⟩
  rw [item?_setItem] at hv
  split at hv
  · cases hv
    decide +kernel
  · simp [item?] at hv

/-- The double of the draft is read as its neighbour, which is written and read as the next one. -/
theorem version_drifts :
    ¬ ∀ t ws, Recorded (fun cmd => ¬ removesBranches cmd ∧ ¬ isGray cmd) t ws → ∀ w ∈ ws,
      ∃ snap, (snapshotOf w.project w.branch w.no).eval t = .ok snap ∧ dropEmpty snap = dropEmpty w.new := by
  intro h
  obtain ⟨ws, hrun⟩ := doubleLog_recorded (sampleDouble 0)
  obtain ⟨snap, hsnap, hitems⟩ := h _ _ hrun ⟨"p", "dev", 2, ∅, setItem ∅ "g" "k" (.float (sampleDouble 1))⟩
    (List.mem_append_right _ (by decide +kernel))
  have hread : ((snapshotOf "p" "dev" 2).eval (runLog (doubleLog (sampleDouble 0)))).toOption.any
      (fun snap => item? snap "g" "k" = some (.float (sampleDouble 2))) = true := by decide +kernel
  rw [hsnap] at hread
  have hk := dropEmpty_eq_iff.mp hitems "g" "k"
  rw [of_decide_eq_true hread, item?_setItem] at hk
  exact absurd hk (by decide +kernel)

end

end Defing
