import Defing.State.Always
import Defing.State.History
import Defing.State.Prune

/-!
# Versions are only added

A command that is no deletion adds versions past the active one and leaves
those that are there. Its events lead from version to version: `Leads` says
so of the events and the versions of one branch, in their order.
-/

namespace Defing

open KV (Prog Plain)

section
variable [SerdeJson] {id : ProjectId} {b : BranchName} {t : Store} {s s' : State} {br br' br'' : Branch} {cmd : Command} {now : Int}
  {events events' : List PublishEvent} {ws ws' : List VersionWrite} {n m k : Nat}

/-! ## Versions of a branch -/

/-- The number of the version a branch is at; zero before the first one. -/
def Branch.activeNo (br : Branch) : Nat := (br.state.map (·.activeVersion)).getD 0

def Branch.snapshot (br : Branch) (n : Nat) : Option SnapshotMap := if n = 0 then some ∅ else br.contents n

theorem Branch.activeNo_of_state {st : BranchState} (h : br.state = some st) : br.activeNo = st.activeVersion := by
  rw [Branch.activeNo, h]
  rfl

@[simp] theorem Branch.activeNo_become (br : Branch) (st : BranchState) (gray : Nat → Option Stored) :
    (br.become st gray).activeNo = st.activeVersion := by
  rw [activeNo_of_state (state_become br st gray), rereadState_activeVersion]

theorem Branch.active_eq {st : BranchState} : br.active st = br.snapshot st.activeVersion := rfl

def Bounded (br : Branch) : Prop :=
  ∀ n, br.activeNo < n → br (.record n) = none ∧ br (.full n) = none ∧ br (.diff n) = none

/-- The versions up to the active one stay, and those of `ws` are added. -/
structure Grows (br : Branch) (ws : List VersionWrite) (br' : Branch) : Prop where
  le : br.activeNo ≤ br'.activeNo
  rows : ∀ n ≤ br.activeNo, br' (.record n) = br (.record n) ∧ br' (.full n) = br (.full n) ∧ br' (.diff n) = br (.diff n)
  added : ∀ n, br.activeNo < n → (br' (.record n) ≠ none ↔ br (.record n) ≠ none ∨ ∃ w ∈ ws, w.no = n)

theorem Grows.refl (br : Branch) : Grows br [] br := ⟨Nat.le_refl _, fun _ _ => ⟨rfl, rfl, rfl⟩, fun _ _ => by simp⟩

theorem Grows.trans (h : Grows br ws br') (h' : Grows br' ws' br'') (hws : ∀ w ∈ ws', br'.activeNo < w.no) :
    Grows br (ws ++ ws') br'' := by
  refine ⟨Nat.le_trans h.le h'.le, fun n hn => ?_, fun n hn => ?_⟩
  · obtain ⟨hr, hf, hd⟩ := h.rows n hn
    obtain ⟨hr', hf', hd'⟩ := h'.rows n (Nat.le_trans hn h.le)
    exact ⟨hr'.trans hr, hf'.trans hf, hd'.trans hd⟩
  · have hmem : (∃ w ∈ ws ++ ws', w.no = n) ↔ (∃ w ∈ ws, w.no = n) ∨ ∃ w ∈ ws', w.no = n := by
      simp only [List.mem_append, or_and_right, exists_or]
    rw [hmem, ← or_assoc, ← h.added n hn]
    by_cases hle : n ≤ br'.activeNo
    · -- the versions added later have larger numbers
      rw [(h'.rows n hle).1]
      refine (or_iff_left ?_).symm
      intro h
      obtain ⟨w, hw, e⟩ := h
      exact Nat.not_lt_of_le hle (e ▸ hws w hw)
    · exact h'.added n (Nat.lt_of_not_le hle)

theorem Grows.snapshot (h : Grows br ws br') (hn : n ≤ br.activeNo) : br'.snapshot n = br.snapshot n := by
  unfold Branch.snapshot
  refine congrArg (ite _ _) (DeltaLog.read_congr fun m hm => ?_)
  obtain ⟨-, hf, hd⟩ := h.rows m (Nat.le_trans hm hn)
  exact ⟨congrArg (Option.bind · Codec.decode) hf, congrArg (Option.bind · Codec.decode) hd⟩

/-! ## Events and versions -/

/-- From version to version: each event carries the next number, and its changes make the snapshot of
that version out of the one before. -/
inductive Leads (read : Nat → Option SnapshotMap) : Nat → List PublishEvent → List VersionWrite → Nat → Prop
  | nil (n : Nat) : Leads read n [] [] n
  | cons {n m : Nat} {event : PublishEvent} {w : VersionWrite} {events : List PublishEvent} {ws : List VersionWrite}
      (hlt : n < w.no) (hno : event.version = w.no)
      (hchanges : ∀ old, read n = some old → dropEmpty (applyDiff old event.changes) = dropEmpty w.new)
      (h : Leads read w.no events ws m) : Leads read n (event :: events) (w :: ws) m

section
variable {read read' : Nat → Option SnapshotMap}

omit [SerdeJson] in
theorem Leads.le (h : Leads read n events ws m) : n ≤ m := by
  induction h with
  | nil => exact Nat.le_refl _
  | cons hlt _ _ _ ih => exact Nat.le_trans (Nat.le_of_lt hlt) ih

omit [SerdeJson] in
theorem Leads.congr (h : Leads read n events ws m) (hread : ∀ k < m, read' k = read k) : Leads read' n events ws m := by
  induction h with
  | nil => exact .nil _
  | cons hlt hno hchanges h ih =>
    refine .cons hlt hno (fun old hold => hchanges old ?_) (ih hread)
    rw [← hold, hread _ (Nat.lt_of_lt_of_le hlt h.le)]

omit [SerdeJson] in
theorem Leads.append (h : Leads read n events ws m) (h' : Leads read m events' ws' k) :
    Leads read n (events ++ events') (ws ++ ws') k := by
  induction h with
  | nil => exact h'
  | cons hlt hno hchanges _ ih => exact .cons hlt hno hchanges (ih h')

omit [SerdeJson] in
theorem Leads.lt (h : Leads read n events ws m) : ∀ w ∈ ws, n < w.no := by
  induction h with
  | nil => exact fun _ h => absurd h List.not_mem_nil
  | cons hlt _ _ _ ih => exact List.forall_mem_cons.mpr ⟨hlt, fun w hw => Nat.lt_trans hlt (ih w hw)⟩

omit [SerdeJson] in
theorem Leads.versions (h : Leads read n events ws m) : events.map (·.version) = ws.map (·.no) := by
  induction h with
  | nil => rfl
  | cons _ hno _ _ ih => rw [List.map_cons, List.map_cons, hno, ih]

omit [SerdeJson] in
theorem Leads.last (h : Leads read n events ws m) : m = ((ws.map (·.no)).getLast?).getD n := by
  induction h with
  | nil => rfl
  | cons _ _ _ _ ih => rw [ih, List.map_cons, List.getLast?_cons, Option.getD_some]

omit [SerdeJson] in
theorem Leads.changes (h : Leads read n events ws m) {i prev : Nat} {event : PublishEvent} {w : VersionWrite}
    {old : SnapshotMap} (hprev : (n :: ws.map (·.no))[i]? = some prev) (he : events[i]? = some event)
    (hw : ws[i]? = some w) (hold : read prev = some old) :
    dropEmpty (applyDiff old event.changes) = dropEmpty w.new := by
  induction h generalizing i with
  | nil => cases he
  | cons _ _ hchanges _ ih =>
    cases i with
    | zero =>
      cases hprev
      cases he
      cases hw
      exact hchanges old hold
    | succ i => exact ih hprev he hw

end

/-! ## Commands -/

def promotes : Command → Bool
  | .grayPromote .. => true
  | _ => false

/-- The events that tell of a version: those that are not gray, and that of a promotion. -/
def tells (cmd : Command) (event : PublishEvent) : Bool := !event.gray || promotes cmd

section

theorem Release.tells_event {st st' : BranchState} {old new : SnapshotMap} {gray : Nat → Option Stored} {event : PublishEvent}
    (h : Release t id b br st old cmd new st' gray event) :
    st.activeVersion < st'.activeVersion ∧ event.version = st'.activeVersion ∧ tells cmd event ∧
      (event.project = id ∧ event.branch = b) ∧ dropEmpty (applyDiff old event.changes) = dropEmpty new := by
  have hnext : st.activeVersion < nextMonotonic st.activeVersion st.graySeq :=
    Nat.lt_succ_of_le (Nat.le_max_left _ _)
  cases h with
  | publish => exact ⟨Nat.lt_succ_self _, rfl, rfl, ⟨rfl, rfl⟩, applyDiff_computeDiff _ _⟩
  | rollback => exact ⟨Nat.lt_succ_self _, rfl, rfl, ⟨rfl, rfl⟩, applyDiff_computeDiff _ _⟩
  | grayPromote => exact ⟨hnext, rfl, rfl, ⟨rfl, rfl⟩, applyDiff_computeDiff _ _⟩
  | restructure => exact ⟨hnext, rfl, rfl, ⟨rfl, rfl⟩, rfl⟩
  | cascade => exact ⟨Nat.lt_succ_self _, rfl, rfl, ⟨rfl, rfl⟩, applyDiff_computeDiff _ _⟩

theorem Edit.not_tells {st st' : BranchState} {gray : Nat → Option Stored} (h : Edit t id b br st cmd st' gray events) :
    st'.activeVersion = st.activeVersion ∧ ∀ event ∈ events, tells cmd event = false ∧ event.project = id ∧ event.branch = b := by
  cases h with
  | draft => exact ⟨rfl, fun _ h => absurd h List.not_mem_nil⟩
  | grayPublish => exact ⟨rfl, List.forall_mem_singleton.mpr ⟨rfl, rfl, rfl⟩⟩
  | grayAbort => exact ⟨rfl, List.forall_mem_singleton.mpr ⟨rfl, rfl, rfl⟩⟩

omit [SerdeJson] in
theorem Branch.record_write (br : Branch) (n : Nat) (old new : SnapshotMap) (r : VersionRecord) :
    br.write n old new r (.record n) ≠ none := by
  unfold Branch.write
  split <;> simp

theorem Move.ofBranch (h : Move t id b cmd br events ws br') :
    (∀ event ∈ events, event.project = id ∧ event.branch = b) ∧ ∀ w ∈ ws, w.project = id ∧ w.branch = b := by
  cases h with
  | create => exact ⟨fun _ h => absurd h List.not_mem_nil, fun _ h => absurd h List.not_mem_nil⟩
  | edit _ _ h => exact ⟨fun e he => (h.not_tells.2 e he).2, fun _ h => absurd h List.not_mem_nil⟩
  | release _ _ _ h =>
    exact ⟨List.forall_mem_singleton.mpr h.tells_event.2.2.2.1, List.forall_mem_singleton.mpr ⟨rfl, rfl⟩⟩

theorem Fresh.activeVersion {st : BranchState} (h : Fresh t id b cmd st) : st.activeVersion = 0 := by
  cases h with
  | bare => rfl
  | copy => rfl

theorem Move.grows (h : Move t id b cmd br events ws br') : Grows br ws br' ∧ (Bounded br → Bounded br') := by
  cases h with
  | create hs h =>
    have hno : br.activeNo = 0 := by rw [Branch.activeNo, hs]; rfl
    refine ⟨⟨?_, fun n _ => ⟨rfl, rfl, rfl⟩, fun n _ => ?_⟩, fun hb n hn => hb n ?_⟩
    · rw [hno]
      exact Nat.zero_le _
    · simp [Branch.become]
    · rw [Branch.activeNo_become, h.activeVersion] at hn
      rwa [hno]
  | @edit st st' gray _ hat hs h =>
    have hno : br.activeNo = st'.activeVersion := (Branch.activeNo_of_state hs).trans h.not_tells.1.symm
    refine ⟨⟨?_, fun n _ => ⟨rfl, rfl, rfl⟩, fun n _ => ?_⟩, fun hb n hn => hb n ?_⟩
    · rw [Branch.activeNo_become, hno]
    · simp [Branch.become]
    · rwa [Branch.activeNo_become, ← hno] at hn
  | @release st st' old new gray event record hs ho h =>
    have hlt := h.tells_event.1
    have hno := Branch.activeNo_of_state hs
    have hkept : ∀ n, n ≠ st'.activeVersion → ∀ x : Slot, x = .record n ∨ x = .full n ∨ x = .diff n →
        br.write st'.activeVersion old new record x = br x := by
      intro n hn x hx
      refine Branch.write_of_ne ?_
      rcases hx with rfl | rfl | rfl <;> simp [hn]
    refine ⟨⟨?_, fun n hn => ?_, fun n hn => ?_⟩, fun hb n hn => ?_⟩
    · rw [Branch.activeNo_become, hno]
      exact Nat.le_of_lt hlt
    · have hne : n ≠ st'.activeVersion := by omega
      exact ⟨hkept n hne _ (.inl rfl), hkept n hne _ (.inr (.inl rfl)), hkept n hne _ (.inr (.inr rfl))⟩
    · by_cases e : n = st'.activeVersion
      · subst e
        exact iff_of_true (Branch.record_write _ _ _ _ _) (.inr ⟨_, List.mem_singleton_self _, rfl⟩)
      · have hrow : (br.write st'.activeVersion old new record).become st' gray (.record n) = br (.record n) :=
          hkept n e _ (.inl rfl)
        rw [hrow]
        refine (or_iff_left ?_).symm
        intro hadded
        obtain ⟨w, hw, hwn⟩ := hadded
        rw [List.mem_singleton.mp hw] at hwn
        exact e hwn.symm
    · rw [Branch.activeNo_become] at hn
      obtain ⟨hr, hf, hd⟩ := hb n (by omega)
      have hne : n ≠ st'.activeVersion := by omega
      exact ⟨(hkept n hne _ (.inl rfl)).trans hr, (hkept n hne _ (.inr (.inl rfl))).trans hf,
        (hkept n hne _ (.inr (.inr rfl))).trans hd⟩

/-- The event of a move leads from the active version to the one that is added. -/
theorem Move.leads (h : Move t id b cmd br events ws br') :
    Leads br'.snapshot br.activeNo (events.filter (tells cmd)) ws br'.activeNo := by
  have hsnapshot := h.grows.1.snapshot (Nat.le_refl _)
  cases h with
  | create hs h =>
    have hno : br.activeNo = 0 := by rw [Branch.activeNo, hs]; rfl
    rw [Branch.activeNo_become, h.activeVersion, hno]
    exact .nil 0
  | edit hat hs h =>
    obtain ⟨hactive, hevents⟩ := h.not_tells
    have hnone : events.filter (tells cmd) = [] :=
      List.filter_eq_nil_iff.mpr fun e he => by rw [(hevents e he).1]; exact Bool.false_ne_true
    rw [hnone, Branch.activeNo_become, Branch.activeNo_of_state hs, hactive]
    exact .nil _
  | release record hs ho h =>
    obtain ⟨hlt, hversion, htells, -, hchanges⟩ := h.tells_event
    have hno := Branch.activeNo_of_state hs
    rw [hno] at hsnapshot
    rw [List.filter_cons_of_pos htells, List.filter_nil, Branch.activeNo_become, hno]
    refine .cons hlt hversion (fun old' hold => ?_) (.nil _)
    rw [hsnapshot, ← Branch.active_eq, ho] at hold
    exact Option.some.inj hold ▸ hchanges

def told (cmd : Command) (events : List PublishEvent) (id : ProjectId) (b : BranchName) : List PublishEvent :=
  events.filter fun e => (e.project = id ∧ e.branch = b) ∧ tells cmd e

theorem Course.leads (h : Course t cmd s events s') (hb : ∀ id b, Named id b → Bounded (branchAt s.kv id b)) :
    ∃ ws, s'.notes = s.notes ++ ws ∧ ∀ id b, Named id b → Bounded (branchAt s'.kv id b) ∧
      Grows (branchAt s.kv id b) (Defing.ofBranch ws id b) (branchAt s'.kv id b) ∧
      Leads (branchAt s'.kv id b).snapshot (branchAt s.kv id b).activeNo (told cmd events id b) (Defing.ofBranch ws id b)
        (branchAt s'.kv id b).activeNo := by
  induction h with
  | refl s => exact ⟨[], (List.append_nil _).symm, fun id b hn => ⟨hb id b hn, .refl _, .nil _⟩⟩
  | quiet hsame hm _ ih =>
    obtain ⟨ws, hws, hleads⟩ := ih fun id b hn => hsame id b hn ▸ hb id b hn
    refine ⟨ws, hm ▸ hws, fun id b hn => ?_⟩
    rw [← hsame id b hn]
    exact hleads id b hn
  | @move s s₁ s₂ events events' ws id₀ b₀ hn₀ hmove he hm _ ih =>
    obtain ⟨hgrows, hbound⟩ := hmove.grows
    have hb₁ : ∀ id b, Named id b → Bounded (branchAt s₁.kv id b) := by
      intro id b hn
      by_cases e : id = id₀ ∧ b = b₀
      · obtain ⟨rfl, rfl⟩ := e
        exact hbound (hb _ _ hn)
      · rw [branchAt_elsewhere he hn e]
        exact hb id b hn
    obtain ⟨ws', hws, hleads⟩ := ih hb₁
    refine ⟨ws ++ ws', by rw [hws, hm, List.append_assoc], fun id b hn => ?_⟩
    obtain ⟨hbound', hgrows', hleads'⟩ := hleads id b hn
    have htold : told cmd (events ++ events') id b = told cmd events id b ++ told cmd events' id b := List.filter_append ..
    have hof : Defing.ofBranch (ws ++ ws') id b = Defing.ofBranch ws id b ++ Defing.ofBranch ws' id b := List.filter_append ..
    rw [htold, hof]
    by_cases e : id = id₀ ∧ b = b₀
    · obtain ⟨rfl, rfl⟩ := e
      have hevents : told cmd events id b = events.filter (tells cmd) :=
        List.filter_congr fun e he => by simp [hmove.ofBranch.1 e he]
      have hwrites : Defing.ofBranch ws id b = ws :=
        List.filter_eq_self.mpr fun w hw => by simp [hmove.ofBranch.2 w hw]
      rw [hevents, hwrites]
      refine ⟨hbound', hgrows.trans hgrows' hleads'.lt, .append (hmove.leads.congr fun k hk => ?_) hleads'⟩
      exact hgrows'.snapshot (Nat.le_of_lt hk)
    · have hevents : told cmd events id b = [] := by
        refine List.filter_eq_nil_iff.mpr fun ev hev h => e ?_
        have := of_decide_eq_true h
        rw [(hmove.ofBranch.1 ev hev).1, (hmove.ofBranch.1 ev hev).2] at this
        exact ⟨this.1.1.symm, this.1.2.symm⟩
      have hwrites : Defing.ofBranch ws id b = [] := by
        refine List.filter_eq_nil_iff.mpr fun w hw h => e ?_
        have := of_decide_eq_true h
        rw [(hmove.ofBranch.2 w hw).1, (hmove.ofBranch.2 w hw).2] at this
        exact ⟨this.1.symm, this.2.symm⟩
      rw [hevents, hwrites, List.nil_append, List.nil_append, ← branchAt_elsewhere he hn e]
      exact ⟨hbound', hgrows', hleads'⟩

/-! ## Runs -/

theorem bounded_reach {allowed : Store → Command → Int → Prop} (h : Reach allowed t) (hn : Named id b) :
    Bounded (branchAt t id b) :=
  reach_invariant (I := fun _ _ br => Bounded br) (fun _ _ _ _ => ⟨rfl, rfl, rfl⟩)
    (fun _ _ _ _ hb hm => hm.grows.2 hb) h id b hn

/-- A reader finds the snapshot of the version; before the first one it is empty. -/
def ReadsAs (t : Store) (id : ProjectId) (b : BranchName) (n : Nat) (snap : SnapshotMap) : Prop :=
  n = 0 ∧ snap = ∅ ∨ (snapshotOf id b n).eval t = .ok snap

theorem readsAs_iff (ht : WellPlaced t) (hn : Named id b) {snap : SnapshotMap} :
    ReadsAs t id b n snap ↔ (branchAt t id b).snapshot n = some snap := by
  rw [ReadsAs, snapshotOf_eval ht hn.plain.1 hn.plain.2, Branch.snapshot, contents_branchAt]
  by_cases h : n = 0
  · have hzero : contents t id b 0 = none := rfl
    subst h
    rw [if_pos rfl, hzero]
    simp [eq_comm]
  · rw [if_neg h]
    simp [h]

/-- What a command does to the versions of a branch: it adds some past the active one, in the order of the
events that tell of them, and comes to the last one; the snapshots that were there are read as before, and
the changes of each event make the snapshot of its version out of the one before. -/
structure Appends (t : Store) (cmd : Command) (o : Outcome) (id : ProjectId) (b : BranchName) : Prop where
  created : ∀ n, (∃ w ∈ ofBranch o.writes id b, w.no = n) ↔
    t[versionKey id b n]? = none ∧ o.store[versionKey id b n]? ≠ none
  later : ∀ w ∈ ofBranch o.writes id b, activeNo t id b < w.no
  versions : (told cmd o.emitted id b).map (·.version) = (ofBranch o.writes id b).map (·.no)
  active : activeNo o.store id b = (((ofBranch o.writes id b).map (·.no)).getLast?).getD (activeNo t id b)
  kept : ∀ n ≤ activeNo t id b, ∀ snap, ReadsAs o.store id b n snap ↔ ReadsAs t id b n snap
  changes : ∀ (i prev : Nat) (event : PublishEvent) (w : VersionWrite) (old : SnapshotMap),
    (activeNo t id b :: (ofBranch o.writes id b).map (·.no))[i]? = some prev → (told cmd o.emitted id b)[i]? = some event →
      (ofBranch o.writes id b)[i]? = some w → ReadsAs o.store id b prev old →
        dropEmpty (applyDiff old event.changes) = dropEmpty w.new

/-- In every reachable store a command that is no deletion leaves the rows of all versions as they are, and
appends to each branch. -/
theorem history_appends {allowed : Store → Command → Int → Prop} (h : Reach allowed t) (hc : ¬ removesBranches cmd)
    (now : Int) :
    (∀ id b k, VersionRow id b k → t[k]? ≠ none → (apply cmd now t).store[k]? = t[k]?) ∧
      ∀ id b, Named id b → Appends t cmd (apply cmd now t) id b := by
  have ht := wellPlaced_of_reach h
  have ht' := wellPlaced_apply ht cmd now
  obtain ⟨ws, hws, hbranch⟩ := (apply_course ht (rooted_reach h) hc now).leads fun id b hn => bounded_reach h hn
  rw [List.nil_append] at hws
  change (apply cmd now t).writes = ws at hws
  subst hws
  refine ⟨fun id b k hk hsome => ?_, fun id b hn => ?_⟩
  · obtain ⟨hn, n, hk⟩ := hk
    obtain ⟨-, hgrows, -⟩ := hbranch id b hn
    have hbound := bounded_reach h hn n
    have hrows := hgrows.rows n
    by_cases hle : n ≤ (branchAt t id b).activeNo
    · rcases hk with rfl | rfl | rfl
      · exact (hrows hle).1
      · exact (hrows hle).2.1
      · exact (hrows hle).2.2
    · obtain ⟨hr, hf, hd⟩ := hbound (Nat.lt_of_not_le hle)
      rcases hk with rfl | rfl | rfl
      · exact absurd hr hsome
      · exact absurd hf hsome
      · exact absurd hd hsome
  · obtain ⟨-, hgrows, hleads⟩ := hbranch id b hn
    refine ⟨fun n => ?_, hleads.lt, hleads.versions, hleads.last, fun n hle snap => ?_, ?_⟩
    · by_cases hle : n ≤ (branchAt t id b).activeNo
      · refine iff_of_false ?_ ?_
        · intro ⟨w, hw, e⟩
          exact Nat.not_lt_of_le hle (e ▸ hleads.lt w hw)
        · intro ⟨hnone, hsome⟩
          exact hsome ((hgrows.rows n hle).1.trans hnone)
      · have hlt := Nat.lt_of_not_le hle
        have hnone : (branchAt t id b) (.record n) = none := (bounded_reach h hn n hlt).1
        have hadded := hgrows.added n hlt
        rw [hnone] at hadded
        exact ⟨fun hw => ⟨hnone, hadded.mpr (.inr hw)⟩, fun hsome => (hadded.mp hsome.2).resolve_left fun h => h rfl⟩
    · rw [readsAs_iff ht' hn, readsAs_iff ht hn, hgrows.snapshot hle]
    · intro i prev event w old hprev he hw hold
      exact hleads.changes hprev he hw ((readsAs_iff ht' hn).mp hold)

end

end

section
attribute [local instance] sampleJson

theorem history_appends_sample :
    Appends (runLog (promoteLog.take 6)) (.grayPromote "p" "x" "" "r2" "" 0)
      (apply (.grayPromote "p" "x" "" "r2" "" 0) 7 (runLog (promoteLog.take 6))) "p" "x" := by
  have hc : ¬ removesBranches (.grayPromote "p" "x" "" "r2" "" 0) := not_false
  have hn : Named "p" "x" := ⟨by decide +kernel, by decide +kernel⟩
  exact (history_appends (reachable_runLog (promoteLog.take 6)) hc 7).2 "p" "x" hn

/-- The event of a promotion is gray. -/
theorem promotion_is_gray :
    ¬ ∀ t, Reach (fun _ cmd _ => ¬ removesBranches cmd) t → ∀ cmd now, ¬ removesBranches cmd → ∀ id b, Named id b →
      ((apply cmd now t).emitted.filter fun e => (e.project = id ∧ e.branch = b) ∧ e.gray = false).map (·.version) =
        (ofBranch (apply cmd now t).writes id b).map (·.no) := by
  intro h
  have hreach : Reach (fun _ cmd _ => ¬ removesBranches cmd) (runLog (promoteLog.take 6)) :=
    .step _ 6 (.step _ 5 (.step _ 4 (.step _ 3 (.step _ 2 (.step _ 1 .empty id) id) id) id) id) id
  have hn : Named "p" "x" := ⟨by decide +kernel, by decide +kernel⟩
  have hevents := h _ hreach (.grayPromote "p" "x" "" "r2" "" 0) 7 not_false "p" "x" hn
  revert hevents
  decide +kernel

end

end Defing
