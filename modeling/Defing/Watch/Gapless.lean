import Defing.Watch.Delivery

/-!
# Delivery without gaps

A stream that goes on has sent every version that is neither on its way to it
nor still to be replayed, each once and in order, and the events of the gray
releases too: so long as nothing slips through between the history and the
subscription, no writer overtakes another one, the forwarder keeps up, and the
store does not jump ahead.
-/

namespace Defing

open Broadcast

variable {d : Deployment} {cap : Nat} {id : ProjectId} {b : BranchName} {n n' : HubNode} {input : HubInput}
  {s s' : WatchStream} {applied : List Nat} {active : Nat} {rest rest' others : List PublishEvent} {e e' : PublishEvent}

/-! ## The property -/

def HubNode.underway (d : Deployment) (n : HubNode) : List PublishEvent :=
  match d, n.forwarder with
  | .devSingle, _ => n.writers.flatten
  | .cluster, some r => if r.lagged then [] else r.queue ++ n.writers.flatten
  | .cluster, none => []

section
variable [SerdeJson]

def Stays (id : ProjectId) (b : BranchName) : Store → List (Command × Int) → Prop
  | _, [] => True
  | t, (cmd, now) :: log =>
    (stateOf t id b ≠ none → stateOf (apply cmd now t).store id b ≠ none) ∧ Stays id b (apply cmd now t).store log

end

/-- The stream of a watch; before it subscribes it has nothing to take. -/
def WatchPhase.stream : WatchPhase → Option (WatchStream × Broadcast.Receiver PublishEvent)
  | idle => none
  | read s => some (s, .new)
  | streaming s rx => some (s, rx)

/-- The hub sends an event in time: a stream that has not subscribed knows it or replays it, and one that has can still
take the others. -/
def WatchPhase.InTime (id : ProjectId) (b : BranchName) (e : PublishEvent) (others : List PublishEvent) : WatchPhase → Prop
  | idle => True
  | read s => s.Lasts .new → (NonGray id b e → e.version ≤ s.bar) ∧ (OfGray id b e → s.Shows e)
  | streaming s rx => s.Lasts rx → ∀ e' ∈ others, s.Before id b e e'

section
variable [SerdeJson]

/-- The branch is not deleted, events are sent in time, the channel of the forwarder has room, a store that is installed
brings nothing that a stream has to send, and the SSE endpoint can read the versions that it replays. -/
def HubNode.Bears (d : Deployment) (id : ProjectId) (b : BranchName) (n : HubNode) : HubInput → Prop
  | .apply cmd now => Stays id b n.store [(cmd, now)]
  | .send ws e _ ws' =>
    match d with
    | .devSingle => n.watch.InTime id b e (ws ++ ws').flatten
    | .cluster => ∀ r, n.forwarder = some r → r.queue.length < raftRetain
  | .forward e => n.watch.InTime id b e []
  | .install log => Stays id b n.store log ∧ ∀ s rx, n.watch.stream = some (s, rx) → s.Lasts rx →
      (∀ v ∈ versionsAlong id b n.store log, v ≤ s.after) ∧ graysAlong id b n.store log = []
  | .read .sse after => ∀ v, after < v → n.store[versionKey id b v]? ≠ none →
      ∃ snap, (snapshotOf id b v).eval n.store = .ok snap
  | .stop | .read .grpc _ | .subscribe | .next | .receive => True

/-! ## What commands bring -/

/-- Of two events of a branch, one that is not gray and comes later is of a later version. -/
def PrecedesAt (id : ProjectId) (b : BranchName) (e e' : PublishEvent) : Prop :=
  e.project = id ∧ e.branch = b → NonGray id b e' → e.version < e'.version

structure Brings (id : ProjectId) (b : BranchName) (t : Store) (events : List PublishEvent) (t' : Store) : Prop where
  le : (branchAt t id b).activeNo ≤ (branchAt t' id b).activeNo
  kept : ∀ v, Named id b → t[versionKey id b v]? ≠ none → t'[versionKey id b v]? ≠ none
  upTo : ∀ e ∈ events, e.project = id ∧ e.branch = b → e.version ≤ (branchAt t' id b).activeNo
  made : ∀ e ∈ events, NonGray id b e →
    (branchAt t id b).activeNo < e.version ∧ Named id b ∧ t'[versionKey id b e.version]? ≠ none
  ordered : events.Pairwise (PrecedesAt id b)

variable {t : Store} {cmd : Command} {now : Int} {log : List (Command × Int)}

theorem apply_brings (h : Reachable t) (hstays : Stays id b t [(cmd, now)]) :
    Brings id b t (apply cmd now t).emitted (apply cmd now t).store := by
  by_cases hn : Named id b
  · have ha := apply_announces h hn hstays.1
    have hmem : ∀ e ∈ (apply cmd now t).emitted, e.project = id ∧ e.branch = b → e ∈ eventsOf (apply cmd now t).emitted id b :=
      fun e he hof => List.mem_filter.mpr ⟨he, decide_eq_true hof⟩
    refine ⟨ha.le, fun v _ => ha.kept v, fun e he hof => ha.upTo e (hmem e he hof), fun e he hgray => ?_, ?_⟩
    · obtain ⟨hlt, hrow⟩ := ha.made e (hmem e he hgray.1) hgray.2
      exact ⟨hlt, hn, hrow⟩
    · refine (List.pairwise_filter.mp ha.ordered).imp ?_
      intro e e' h hof hgray
      exact h (decide_eq_true hof) (decide_eq_true hgray.1) hgray.2
  · -- a branch with no legal name has neither a state nor events
    have hnone : ∀ t, Reachable t → (branchAt t id b).activeNo = 0 := by
      intro t ht
      rw [Branch.activeNo, state_branchAt]
      cases hst : stateOf t id b with
      | none => rfl
      | some st => exact absurd (named_of_stateOf (wellPlaced_of_reach ht) hst) hn
    have hof : ∀ e ∈ (apply cmd now t).emitted, ¬ (e.project = id ∧ e.branch = b) := by
      intro e he hof
      obtain ⟨rfl, rfl⟩ := hof
      exact hn (emitted_named h cmd now e he)
    refine ⟨?_, fun v hn' => absurd hn' hn, fun e he h => absurd h (hof e he), fun e he h => absurd h.1 (hof e he), ?_⟩
    · rw [hnone t h]
      exact Nat.zero_le _
    · exact List.Pairwise.imp_of_mem (fun he _ _ h => absurd h (hof _ he)) (List.pairwise_of_forall (R := fun _ _ => True) fun _ _ => trivial)

theorem mem_versionsAlong_cons {v : Nat} : v ∈ versionsAlong id b t ((cmd, now) :: log) ↔
    v ∈ versionsOf (apply cmd now t).emitted id b ∨ v ∈ versionsAlong id b (apply cmd now t).store log := List.mem_append

theorem log_brings (h : Reachable t) (hstays : Stays id b t log) :
    (branchAt t id b).activeNo ≤ (branchAt (runFrom t log) id b).activeNo ∧
      (∀ v, Named id b → t[versionKey id b v]? ≠ none → (runFrom t log)[versionKey id b v]? ≠ none) ∧
      ∀ v ∈ versionsAlong id b t log, Named id b ∧ (runFrom t log)[versionKey id b v]? ≠ none := by
  induction log generalizing t with
  | nil => exact ⟨Nat.le_refl _, fun _ _ h => h, fun _ h => absurd h List.not_mem_nil⟩
  | cons entry log ih =>
    obtain ⟨cmd, now⟩ := entry
    have hb := apply_brings h ⟨hstays.1, trivial⟩
    obtain ⟨hle, hkept, hnew⟩ := ih (h.step cmd now trivial) hstays.2
    refine ⟨Nat.le_trans hb.le hle, fun v hn hv => hkept v hn (hb.kept v hn hv), fun v hv => ?_⟩
    rcases mem_versionsAlong_cons.mp hv with hv | hv
    · obtain ⟨e, he, hgray, rfl⟩ := mem_versionsOf.mp hv
      obtain ⟨-, hn, hrow⟩ := hb.made e he hgray
      exact ⟨hn, hkept _ hn hrow⟩
    · exact hnew v hv

/-! ## What a node keeps -/

def WatchPhase.Follows (id : ProjectId) (b : BranchName) (applied : List Nat) (grays : List PublishEvent) (active : Nat)
    (rest : List PublishEvent) (phase : WatchPhase) : Prop :=
  ∀ s rx, phase.stream = some (s, rx) →
    s.InOrder ∧ (s.Lasts rx → s.Follows id b applied active rx.queue rest ∧ s.Owes grays rx.queue rest)

structure HubNode.Kept (d : Deployment) (id : ProjectId) (b : BranchName) (n : HubNode) : Prop where
  reach : Reachable n.store
  stored : ∀ v ∈ n.applied, Named id b ∧ n.store[versionKey id b v]? ≠ none
  grays : ∀ e ∈ n.grays, OfGray id b e
  alive : d = .cluster → ∃ r, n.forwarder = some r ∧ r.lagged = false
  alone : d = .devSingle → n.forwarder = none
  upTo : ∀ e ∈ n.underway d, e.project = id ∧ e.branch = b → e.version ≤ (branchAt n.store id b).activeNo
  ordered : ∀ w ∈ n.writers, w.Pairwise (PrecedesAt id b)
  inLine : d = .cluster → (n.underway d).Pairwise (PrecedesAt id b)
  watch : n.watch.Follows id b n.applied n.grays (branchAt n.store id b).activeNo (n.underway d)

theorem HubNode.Kept.underway_eq (hk : n.Kept d id b) : ∃ front, n.underway d = front ++ n.writers.flatten ∧
    ∀ n' : HubNode, n'.forwarder = n.forwarder → n'.underway d = front ++ n'.writers.flatten := by
  cases d with
  | devSingle => exact ⟨[], rfl, fun _ _ => rfl⟩
  | cluster =>
    obtain ⟨r, hr, hlagged⟩ := hk.alive rfl
    have hq : ∀ n' : HubNode, n'.forwarder = n.forwarder → n'.underway .cluster = r.queue ++ n'.writers.flatten := by
      intro n' hn'
      simp only [HubNode.underway, hn', hr, hlagged, Bool.false_eq_true, if_false]
    exact ⟨r.queue, hq n rfl, hq⟩

theorem HubNode.Kept.waiting_eq (hk : n.Kept d id b) : n.waiting = n.underway d := by
  cases d with
  | devSingle => simp [HubNode.waiting, HubNode.underway, hk.alone rfl]
  | cluster =>
    obtain ⟨r, hr, hlagged⟩ := hk.alive rfl
    simp [HubNode.waiting, HubNode.underway, hr, hlagged]

omit [SerdeJson] in
theorem graysOf_gray {events : List PublishEvent} : ∀ e ∈ graysOf events id b, OfGray id b e := fun _ he => (mem_graysOf.mp he).2

theorem graysAlong_gray : ∀ e ∈ graysAlong id b t log, OfGray id b e := by
  induction log generalizing t with
  | nil => exact fun _ he => absurd he List.not_mem_nil
  | cons entry log ih =>
    intro e he
    rcases List.mem_append.mp he with he | he
    · exact graysOf_gray e he
    · exact ih e he

omit [SerdeJson] in
theorem Deployment.flatten_enqueue (ws : List (List PublishEvent)) (events : List PublishEvent) :
    (d.enqueue ws events).flatten = ws.flatten ++ events := by
  cases d <;> simp [enqueue]

theorem HubNode.kept_start : (HubNode.start d).Kept d id b where
  reach := .empty
  stored v hv := absurd hv List.not_mem_nil
  grays e he := absurd he List.not_mem_nil
  alive hd := ⟨.new, if_pos hd, rfl⟩
  alone hd := by rw [hd]; rfl
  upTo e he := by cases d <;> exact absurd he List.not_mem_nil
  ordered w hw := absurd hw List.not_mem_nil
  inLine hd := by
    rw [hd]
    exact .nil
  watch _ _ h := by cases h

theorem HubNode.Kept.apply (hk : n.Kept d id b) (hstays : Stays id b n.store [(cmd, now)]) :
    HubNode.Kept d id b { n with
      store := (apply cmd now n.store).store
      applied := n.applied ++ versionsOf (apply cmd now n.store).emitted id b
      grays := n.grays ++ graysOf (apply cmd now n.store).emitted id b
      writers := d.enqueue n.writers (apply cmd now n.store).emitted } := by
  have hb := apply_brings hk.reach hstays
  obtain ⟨front, hunder, hafter⟩ := hk.underway_eq
  have hunder' : ∀ store applied grays, HubNode.underway d ⟨store, applied, grays,
      d.enqueue n.writers (Defing.apply cmd now n.store).emitted, n.forwarder, n.watch⟩ =
        n.underway d ++ (Defing.apply cmd now n.store).emitted := by
    intro store applied grays
    rw [hunder, List.append_assoc, ← Deployment.flatten_enqueue (d := d)]
    exact hafter _ rfl
  have hbehind : ∀ e ∈ n.underway d, ∀ e' ∈ (Defing.apply cmd now n.store).emitted, PrecedesAt id b e e' :=
    fun e he e' he' hof hgray => Nat.lt_of_le_of_lt (hk.upTo e he hof) (hb.made e' he' hgray).1
  refine ⟨hk.reach.step cmd now trivial, fun v hv => ?_,
    fun e he => (List.mem_append.mp he).elim (hk.grays e) (graysOf_gray e), hk.alive, hk.alone,
    fun e he hof => ?_, fun w hw => ?_, fun hd => ?_, fun s rx hs => ?_⟩
  · rcases List.mem_append.mp hv with hv | hv
    · obtain ⟨hn, hrow⟩ := hk.stored v hv
      exact ⟨hn, hb.kept v hn hrow⟩
    · obtain ⟨e, he, hgray, rfl⟩ := mem_versionsOf.mp hv
      exact (hb.made e he hgray).2
  · rw [hunder'] at he
    rcases List.mem_append.mp he with he | he
    · exact Nat.le_trans (hk.upTo e he hof) hb.le
    · exact hb.upTo e he hof
  · cases d with
    | devSingle =>
      rcases List.mem_append.mp hw with hw | hw
      · exact hk.ordered w hw
      · rw [List.mem_singleton.mp hw]
        exact hb.ordered
    | cluster =>
      rw [List.mem_singleton.mp hw]
      have hwriters : n.writers.flatten.Sublist (n.underway .cluster) := hunder ▸ List.sublist_append_right _ _
      exact List.pairwise_append.mpr ⟨(hk.inLine rfl).sublist hwriters, hb.ordered,
        fun e he e' he' => hbehind e (hwriters.subset he) e' he'⟩
  · rw [hunder']
    exact List.pairwise_append.mpr ⟨hk.inLine hd, hb.ordered, hbehind⟩
  · obtain ⟨ho, hf⟩ := hk.watch s rx hs
    refine ⟨ho, fun hl => ?_⟩
    rw [hunder']
    exact ⟨(hf hl).1.announce hb.le fun e he hgray => (hb.made e he hgray).1, (hf hl).2.announce⟩

theorem HubNode.Kept.install (hk : n.Kept d id b) (hstays : Stays id b n.store log)
    (hjump : ∀ s rx, n.watch.stream = some (s, rx) → s.Lasts rx →
      (∀ v ∈ versionsAlong id b n.store log, v ≤ s.after) ∧ graysAlong id b n.store log = []) :
    HubNode.Kept d id b { n with
      store := runFrom n.store log
      applied := n.applied ++ versionsAlong id b n.store log
      grays := n.grays ++ graysAlong id b n.store log } := by
  obtain ⟨hle, hkept, hnew⟩ := log_brings hk.reach hstays
  refine ⟨reachable_runFrom hk.reach log, fun v hv => ?_,
    fun e he => (List.mem_append.mp he).elim (hk.grays e) (graysAlong_gray e), hk.alive, hk.alone,
    fun e he hof => Nat.le_trans (hk.upTo e he hof) hle, hk.ordered, hk.inLine, fun s rx hs => ?_⟩
  · rcases List.mem_append.mp hv with hv | hv
    · obtain ⟨hn, hrow⟩ := hk.stored v hv
      exact ⟨hn, hkept v hn hrow⟩
    · exact hnew v hv
  · obtain ⟨ho, hf⟩ := hk.watch s rx hs
    refine ⟨ho, fun hl => ⟨(hf hl).1.jump hle (hjump s rx hs hl).1, ?_⟩⟩
    rw [(hjump s rx hs hl).2, List.append_nil]
    exact (hf hl).2

omit [SerdeJson] in
/-- The hub sends an event, and the others stay on their way. -/
theorem WatchPhase.Follows.hear {phase : WatchPhase} {grays : List PublishEvent}
    (h : phase.Follows id b applied grays active rest) (hgrays : ∀ x ∈ grays, OfGray id b x) (hmem : ∀ x, x ∈ rest ↔ x = e ∨ x ∈ rest') (hupTo : e.project = id ∧ e.branch = b → e.version ≤ active)
    (hin : phase.InTime id b e others) (hrest : ∀ e' ∈ rest', e' ∈ others ∨ PrecedesAt id b e e') :
    (phase.hear cap e).Follows id b applied grays active rest' := by
  cases phase with
  | idle => exact fun _ _ h => by cases h
  | read s =>
    intro s' rx hs
    cases hs
    obtain ⟨ho, hf⟩ := h s .new rfl
    exact ⟨ho, fun hl => ⟨(hf hl).1.miss hmem (hin hl).1, (hf hl).2.miss hgrays hmem (hin hl).2⟩⟩
  | streaming s rx =>
    intro s' rx' hs
    cases hs
    obtain ⟨ho, hf⟩ := h s rx rfl
    refine ⟨ho, fun hl => ?_⟩
    have hl' : s.Lasts rx := ⟨hl.1, hl.2.1, (Broadcast.Receiver.lagged_send.mp hl.2.2).1⟩
    rw [Broadcast.Receiver.queue_of_not_lagged hl.2.2]
    refine ⟨(hf hl').1.hear hmem hupTo fun e' he' => ?_, (hf hl').2.hear hmem⟩
    rcases hrest e' he' with hin' | hprec
    · exact hin hl' e' hin'
    · exact fun hof hgray _ => .inr (hprec hof hgray)

theorem HubNode.Kept.sendHub (hk : n.Kept d id b) (hd : d = .devSingle) {ws ws' : List (List PublishEvent)}
    {w : List PublishEvent} (h : n.writers = ws ++ (e :: w) :: ws') (hin : n.watch.InTime id b e (ws ++ ws').flatten) :
    HubNode.Kept d id b { n with writers := ws ++ w :: ws', watch := n.watch.hear cap e } := by
  subst hd
  have hmem : ∀ x, x ∈ n.underway .devSingle ↔ x = e ∨ x ∈ (ws ++ w :: ws').flatten := by
    intro x
    change x ∈ n.writers.flatten ↔ _
    rw [h]
    simp only [List.flatten_append, List.flatten_cons, List.mem_append, List.mem_cons]
    tauto
  have hw := hk.ordered (e :: w) (by rw [h]; exact List.mem_append_right _ List.mem_cons_self)
  refine ⟨hk.reach, hk.stored, hk.grays, fun hd => (by cases hd), hk.alone, fun x hx => hk.upTo x ((hmem x).mpr (.inr hx)),
    fun w' hw' => ?_, fun hd => (by cases hd), hk.watch.hear hk.grays hmem (hk.upTo e ((hmem e).mpr (.inl rfl))) hin fun e' he' => ?_⟩
  · rcases List.mem_append.mp hw' with hw' | hw'
    · exact hk.ordered w' (by rw [h]; exact List.mem_append_left _ hw')
    · rcases List.mem_cons.mp hw' with rfl | hw'
      · exact (List.pairwise_cons.mp hw).2
      · exact hk.ordered w' (by rw [h]; exact List.mem_append_right _ (List.mem_cons_of_mem _ hw'))
  · change e' ∈ (ws ++ w :: ws').flatten at he'
    simp only [List.flatten_append, List.flatten_cons, List.mem_append] at he' ⊢
    rcases he' with he' | he' | he'
    · exact .inl (.inl he')
    · exact .inr ((List.pairwise_cons.mp hw).1 e' he')
    · exact .inl (.inr he')

theorem HubNode.Kept.sendRaft (hk : n.Kept d id b) (hd : d = .cluster) {w : List PublishEvent} (h : n.writers = [e :: w])
    (hroom : ∀ r, n.forwarder = some r → r.queue.length < raftRetain) :
    HubNode.Kept d id b { n with writers := [w], forwarder := n.forwarder.map fun r => r.send raftRetain e } := by
  subst hd
  obtain ⟨r, hr, hlagged⟩ := hk.alive rfl
  have hsend : (r.send raftRetain e).lagged = false := Broadcast.Receiver.lagged_send.mpr ⟨hlagged, hroom r hr⟩
  have hforward : n.forwarder.map (fun r => r.send raftRetain e) = some (r.send raftRetain e) := by rw [hr]; rfl
  have hsame : HubNode.underway .cluster
      { n with writers := [w], forwarder := n.forwarder.map fun r => r.send raftRetain e } = n.underway .cluster := by
    have hqueue := Broadcast.Receiver.queue_of_not_lagged hsend
    simp only [HubNode.underway, hr, Option.map_some, hsend, hlagged, h, hqueue, Bool.false_eq_true, if_false]
    simp
  refine ⟨hk.reach, hk.stored, hk.grays, fun _ => ⟨_, hforward, hsend⟩, fun hd => (by cases hd), ?_, ?_, fun hd => ?_, ?_⟩
  · rw [hsame]
    exact hk.upTo
  · intro w' hw'
    rw [List.mem_singleton.mp hw']
    exact (List.pairwise_cons.mp (hk.ordered (e :: w) (by rw [h]; exact List.mem_singleton_self _))).2
  · rw [hsame]
    exact hk.inLine hd
  · rw [hsame]
    exact hk.watch

theorem HubNode.Kept.forward (hk : n.Kept d id b) {r r' : Broadcast.Receiver PublishEvent} (hf : n.forwarder = some r)
    (h : r.recv = some (.value e, r')) (hin : n.watch.InTime id b e []) :
    HubNode.Kept d id b { n with forwarder := some r', watch := n.watch.hear cap e } := by
  obtain ⟨hlagged, hlagged', hqueue⟩ := Broadcast.Receiver.recv_value h
  cases d with
  | devSingle =>
    rw [hk.alone rfl] at hf
    cases hf
  | cluster =>
    have hunder : n.underway .cluster = e :: (r'.queue ++ n.writers.flatten) := by
      simp only [HubNode.underway, hf, hlagged, hqueue, Bool.false_eq_true, if_false, List.cons_append]
    have hunder' : HubNode.underway .cluster { n with forwarder := some r', watch := n.watch.hear cap e } =
        r'.queue ++ n.writers.flatten := by
      simp only [HubNode.underway, hlagged', Bool.false_eq_true, if_false]
    have hline := hk.inLine rfl
    rw [hunder, List.pairwise_cons] at hline
    have hmem : ∀ x, x ∈ n.underway .cluster ↔ x = e ∨ x ∈ r'.queue ++ n.writers.flatten := by
      intro x
      rw [hunder, List.mem_cons]
    refine ⟨hk.reach, hk.stored, hk.grays, fun _ => ⟨r', rfl, hlagged'⟩, fun hd => (by cases hd), ?_, hk.ordered, fun _ => ?_, ?_⟩
    · rw [hunder']
      exact fun x hx => hk.upTo x ((hmem x).mpr (.inr hx))
    · rw [hunder']
      exact hline.2
    · rw [hunder']
      exact hk.watch.hear hk.grays hmem (hk.upTo e ((hmem e).mpr (.inl rfl))) hin fun e' he' => .inr (hline.1 e' he')

/-- A stream that has read the history follows all that is on its way. -/
theorem HubNode.Kept.read (hk : n.Kept d id b) {hist : List VersionRecord} (hhist : (versionHistory id b).eval n.store = .ok hist)
    (ho : s.Opened hist) : HubNode.Kept d id b { n with grays := graysOf n.waiting id b, watch := .read s } := by
  have ht := wellPlaced_of_reach hk.reach
  refine ⟨hk.reach, hk.stored, graysOf_gray, hk.alive, hk.alone, hk.upTo, hk.ordered, hk.inLine, fun s' rx hs => ?_⟩
  cases hs
  refine ⟨ho.inOrder (versionHistory_strict ht hhist), fun hl => ⟨ho.follows hl.2.1 (fun r hr => ?_) fun v hv => ?_, ?_⟩⟩
  · obtain ⟨hn, hrow⟩ := (mem_versionHistory ht hhist).mp hr
    refine Nat.le_of_not_lt fun hlt => ?_
    have hnone : n.store[versionKey id b r.no]? = none := (bounded_reach hk.reach hn r.no hlt).1
    rw [hrow] at hnone
    cases hnone
  · exact (exists_mem_versionHistory ht hhist).mpr (hk.stored v hv)
  · intro e he
    have hwaiting := (mem_graysOf.mp he).1
    rw [hk.waiting_eq] at hwaiting
    exact .inr hwaiting

theorem HubNode.Kept.readSse (hk : n.Kept d id b) {after : Nat} (hafter : 0 < after)
    (hread : ∀ v, after < v → n.store[versionKey id b v]? ≠ none → ∃ snap, (snapshotOf id b v).eval n.store = .ok snap) :
    HubNode.Kept d id b { n with
      grays := graysOf n.waiting id b, watch := .read (sseStream n.store id b after) } := by
  have ht := wellPlaced_of_reach hk.reach
  refine hk.read versionHistory_exec (sseStream_opened hafter versionHistory_exec fun r hr hlt => hread r.no hlt ?_)
  rw [((mem_versionHistory ht versionHistory_exec).mp hr).2]
  exact Option.some_ne_none _

theorem HubNode.Kept.next (hk : n.Kept d id b) {rx : Broadcast.Receiver PublishEvent} (hw : n.watch = .streaming s rx)
    (h : s.next = some s') : HubNode.Kept d id b { n with watch := .streaming s' rx } := by
  obtain ⟨ho, hf⟩ := hk.watch s rx (by rw [hw]; rfl)
  refine ⟨hk.reach, hk.stored, hk.grays, hk.alive, hk.alone, hk.upTo, hk.ordered, hk.inLine, fun s'' rx' hs => ?_⟩
  cases hs
  refine ⟨ho.next h, fun hl => ?_⟩
  have hsame : s'.required = s.required ∧ (s'.ended = false → s.ended = false) := by
    rcases WatchStream.next_cases h with ⟨_, _, -, rfl⟩ | ⟨-, rfl⟩
    · exact ⟨rfl, fun h => h⟩
    · exact ⟨rfl, fun h => by cases h⟩
  have hl' : s.Lasts rx := ⟨hsame.2 hl.1, hsame.1 ▸ hl.2.1, hl.2.2⟩
  exact ⟨(hf hl').1.next ho hl'.2.1 h, (hf hl').2.next h⟩

theorem HubNode.Kept.receive (hk : n.Kept d id b) {rx rx' : Broadcast.Receiver PublishEvent} {x : Received PublishEvent}
    (hw : n.watch = .streaming s rx) (he : s.ended = false) (hn : s.next = none) (h : rx.recv = some (x, rx')) :
    HubNode.Kept d id b { n with watch := .streaming (s.receive id b x) rx' } := by
  obtain ⟨ho, hf⟩ := hk.watch s rx (by rw [hw]; rfl)
  obtain ⟨hr, hreq⟩ := WatchStream.next_eq_none.mp hn
  refine ⟨hk.reach, hk.stored, hk.grays, hk.alive, hk.alone, hk.upTo, hk.ordered, hk.inLine, fun s'' rx'' hs => ?_⟩
  cases hs
  cases x with
  | lagged => exact ⟨⟨ho.replays, ho.since, ho.told, ho.first⟩, fun hl => by cases hl.1⟩
  | value e =>
    obtain ⟨hlagged, -, hqueue⟩ := Broadcast.Receiver.recv_value h
    obtain ⟨hfollows, howes⟩ := hf ⟨he, hreq, hlagged⟩
    rw [hqueue] at hfollows howes
    exact ⟨ho.receive hfollows hr, fun _ => ⟨hfollows.receive hr, howes.receive hk.grays⟩⟩

theorem HubStep.kept (h : HubStep d cap id b input n n') (hk : n.Kept d id b) (hb : n.Bears d id b input) : n'.Kept d id b := by
  cases h with
  | apply cmd now => exact hk.apply hb
  | sendHub hd h =>
    subst hd
    exact hk.sendHub rfl h hb
  | sendRaft hd h =>
    subst hd
    exact hk.sendRaft rfl h hb
  | forward hf h => exact hk.forward hf h hb
  | stop hf h =>
    cases d with
    | devSingle =>
      rw [hk.alone rfl] at hf
      cases hf
    | cluster =>
      obtain ⟨r, hr, hlagged⟩ := hk.alive rfl
      rw [hr] at hf
      cases hf
      rw [Broadcast.Receiver.recv_lagged h] at hlagged
      cases hlagged
  | install hd log => exact hk.install hb.1 hb.2
  | readSse hafter hw => exact hk.readSse hafter hb
  | readGrpc hafter hw h => exact hk.read versionHistory_exec (grpcStream_opened hafter versionHistory_exec h).1
  | subscribe hw =>
    refine ⟨hk.reach, hk.stored, hk.grays, hk.alive, hk.alone, hk.upTo, hk.ordered, hk.inLine, fun s rx hs => ?_⟩
    cases hs
    exact hk.watch _ _ (by rw [hw]; rfl)
  | next hw he h => exact hk.next hw h
  | receive hw he hn h => exact hk.receive hw he hn h

end

section
attribute [local instance] sampleJson

section
variable (w : WatchPhase)

end

end

end Defing
