import Mathlib.Data.List.Basic
import Mathlib.Logic.Relation

/-!
# The watch loops of the clients

A client watches a branch over any number of connections. Before each one it
fetches the snapshot, and connects with the version it has got to. Of what it
receives it drops what it takes for repetitions.
-/

namespace Defing

structure SdkEvent where
  version : Nat
  snapshotRequired : Bool
  gray : Bool
  deriving DecidableEq

/-- A loop by what it keeps: what the fetched version, if the fetch succeeds, makes of it before a connection, unless the
loop waits for the next try; what an event makes of it, and whether the event is handed to the listener; with which
version it connects; and up to which one it takes events for repetitions. -/
structure WatchLoop (σ : Type) where
  start : σ
  connect : σ → Option Nat → Option σ
  receive : σ → SdkEvent → σ × Bool
  cursor : σ → Nat
  seen : σ → Option Nat

/-! ## The six loops -/

def advance (last version : Nat) : Nat := if version > last then version else last

def httpWatch : WatchLoop Nat where
  start := 0
  connect lastVersion snap :=
    match snap with
    | some v => some (advance lastVersion v)
    | none => some lastVersion
  receive lastVersion e :=
    if e.version ≤ lastVersion && !e.gray then (lastVersion, false) else (advance lastVersion e.version, true)
  cursor lastVersion := lastVersion
  seen lastVersion := some lastVersion

def goHttpWatch : WatchLoop Nat := httpWatch

def pythonHttpWatch : WatchLoop Nat := httpWatch

/-- `GrpcClient.Watch`, which begins with a version that the application gives and hands on everything. -/
def goGrpcWatch (afterVersion : Nat) : WatchLoop Nat where
  start := afterVersion
  connect afterVersion snap :=
    match snap with
    | some v => some (advance afterVersion v)
    | none => some afterVersion
  receive afterVersion e := (advance afterVersion e.version, true)
  cursor afterVersion := afterVersion
  seen _ := none

structure GrpcCursor where
  after : Nat
  lastEmitted : Nat

def pythonGrpcWatch : WatchLoop GrpcCursor where
  start := ⟨0, 0⟩
  connect s snap :=
    match snap with
    | some v => some ⟨advance s.after v, advance s.lastEmitted v⟩
    | none => some s
  receive s e :=
    let after := max s.after e.version
    if e.version ≤ s.lastEmitted && !e.gray then (⟨after, s.lastEmitted⟩, false)
    else (⟨after, advance s.lastEmitted e.version⟩, true)
  cursor s := s.after
  seen s := some s.lastEmitted

/-- `watchHttp`: a failed fetch is tried again later, and gray events leave the version as it is. -/
def tsHttpWatch : WatchLoop Nat where
  start := 0
  connect lastVersion snap :=
    match snap with
    | some v => some (if v ≠ 0 then advance lastVersion v else lastVersion)
    | none => none
  receive lastVersion e :=
    if !e.gray && e.version ≤ lastVersion then (lastVersion, false)
    else (if !e.gray then e.version else lastVersion, true)
  cursor lastVersion := lastVersion
  seen lastVersion := some lastVersion

def tsGrpcWatch : WatchLoop GrpcCursor where
  start := ⟨0, 0⟩
  connect s snap :=
    match snap with
    | some v => some (if v ≠ 0 then { s with after := max s.after v } else s)
    | none => none
  receive s e :=
    let after := max s.after e.version
    if !e.gray && e.version ≤ s.lastEmitted then (⟨after, s.lastEmitted⟩, false)
    else (⟨after, if !e.gray then e.version else s.lastEmitted⟩, true)
  cursor s := s.after
  seen s := some s.lastEmitted

inductive Sdk
  | goHttp | goGrpc | pythonHttp | pythonGrpc | tsHttp | tsGrpc

def Sdk.State : Sdk → Type
  | goHttp | goGrpc | pythonHttp | tsHttp => Nat
  | pythonGrpc | tsGrpc => GrpcCursor

/-- The loop of a client, for an application that has started from the snapshot of a version. -/
def Sdk.watch (version : Nat) : (sdk : Sdk) → WatchLoop sdk.State
  | goHttp => goHttpWatch
  | goGrpc => goGrpcWatch version
  | pythonHttp => pythonHttpWatch
  | pythonGrpc => pythonGrpcWatch
  | tsHttp => tsHttpWatch
  | tsGrpc => tsGrpcWatch

/-! ## What the loops have in common -/

section
variable {σ : Type}

def WatchLoop.Within (L : WatchLoop σ) (s : σ) (m : Nat) : Prop := L.cursor s ≤ m ∧ ∀ n, L.seen s = some n → n ≤ m

def WatchLoop.Repeats (L : WatchLoop σ) (s : σ) (e : SdkEvent) : Prop := ∃ n, L.seen s = some n ∧ e.gray = false ∧ e.version ≤ n

structure WatchLoop.Law (L : WatchLoop σ) : Prop where
  wait : ∀ s snap, L.connect s snap = none → snap = none
  cursor : ∀ s snap s', L.connect s snap = some s' → L.cursor s' = max (L.cursor s) (snap.getD 0)
  connect : ∀ s snap s' m, L.connect s snap = some s' → L.Within s m → snap.getD 0 ≤ m → L.Within s' m
  drops : ∀ s e, (L.receive s e).2 = false ↔ L.Repeats s e
  receive : ∀ s e m, L.Within s m → ((L.receive s e).2 = true → e.version ≤ m) → L.Within (L.receive s e).1 m

theorem advance_eq (last version : Nat) : advance last version = max last version := by
  unfold advance
  split <;> omega

theorem within_single {L : WatchLoop σ} {s : σ} {n m : Nat} (hc : L.cursor s = n) (hs : L.seen s = some n) :
    L.Within s m ↔ n ≤ m := by
  unfold WatchLoop.Within
  rw [hc, hs]
  simp

theorem within_pair {L : WatchLoop σ} {s : σ} {n k m : Nat} (hc : L.cursor s = n) (hs : L.seen s = some k) :
    L.Within s m ↔ n ≤ m ∧ k ≤ m := by
  unfold WatchLoop.Within
  rw [hc, hs]
  simp

theorem repeats_seen {L : WatchLoop σ} {s : σ} {e : SdkEvent} {n : Nat} (hs : L.seen s = some n) :
    L.Repeats s e ↔ e.gray = false ∧ e.version ≤ n := by
  unfold WatchLoop.Repeats
  rw [hs]
  simp

theorem drops_iff {a b : σ} {e : SdkEvent} {n : Nat} :
    (if e.version ≤ n && !e.gray then (a, false) else (b, true)).2 = false ↔ e.gray = false ∧ e.version ≤ n := by
  by_cases hv : e.version ≤ n <;> cases hg : e.gray <;> simp [hv]

theorem drops_iff' {a b : σ} {e : SdkEvent} {n : Nat} :
    (if !e.gray && e.version ≤ n then (a, false) else (b, true)).2 = false ↔ e.gray = false ∧ e.version ≤ n := by
  rw [Bool.and_comm]
  exact drops_iff

theorem httpWatch_law : httpWatch.Law where
  wait s snap h := by cases snap <;> cases h
  cursor s snap s' h := by
    cases snap with
    | none => obtain rfl := Option.some.inj h; simp [httpWatch]
    | some v => obtain rfl := Option.some.inj h; simp [httpWatch, advance_eq]
  connect s snap s' m h hs hv := by
    rw [within_single (n := s) rfl rfl] at hs
    rw [within_single (n := s') rfl rfl]
    cases snap with
    | none => obtain rfl := Option.some.inj h; exact hs
    | some v =>
      obtain rfl := Option.some.inj h
      rw [advance_eq]
      exact Nat.max_le.mpr ⟨hs, hv⟩
  drops s e := drops_iff.trans (repeats_seen (n := s) rfl).symm
  receive s e m hs he := by
    rw [within_single (n := s) rfl rfl] at hs
    rw [within_single (n := (httpWatch.receive s e).1) rfl rfl]
    unfold httpWatch at he ⊢
    simp only at he ⊢
    split at he
    · rw [if_pos ‹_›]
      exact hs
    · rw [if_neg ‹_›, advance_eq]
      exact Nat.max_le.mpr ⟨hs, he rfl⟩

theorem goGrpcWatch_law (afterVersion : Nat) : (goGrpcWatch afterVersion).Law where
  wait s snap h := by cases snap <;> cases h
  cursor s snap s' h := by
    cases snap with
    | none => obtain rfl := Option.some.inj h; simp [goGrpcWatch]
    | some v => obtain rfl := Option.some.inj h; simp [goGrpcWatch, advance_eq]
  connect s snap s' m h hs hv := by
    refine ⟨?_, fun _ hn => by cases hn⟩
    cases snap with
    | none => obtain rfl := Option.some.inj h; exact hs.1
    | some v =>
      obtain rfl := Option.some.inj h
      change advance s v ≤ m
      rw [advance_eq]
      exact Nat.max_le.mpr ⟨hs.1, hv⟩
  drops s e := by
    constructor
    · intro h
      cases h
    · intro ⟨_, h, _⟩
      cases h
  receive s e m hs he := by
    refine ⟨?_, fun _ hn => by cases hn⟩
    change advance s e.version ≤ m
    rw [advance_eq]
    exact Nat.max_le.mpr ⟨hs.1, he rfl⟩

theorem pythonGrpcWatch_law : pythonGrpcWatch.Law where
  wait s snap h := by cases snap <;> cases h
  cursor s snap s' h := by
    cases snap with
    | none => obtain rfl := Option.some.inj h; simp [pythonGrpcWatch]
    | some v => obtain rfl := Option.some.inj h; simp [pythonGrpcWatch, advance_eq]
  connect s snap s' m h hs hv := by
    rw [within_pair (n := s.after) (k := s.lastEmitted) rfl rfl] at hs
    rw [within_pair (n := s'.after) (k := s'.lastEmitted) rfl rfl]
    cases snap with
    | none => obtain rfl := Option.some.inj h; exact hs
    | some v =>
      obtain rfl := Option.some.inj h
      simp only [advance_eq]
      exact ⟨Nat.max_le.mpr ⟨hs.1, hv⟩, Nat.max_le.mpr ⟨hs.2, hv⟩⟩
  drops s e := drops_iff.trans (repeats_seen (n := s.lastEmitted) rfl).symm
  receive s e m hs he := by
    rw [within_pair (n := s.after) (k := s.lastEmitted) rfl rfl] at hs
    rw [within_pair (n := (pythonGrpcWatch.receive s e).1.after) (k := (pythonGrpcWatch.receive s e).1.lastEmitted) rfl rfl]
    unfold pythonGrpcWatch at he ⊢
    simp only at he ⊢
    split at he
    · rename_i hrep
      rw [if_pos hrep]
      rw [Bool.and_eq_true, decide_eq_true_eq] at hrep
      exact ⟨Nat.max_le.mpr ⟨hs.1, Nat.le_trans hrep.1 hs.2⟩, hs.2⟩
    · rw [if_neg ‹_›, advance_eq]
      exact ⟨Nat.max_le.mpr ⟨hs.1, he rfl⟩, Nat.max_le.mpr ⟨hs.2, he rfl⟩⟩

theorem tsHttpWatch_law : tsHttpWatch.Law where
  wait s snap h := by
    cases snap with
    | none => rfl
    | some v => cases h
  cursor s snap s' h := by
    cases snap with
    | none => cases h
    | some v =>
      obtain rfl := Option.some.inj h
      by_cases hv : v = 0
      · simp [tsHttpWatch, hv]
      · simp [tsHttpWatch, hv, advance_eq]
  connect s snap s' m h hs hv := by
    rw [within_single (n := s) rfl rfl] at hs
    rw [within_single (n := s') rfl rfl]
    cases snap with
    | none => cases h
    | some v =>
      obtain rfl := Option.some.inj h
      split
      · rw [advance_eq]
        exact Nat.max_le.mpr ⟨hs, hv⟩
      · exact hs
  drops s e := drops_iff'.trans (repeats_seen (n := s) rfl).symm
  receive s e m hs he := by
    rw [within_single (n := s) rfl rfl] at hs
    rw [within_single (n := (tsHttpWatch.receive s e).1) rfl rfl]
    unfold tsHttpWatch at he ⊢
    simp only at he ⊢
    split at he
    · rw [if_pos ‹_›]
      exact hs
    · rw [if_neg ‹_›]
      split
      · exact he rfl
      · exact hs

theorem tsGrpcWatch_law : tsGrpcWatch.Law where
  wait s snap h := by
    cases snap with
    | none => rfl
    | some v => cases h
  cursor s snap s' h := by
    cases snap with
    | none => cases h
    | some v =>
      obtain rfl := Option.some.inj h
      by_cases hv : v = 0
      · simp [tsGrpcWatch, hv]
      · simp [tsGrpcWatch, hv]
  connect s snap s' m h hs hv := by
    rw [within_pair (n := s.after) (k := s.lastEmitted) rfl rfl] at hs
    rw [within_pair (n := s'.after) (k := s'.lastEmitted) rfl rfl]
    cases snap with
    | none => cases h
    | some v =>
      obtain rfl := Option.some.inj h
      split
      · exact ⟨Nat.max_le.mpr ⟨hs.1, hv⟩, hs.2⟩
      · exact hs
  drops s e := drops_iff'.trans (repeats_seen (n := s.lastEmitted) rfl).symm
  receive s e m hs he := by
    rw [within_pair (n := s.after) (k := s.lastEmitted) rfl rfl] at hs
    rw [within_pair (n := (tsGrpcWatch.receive s e).1.after) (k := (tsGrpcWatch.receive s e).1.lastEmitted) rfl rfl]
    unfold tsGrpcWatch at he ⊢
    simp only at he ⊢
    split at he
    · rename_i hrep
      rw [if_pos hrep]
      rw [Bool.and_eq_true, decide_eq_true_eq] at hrep
      exact ⟨Nat.max_le.mpr ⟨hs.1, Nat.le_trans hrep.2 hs.2⟩, hs.2⟩
    · rw [if_neg ‹_›]
      refine ⟨Nat.max_le.mpr ⟨hs.1, he rfl⟩, ?_⟩
      split
      · exact he rfl
      · exact hs.2

theorem Sdk.law (version : Nat) (sdk : Sdk) : (sdk.watch version).Law := by
  cases sdk with
  | goHttp => exact httpWatch_law
  | goGrpc => exact goGrpcWatch_law version
  | pythonHttp => exact httpWatch_law
  | pythonGrpc => exact pythonGrpcWatch_law
  | tsHttp => exact tsHttpWatch_law
  | tsGrpc => exact tsGrpcWatch_law

/-! ## Runs -/

/-- A client with what it has received, and what of it the listener has been handed. -/
structure SdkClient (σ : Type) where
  state : σ
  connected : Bool
  received : List SdkEvent
  handed : List SdkEvent

def SdkClient.start (L : WatchLoop σ) : SdkClient σ := ⟨L.start, false, [], []⟩

/-- What a client meets; a fetch that fails brings no version. -/
inductive WatchInput
  | connect (snap : Option Nat)
  | event (e : SdkEvent)
  | disconnect

inductive WatchStep (L : WatchLoop σ) : WatchInput → SdkClient σ → SdkClient σ → Prop
  | connect {s : SdkClient σ} {snap : Option Nat} {state : σ} (hc : s.connected = false) (h : L.connect s.state snap = some state) :
      WatchStep L (.connect snap) s { s with state, connected := true }
  | wait {s : SdkClient σ} {snap : Option Nat} (hc : s.connected = false) (h : L.connect s.state snap = none) :
      WatchStep L (.connect snap) s s
  | event {s : SdkClient σ} {e : SdkEvent} (hc : s.connected = true) :
      WatchStep L (.event e) s { s with
        state := (L.receive s.state e).1
        received := s.received ++ [e]
        handed := if (L.receive s.state e).2 then s.handed ++ [e] else s.handed }
  | disconnect {s : SdkClient σ} : WatchStep L .disconnect s { s with connected := false }

def SdkClient.told (version : Nat) (s : SdkClient σ) : Nat := (s.handed.map (·.version)).foldr max version

/-- The cursor is no further than the application has been told, and it has been told whenever it has to fetch all anew. -/
def SdkClient.Informed (L : WatchLoop σ) (version : Nat) (s : SdkClient σ) : Prop :=
  L.cursor s.state ≤ s.told version ∧ s.handed.filter (·.snapshotRequired) = s.received.filter (·.snapshotRequired)

/-- The fetched snapshot is no newer than what the application has been told of; an event that requires a snapshot is not
taken for a repetition. -/
def SdkClient.Bears (L : WatchLoop σ) (version : Nat) (s : SdkClient σ) : WatchInput → Prop
  | .connect snap => snap.getD 0 ≤ s.told version
  | .event e => e.snapshotRequired = true → ¬ L.Repeats s.state e
  | .disconnect => True

structure SdkClient.Kept (L : WatchLoop σ) (version : Nat) (s : SdkClient σ) : Prop where
  within : L.Within s.state (s.told version)
  required : s.handed.filter (·.snapshotRequired) = s.received.filter (·.snapshotRequired)

variable {L : WatchLoop σ} {version : Nat} {s s' : SdkClient σ} {input : WatchInput}

theorem SdkClient.Kept.informed (h : s.Kept L version) : s.Informed L version := ⟨h.within.1, h.required⟩

theorem foldr_max_append (l : List Nat) (v m : Nat) : (l ++ [v]).foldr max m = max v (l.foldr max m) := by
  induction l with
  | nil => rfl
  | cons a l ih => rw [List.cons_append, List.foldr_cons, ih, List.foldr_cons, Nat.max_left_comm]

theorem WatchLoop.Within.mono {st : σ} {m m' : Nat} (h : L.Within st m) (hle : m ≤ m') : L.Within st m' :=
  ⟨Nat.le_trans h.1 hle, fun n hn => Nat.le_trans (h.2 n hn) hle⟩

theorem told_event (version : Nat) (h : WatchStep L (.event e) s s') :
    s'.told version = if (L.receive s.state e).2 then max e.version (s.told version) else s.told version := by
  cases h with
  | event =>
    unfold SdkClient.told
    simp only
    split
    · rw [List.map_append, List.map_singleton, foldr_max_append]
    · rfl

theorem WatchStep.within (hL : L.Law) (h : WatchStep L input s s') (hs : s.Kept L version) (hbears : s.Bears L version input) :
    L.Within s'.state (s'.told version) := by
  cases h with
  | connect hc h => exact hL.connect _ _ _ _ h hs.within hbears
  | wait => exact hs.within
  | @event _ e hc =>
    have htold := told_event version (.event (L := L) (e := e) hc)
    rw [htold]
    refine hL.receive _ _ _ ?_ ?_
    · refine hs.within.mono ?_
      split <;> omega
    · intro h
      rw [if_pos h]
      exact Nat.le_max_left ..
  | disconnect => exact hs.within

theorem required_event (hL : L.Law) {e : SdkEvent} (h : WatchStep L (.event e) s s') (hs : s.Kept L version) :
    s'.handed.filter (·.snapshotRequired) = s'.received.filter (·.snapshotRequired) ↔ s.Bears L version (.event e) := by
  cases h with
  | event =>
    change List.filter _ (if _ then _ else _) = List.filter _ (s.received ++ [e]) ↔ (e.snapshotRequired = true → ¬ L.Repeats s.state e)
    rw [← hL.drops, List.filter_append, ← hs.required]
    cases hhanded : (L.receive s.state e).2 with
    | true => simp
    | false =>
      cases hrequired : e.snapshotRequired with
      | true => simp [hrequired]
      | false => simp [hrequired]

theorem WatchStep.informed_iff (hL : L.Law) (h : WatchStep L input s s') (hs : s.Kept L version) :
    s'.Informed L version ↔ s.Bears L version input := by
  constructor
  · intro hinformed
    cases h with
    | connect hc h =>
      have hcursor := hinformed.1
      change L.cursor _ ≤ s.told version at hcursor
      rw [hL.cursor _ _ _ h] at hcursor
      exact (Nat.max_le.mp hcursor).2
    | wait hc h =>
      obtain rfl := hL.wait _ _ h
      exact Nat.zero_le _
    | event hc => exact (required_event hL (.event hc) hs).mp hinformed.2
    | disconnect => trivial
  · intro hbears
    refine ⟨(h.within hL hs hbears).1, ?_⟩
    cases h with
    | connect | wait | disconnect => exact hs.required
    | event hc => exact (required_event hL (.event hc) hs).mpr hbears

theorem WatchStep.kept (hL : L.Law) (h : WatchStep L input s s') (hs : s.Kept L version) (hbears : s.Bears L version input) :
    s'.Kept L version := ⟨h.within hL hs hbears, ((h.informed_iff hL hs).mpr hbears).2⟩

theorem SdkClient.kept_of_run (hL : L.Law) (hstart : L.Within L.start version)
    (h : Relation.ReflTransGen (fun s s' => ∃ input, s.Bears L version input ∧ WatchStep L input s s') (.start L) s) :
    s.Kept L version := by
  induction h with
  | refl => exact ⟨hstart, rfl⟩
  | tail _ hstep ih =>
    obtain ⟨_, hbears, hstep⟩ := hstep
    exact hstep.kept hL ih hbears

end

theorem Sdk.within_start (version : Nat) (sdk : Sdk) : (sdk.watch version).Within (sdk.watch version).start version := by
  cases sdk with
  | goHttp | pythonHttp | tsHttp => exact (within_single (n := 0) rfl rfl).mpr (Nat.zero_le version)
  | goGrpc => exact ⟨Nat.le_refl version, fun _ hn => by cases hn⟩
  | pythonGrpc | tsGrpc => exact (within_pair (n := 0) (k := 0) rfl rfl).mpr ⟨Nat.zero_le version, Nat.zero_le version⟩

/-- In a run of any of the loops in which no fetched snapshot is newer than what the application has been told of, and
nothing that requires a snapshot is taken for a repetition, the application is informed; and after the next step it is
exactly if that is still so. -/
theorem sdk_informed (sdk : Sdk) (version : Nat) (s : SdkClient sdk.State)
    (h : Relation.ReflTransGen (fun s s' => ∃ input, s.Bears (sdk.watch version) version input ∧
      WatchStep (sdk.watch version) input s s') (.start (sdk.watch version)) s) :
    s.Informed (sdk.watch version) version ∧
      ∀ input s', WatchStep (sdk.watch version) input s s' →
        (s'.Informed (sdk.watch version) version ↔ s.Bears (sdk.watch version) version input) := by
  have hs := SdkClient.kept_of_run (sdk.law version) (sdk.within_start version) h
  exact ⟨hs.informed, fun input s' hstep => hstep.informed_iff (sdk.law version) hs⟩

/-- A client that has fetched the snapshot its application started from. -/
def anchored : SdkClient Nat := ⟨1, true, [], []⟩

theorem anchored_steps : WatchStep (Sdk.goHttp.watch 1) (.connect (some 1)) (.start (Sdk.goHttp.watch 1)) anchored := .connect rfl rfl

def published : SdkEvent := ⟨2, false, false⟩

def pruned : SdkEvent := ⟨3, true, false⟩

def handedOn (connected : Bool) : SdkClient Nat := ⟨2, connected, [published], [published]⟩

def rejoined : SdkClient Nat := ⟨3, true, [published, pruned], [published, pruned]⟩

/-- A version is handed on, the connection is lost, and over the next one all has to be fetched anew. -/
theorem sdk_informed_sample : rejoined.Informed (Sdk.goHttp.watch 1) 1 := by
  have hevent : WatchStep (Sdk.goHttp.watch 1) (.event published) anchored (handedOn true) := .event rfl
  have hlost : WatchStep (Sdk.goHttp.watch 1) .disconnect (handedOn true) (handedOn false) := .disconnect
  have hagain : WatchStep (Sdk.goHttp.watch 1) (.connect (some 2)) (handedOn false) (handedOn true) := .connect rfl rfl
  have hrequired : WatchStep (Sdk.goHttp.watch 1) (.event pruned) (handedOn true) rejoined := .event rfl
  have hnew : ¬ (Sdk.goHttp.watch 1).Repeats (handedOn true).state pruned := by
    rintro ⟨_, hseen, -, hle⟩
    rw [← Option.some.inj hseen] at hle
    exact absurd hle (by decide)
  have hrun := Relation.ReflTransGen.single (r := fun s s' => ∃ input, s.Bears (Sdk.goHttp.watch 1) 1 input ∧
    WatchStep (Sdk.goHttp.watch 1) input s s') ⟨.connect (some 1), Nat.le_refl 1, anchored_steps⟩
  have hrun := hrun.tail ⟨.event published, fun h => (by cases h), hevent⟩
  have hrun := (hrun.tail ⟨.disconnect, trivial, hlost⟩).tail ⟨.connect (some 2), Nat.le_refl 2, hagain⟩
  exact (sdk_informed .goHttp 1 rejoined (hrun.tail ⟨.event pruned, fun _ => hnew, hrequired⟩)).1

/-- The client is told to fetch all anew, and drops it; and after a disconnection it moves on to a version that the
application has never been told of. -/
theorem sdk_loses_notifications :
    (¬ ∀ s s', s = anchored → WatchStep (Sdk.goHttp.watch 1) (.event ⟨1, true, false⟩) s s' → s'.Informed (Sdk.goHttp.watch 1) 1) ∧
    ¬ ∀ (sdk : Sdk) (version : Nat) (s : SdkClient sdk.State),
      Relation.ReflTransGen (fun s s' => ∃ input, WatchStep (sdk.watch version) input s s') (.start (sdk.watch version)) s →
      s.Informed (sdk.watch version) version := by
  constructor
  · intro h
    have hrequired := (h _ _ rfl (.event rfl)).2
    exact absurd (congrArg List.length hrequired) (by decide)
  · intro h
    have hstep : WatchStep (Sdk.goHttp.watch 1) (.connect (some 2)) { anchored with connected := false }
        (⟨2, true, [], []⟩ : SdkClient Nat) :=
      .connect rfl rfl
    have hcursor := (h .goHttp 1 _ (((Relation.ReflTransGen.single ⟨_, anchored_steps⟩).tail ⟨_, .disconnect⟩).tail ⟨_, hstep⟩)).1
    exact absurd hcursor (by decide)

end Defing
