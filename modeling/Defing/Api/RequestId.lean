import Defing.State.Retry

/-!
# Ids of requests that have none

A release that comes without an id gets one from the process that handles it,
made of its process id and a counter that starts anew with each process. Two
processes of one id hand out the same ids.
-/

namespace Defing

structure Process where
  pid : Nat
  seq : Nat

def newRequestId (p : Process) : String × Process := (s!"auto-{p.pid}-{p.seq}", { p with seq := (p.seq + 1) % 2 ^ 64 })

inductive ReleaseReq
  | publishStructure (project : ProjectId) (comment : String)
  | publish (project : ProjectId) (branch : BranchName) (comment : String)
  | rollback (project : ProjectId) (branch : BranchName) (toVersion : Nat) (comment : String)
  | grayPublish (project : ProjectId) (branch : BranchName) (rule : GrayRule) (comment : String)
  | grayPromote (project : ProjectId) (branch : BranchName) (comment : String)
  | grayAbort (project : ProjectId) (branch : BranchName) (comment : String)

def ReleaseReq.command (requestId operator : String) (ts : Int) (policy : PublishPolicy) : ReleaseReq → Command
  | publishStructure id c => .publishStructure id c requestId operator ts policy
  | publish id b c => .publish id b c requestId operator ts policy
  | rollback id b v c => .rollback id b v c requestId operator ts
  | grayPublish id b rule c => .grayPublish id b rule c requestId operator ts policy
  | grayPromote id b c => .grayPromote id b c requestId operator ts
  | grayAbort id b c => .grayAbort id b c requestId operator ts

def requestIdOr (p : Process) : Option String → String × Process
  | some rid => (rid, p)
  | none => newRequestId p

/-- The processes of the nodes, the requests without an id as they have been submitted, and the attempts at them. -/
structure Service where
  processes : Nat → Process
  submitted : List Command
  attempts : List (Nat × Entry)
  store : Store

def Service.start (pids : Nat → Nat) : Service := ⟨fun node => ⟨pids node, 0⟩, [], [], ∅⟩

section
variable [SerdeJson]

/-- What can happen: a node starts again, a request comes in, one that has been submitted is applied (once more, if it is
submitted again after an error), or any other command is. -/
inductive ServiceStep : Service → Service → Prop
  | start {s : Service} (node pid : Nat) : ServiceStep s { s with processes := Function.update s.processes node ⟨pid, 0⟩ }
  | request {s : Service} (node : Nat) (release : ReleaseReq) (operator : String) (ts : Int) (policy : PublishPolicy) :
      ServiceStep s { s with
        processes := Function.update s.processes node (requestIdOr (s.processes node) none).2
        submitted := s.submitted ++ [release.command (requestIdOr (s.processes node) none).1 operator ts policy] }
  | attempt {s : Service} {i : Nat} {cmd : Command} (now : Int) (h : s.submitted[i]? = some cmd) :
      ServiceStep s { s with attempts := s.attempts ++ [(i, s.store, cmd, now)], store := (apply cmd now s.store).store }
  | other {s : Service} (cmd : Command) (now : Int) : ServiceStep s { s with store := (apply cmd now s.store).store }

def Accepted (e : Entry) : Prop := ∃ events, (apply e.2.1 e.2.2 e.1).result = .ok events

/-- Every request that has been answered with success has had an effect of its own. -/
def NoneDropped (attempts : List (Nat × Entry)) : Prop :=
  ∀ pre a post, attempts = pre ++ a :: post → Accepted a.2 → ∃ a' ∈ pre ++ [a], a'.1 = a.1 ∧ Effective a'.2

/-- No branch remembers the id of a request that is for it and has not had its effect. -/
def Unremembered (attempts : List (Nat × Entry)) : Prop :=
  ∀ pre a post, attempts = pre ++ a :: post → Accepted a.2 → (∀ a' ∈ pre, a'.1 = a.1 → ¬ Effective a'.2) →
    ¬ LastRequest a.2.1 a.2.2.1

def Submitted (cmd : Command) : Prop :=
  ∃ (release : ReleaseReq) (requestId operator : String) (ts : Int) (policy : PublishPolicy),
    cmd = release.command requestId operator ts policy

structure Service.Sound (s : Service) : Prop where
  store : Reachable s.store
  submitted : ∀ cmd ∈ s.submitted, Submitted cmd
  attempts : ∀ a ∈ s.attempts, Reachable a.2.1 ∧ Submitted a.2.2.1

variable {s s' : Service}

theorem ServiceStep.sound (h : ServiceStep s s') (hs : s.Sound) : s'.Sound := by
  cases h with
  | start => exact ⟨hs.store, hs.submitted, hs.attempts⟩
  | request node release operator ts policy =>
    refine ⟨hs.store, ?_, hs.attempts⟩
    intro cmd hcmd
    rcases List.mem_append.mp hcmd with hcmd | hcmd
    · exact hs.submitted cmd hcmd
    · exact ⟨release, _, operator, ts, policy, List.mem_singleton.mp hcmd⟩
  | attempt now h =>
    refine ⟨.step _ now hs.store trivial, hs.submitted, ?_⟩
    intro a ha
    rcases List.mem_append.mp ha with ha | ha
    · exact hs.attempts a ha
    · obtain rfl := List.mem_singleton.mp ha
      exact ⟨hs.store, hs.submitted _ (List.mem_of_getElem? h)⟩
  | other cmd now => exact ⟨.step cmd now hs.store trivial, hs.submitted, hs.attempts⟩

theorem Service.sound_of_run {pids : Nat → Nat} (h : Relation.ReflTransGen ServiceStep (.start pids) s) : s.Sound := by
  induction h with
  | refl => exact ⟨.empty, fun _ h => (by cases h), fun _ h => (by cases h)⟩
  | tail _ hstep ih => exact hstep.sound ih

/-- A request that goes through has an effect, unless its branch remembers its id. -/
theorem effective_iff {e : Entry} (ht : Reachable e.1) (hcmd : Submitted e.2.1) (hok : Accepted e) :
    Effective e ↔ ¬ LastRequest e.1 e.2.1 := by
  have hplaced := wellPlaced_of_reach ht
  constructor
  · intro heff hlast
    exact not_effective hplaced (rooted_reach ht) (structured_reach ht) hlast heff
  · intro hlast
    refine ⟨hok, fun hsame => ?_⟩
    obtain ⟨events, hok⟩ := hok
    obtain ⟨t, cmd, now⟩ := e
    obtain ⟨release, requestId, operator, ts, policy, hcmd⟩ := hcmd
    have hcmd : cmd = release.command requestId operator ts policy := hcmd
    subst hcmd
    cases release with
    | publishStructure => exact publishStructure_changes hplaced hok hsame
    | _ => exact hlast (lastRequest_of_unchanged hplaced rfl hok hsame)

/-- No request is dropped as a repetition of another one exactly if each finds a branch that does not remember its id. -/
theorem none_dropped_iff (pids : Nat → Nat) (s : Service) (h : Relation.ReflTransGen ServiceStep (.start pids) s) :
    NoneDropped s.attempts ↔ Unremembered s.attempts := by
  have hs := Service.sound_of_run h
  have hiff : ∀ a ∈ s.attempts, Accepted a.2 → (Effective a.2 ↔ ¬ LastRequest a.2.1 a.2.2.1) := fun a ha hok =>
    effective_iff (hs.attempts a ha).1 (hs.attempts a ha).2 hok
  constructor
  · intro hnone pre a post hsplit hok hearlier
    have ha : a ∈ s.attempts := by simp [hsplit]
    obtain ⟨a', ha', hsame, heff⟩ := hnone pre a post hsplit hok
    rcases List.mem_append.mp ha' with ha' | ha'
    · exact absurd heff (hearlier a' ha' hsame)
    · obtain rfl := List.mem_singleton.mp ha'
      exact (hiff _ ha hok).mp heff
  · intro hfresh pre a post hsplit hok
    have ha : a ∈ s.attempts := by simp [hsplit]
    by_cases hearlier : ∃ a' ∈ pre, a'.1 = a.1 ∧ Effective a'.2
    · obtain ⟨a', ha', hsame, heff⟩ := hearlier
      exact ⟨a', List.mem_append_left _ ha', hsame, heff⟩
    · refine ⟨a, List.mem_append_right _ (List.mem_singleton.mpr rfl), rfl, ?_⟩
      refine (hiff a ha hok).mpr (hfresh pre a post hsplit hok ?_)
      exact fun a' ha' hsame heff => hearlier ⟨a', ha', hsame, heff⟩

end

section
attribute [local instance] sampleJson

theorem other_runs (log : List (Command × Int)) (s : Service) :
    Relation.ReflTransGen ServiceStep s { s with store := runFrom s.store log } := by
  induction log generalizing s with
  | nil => exact .refl
  | cons e log ih => exact .head (.other e.1 e.2) (ih _)

def publishX (requestId : String) : Command := .publish "p" "x" "" requestId "" 0 .block

/-- The second node runs a process of id `p`, all others of id 1. -/
def pidsOf (p node : Nat) : Nat := if node = 1 then p else 1

def publishedOnce (p : Nat) : Service where
  processes := Function.update (Service.start (pidsOf p)).processes 0 ⟨1, 1⟩
  submitted := [publishX "auto-1-0"]
  attempts := [(0, runLog (requestLog.take 5), publishX "auto-1-0", 6)]
  store := (apply (publishX "auto-1-0") 6 (runLog (requestLog.take 5))).store

theorem publishedOnce_runs (p : Nat) : Relation.ReflTransGen ServiceStep (.start (pidsOf p)) (publishedOnce p) := by
  have hpid : (Service.start (pidsOf p)).processes 0 = ⟨1, 0⟩ := by simp [Service.start, pidsOf]
  have hrequest : ServiceStep (Service.start (pidsOf p)) _ := .request 0 (.publish "p" "x" "") "" 0 .block
  rw [hpid] at hrequest
  have hlog := other_runs (requestLog.take 5) { Service.start (pidsOf p) with
    processes := Function.update (Service.start (pidsOf p)).processes 0 ⟨1, 1⟩, submitted := [publishX "auto-1-0"] }
  exact ((Relation.ReflTransGen.single hrequest).trans hlog).tail (.attempt 6 rfl)

def nextDraft : Command := .draftUpdate "p" "x" [⟨"g", "k", .string "w"⟩] [] [] "" 0 none

def publishedStore : Store := (apply nextDraft 7 (publishedOnce 1).store).store

def publishedTwice (p : Nat) : Service where
  processes := Function.update (publishedOnce p).processes 1 ⟨p, 1⟩
  submitted := [publishX "auto-1-0", publishX (newRequestId ⟨p, 0⟩).1]
  attempts := (publishedOnce p).attempts ++ [(1, publishedStore, publishX (newRequestId ⟨p, 0⟩).1, 8)]
  store := (apply (publishX (newRequestId ⟨p, 0⟩).1) 8 publishedStore).store

theorem publishedTwice_runs (p : Nat) : Relation.ReflTransGen ServiceStep (.start (pidsOf p)) (publishedTwice p) := by
  have hdraft : ServiceStep (publishedOnce p) _ := .other nextDraft 7
  have hrequest : ServiceStep { publishedOnce p with store := publishedStore } _ := .request 1 (.publish "p" "x" "") "" 0 .block
  exact (((publishedOnce_runs p).tail hdraft).tail hrequest).tail (.attempt (i := 1) 8 rfl)

theorem not_lastRequest_publishX {t : Store} {r : String} (h : (stateOf t "p" "x").bind (·.lastRequestId) ≠ some r) :
    ¬ LastRequest t (publishX r) := by
  rintro ⟨id, b, r', st, hreq, hst, hlast⟩
  cases hreq
  rw [hst] at h
  exact h hlast

/-- The two processes have different ids, and so have their requests. -/
theorem none_dropped_sample : NoneDropped (publishedTwice 2).attempts := by
  refine (none_dropped_iff _ _ (publishedTwice_runs 2)).mpr fun pre a post hsplit _ _ => ?_
  have ha : a ∈ (publishedTwice 2).attempts := by simp [hsplit]
  rcases List.mem_pair.mp ha with rfl | rfl
  · exact not_lastRequest_publishX (by decide +kernel)
  · exact not_lastRequest_publishX (by decide +kernel)

/-- The second publication is taken for a repetition of the first. -/
theorem second_publication_dropped :
    ¬ ∀ pids s, Relation.ReflTransGen ServiceStep (Service.start pids) s → NoneDropped s.attempts := by
  intro h
  have hlast : (stateOf publishedStore "p" "x").bind (·.lastRequestId) = some "auto-1-0" ∧
      (apply (publishX "auto-1-0") 8 publishedStore).result.toOption.isSome = true := by
    decide +kernel
  obtain ⟨st, hst, hr⟩ := Option.bind_eq_some_iff.mp hlast.1
  have hok : Accepted (publishedStore, publishX "auto-1-0", 8) := by
    unfold Accepted
    cases hres : (apply (publishX "auto-1-0") 8 publishedStore).result with
    | ok events => exact ⟨events, rfl⟩
    | error e =>
      rw [hres] at hlast
      cases hlast.2
  obtain ⟨a, ha, hsame, heff⟩ := h _ _ (publishedTwice_runs 1) _ (1, publishedStore, publishX "auto-1-0", 8) [] rfl hok
  rcases List.mem_append.mp ha with ha | ha
  · obtain rfl := List.mem_singleton.mp ha
    cases hsame
  · obtain rfl := List.mem_singleton.mp ha
    have hreach : Reachable publishedStore := (Service.sound_of_run ((publishedOnce_runs 1).tail (.other nextDraft 7))).store
    have hsubmitted : Submitted (publishX "auto-1-0") := ⟨.publish "p" "x" "", "auto-1-0", "", 0, .block, rfl⟩
    exact (effective_iff (e := (publishedStore, publishX "auto-1-0", 8)) hreach hsubmitted hok).mp heff
      ⟨"p", "x", "auto-1-0", st, rfl, hst, hr⟩

end

end Defing
