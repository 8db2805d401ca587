import Defing.State.Library
import Defing.State.Readers

/-!
# Requests and their repetition

Publications, rollbacks and gray releases carry the id of a request. A branch
keeps the last one it has taken up: a repetition is seen as such only until
the next request, and that of a structure never.
-/

namespace Defing

open KV (Prog Plain)

section
variable [SerdeJson] {id : ProjectId} {b : BranchName} {t t' : Store} {s : State} {cmd cmd' : Command} {now : Int} {r : String}
  {events : List PublishEvent} {past : List Entry}

/-! ## Requests -/

def branchRequest : Command → Option (ProjectId × BranchName × String)
  | .publish id b _ r .. => some (id, b, r)
  | .rollback id b _ _ r .. => some (id, b, r)
  | .grayPublish id b _ _ r .. => some (id, b, r)
  | .grayPromote id b _ r .. => some (id, b, r)
  | .grayAbort id b _ r .. => some (id, b, r)
  | _ => none

/-- A command carries a request for a branch; a structure is published to all branches of its project. -/
def Requests (id : ProjectId) (b : BranchName) (r : String) : Command → Prop
  | .publishStructure id' _ r' .. => id' = id ∧ r' = r
  | cmd => branchRequest cmd = some (id, b, r)

/-- The same request again, with what it asks for; the rest may be written anew. -/
inductive Retry : Command → Command → Prop
  | publish {id : ProjectId} {b : BranchName} {r c o c' o' : String} {ts ts' : Int} {policy policy' : PublishPolicy} :
      Retry (.publish id b c r o ts policy) (.publish id b c' r o' ts' policy')
  | rollback {id : ProjectId} {b : BranchName} {v v' : Nat} {r c o c' o' : String} {ts ts' : Int} :
      Retry (.rollback id b v c r o ts) (.rollback id b v' c' r o' ts')
  | grayPublish {id : ProjectId} {b : BranchName} {rule : GrayRule} {r c o c' o' : String} {ts ts' : Int}
      {policy policy' : PublishPolicy} :
      Retry (.grayPublish id b rule c r o ts policy) (.grayPublish id b rule c' r o' ts' policy')
  | grayPromote {id : ProjectId} {b : BranchName} {r c o c' o' : String} {ts ts' : Int} :
      Retry (.grayPromote id b c r o ts) (.grayPromote id b c' r o' ts')
  | grayAbort {id : ProjectId} {b : BranchName} {r c o c' o' : String} {ts ts' : Int} :
      Retry (.grayAbort id b c r o ts) (.grayAbort id b c' r o' ts')
  | publishStructure {id : ProjectId} {r c o c' o' : String} {ts ts' : Int} {policy policy' : PublishPolicy} :
      Retry (.publishStructure id c r o ts policy) (.publishStructure id c' r o' ts' policy')

def LastRequest (t : Store) (cmd : Command) : Prop :=
  ∃ id b r st, branchRequest cmd = some (id, b, r) ∧ stateOf t id b = some st ∧ st.lastRequestId = some r

/-- A command that has gone through, and has changed something. -/
def Effective (e : Entry) : Prop :=
  (∃ events, (apply e.2.1 e.2.2 e.1).result = .ok events) ∧ (apply e.2.1 e.2.2 e.1).store ≠ e.1

/-! ## What is done, and what is not -/

theorem Move.changes {br br' : Branch} {ws : List VersionWrite} {req : ProjectId × BranchName × String}
    (hreq : branchRequest cmd = some req) (h : Move t id b cmd br events ws br') : br'.state ≠ br.state := by
  have hnext : ∀ n m, nextMonotonic n m ≠ n := fun n m => by
    rw [nextMonotonic]
    omega
  intro e
  cases h with
  | create hs =>
    rw [Branch.state_become, hs] at e
    cases e
  | edit hat hs h =>
    rw [Branch.state_become, hs] at e
    have hst := Option.some.inj e
    cases h with
    | draft => cases hreq
    | grayPublish => exact Nat.succ_ne_self _ (congrArg BranchState.graySeq hst)
    | grayAbort hr hg => exact hg (congrArg BranchState.graySeq hst).symm
  | release record hs ho h =>
    rw [Branch.state_become, hs] at e
    have hst := Option.some.inj e
    cases h with
    | publish => exact Nat.succ_ne_self _ (congrArg BranchState.activeVersion hst)
    | rollback => exact Nat.succ_ne_self _ (congrArg BranchState.activeVersion hst)
    | grayPromote => exact hnext _ _ (congrArg BranchState.activeVersion hst)
    | restructure => cases hreq
    | cascade => cases hreq

theorem request_moves (ht : WellPlaced t) (hreq : branchRequest cmd = some (id, b, r))
    (h : execute cmd now t = (.ok events, s)) : Retried t id b r events s ∨ Moves t cmd id b ⟨t, []⟩ events s := by
  cases cmd <;> cases hreq
  case publish => exact applyPublish_moves ht _ h
  case rollback => exact applyRollback_moves ht _ h
  case grayPublish rule c o ts policy =>
    change (applyGrayPublish id b rule c r (effTs ts now) o policy).exec _ = _ at h
    exact applyGrayPublish_moves ht _ h
  case grayPromote => exact applyGrayPromote_moves ht _ h
  case grayAbort c o ts =>
    change (applyGrayAbort id b c r (effTs ts now) o).exec _ = _ at h
    exact applyGrayAbort_moves ht _ h

theorem lastRequest_of_unchanged (ht : WellPlaced t) (hreq : branchRequest cmd = some (id, b, r))
    (h : (apply cmd now t).result = .ok events) (hsame : (apply cmd now t).store = t) : LastRequest t cmd := by
  obtain ⟨s, hs, hstore, -⟩ := apply_ok h
  rcases request_moves ht hreq hs with ⟨st, hst, hr, -⟩ | hmoves
  · exact ⟨id, b, r, st, hreq, hst, hr⟩
  · obtain ⟨ws, hmove, -⟩ := hmoves.move
    rw [← hstore, hsame] at hmove
    exact absurd rfl (hmove.changes hreq)

theorem publishStructure_changes (ht : WellPlaced t) {c o : String} {ts : Int} {policy : PublishPolicy}
    (h : (apply (.publishStructure id c r o ts policy) now t).result = .ok events) :
    (apply (.publishStructure id c r o ts policy) now t).store ≠ t := by
  intro hsame
  obtain ⟨s, hs, hstore, -⟩ := apply_ok h
  obtain ⟨struct, draft, hstruct, -, -, hnew, -⟩ := applyPublishStructure_moves (o := o) ht ts hs
  rw [← hstore, hsame, hstruct] at hnew
  exact Nat.succ_ne_self _ (congrArg Structure.version (Option.some.inj hnew)).symm

/-! ## Repetitions -/

theorem unchanged_of_lastRequest (ht : WellPlaced t) (hr : Rooted t) (hstructured : Structured t)
    (hlast : LastRequest t cmd)
    (hrule : ∀ id b rule c r o ts policy, cmd = .grayPublish id b rule c r o ts policy → (validateGrayRule rule).eval t = .ok ()) :
    execute cmd now t = (.ok [], ⟨t, []⟩) := by
  obtain ⟨id, b, r, st, hreq, hst, hlast⟩ := hlast
  have hn := named_of_stateOf ht hst
  obtain ⟨struct, hstruct⟩ := Option.isSome_iff_exists.mp (hstructured id hn.plain.1 (hr id b hn (by rw [hst]; rfl)))
  have hstate : Decodes t[branchStateKey id b]? (some st) := entity_eq_some.mp hst
  have hrow : Decodes t[structKey id]? (some struct) := entity_eq_some.mp hstruct
  cases cmd <;> cases hreq
  case publish =>
    refine loadMerged_bind.mpr ⟨_, hstate, okOr_bind.mpr ⟨st, rfl, loadMerged_bind.mpr ⟨_, hrow, okOr_bind.mpr ⟨struct, rfl, ?_⟩⟩⟩⟩
    rw [if_pos hlast]
    rfl
  case rollback =>
    refine loadMerged_bind.mpr ⟨_, hstate, okOr_bind.mpr ⟨st, rfl, ?_⟩⟩
    rw [if_pos hlast]
    rfl
  case grayPublish rule c o ts policy =>
    refine (validateGrayRule_readOnly rule).exec_bind_ok.mpr ⟨(), hrule _ _ _ _ _ _ _ _ rfl, ?_⟩
    refine loadMerged_bind.mpr ⟨_, hstate, okOr_bind.mpr ⟨st, rfl, loadMerged_bind.mpr ⟨_, hrow, okOr_bind.mpr ⟨struct, rfl, ?_⟩⟩⟩⟩
    rw [if_pos hlast]
    rfl
  case grayPromote =>
    refine loadMerged_bind.mpr ⟨_, hstate, okOr_bind.mpr ⟨st, rfl, ?_⟩⟩
    rw [if_pos hlast]
    rfl
  case grayAbort =>
    refine loadMerged_bind.mpr ⟨_, hstate, okOr_bind.mpr ⟨st, rfl, ?_⟩⟩
    rw [if_pos hlast]
    rfl

theorem not_effective (ht : WellPlaced t) (hr : Rooted t) (hstructured : Structured t) (hlast : LastRequest t cmd) :
    ¬ Effective (t, cmd, now) := by
  intro ⟨⟨events, h⟩, hchanged⟩
  obtain ⟨s, hs, -, -⟩ := apply_ok h
  refine hchanged ?_
  have hsame : execute cmd now t = (.ok [], ⟨t, []⟩) :=
    unchanged_of_lastRequest ht hr hstructured hlast fun id b rule c r o ts policy e => ?_
  · rw [apply_eq hsame]
  · subst e
    change (applyGrayPublish id b rule c r (effTs ts now) o policy).exec _ = _ at hs
    obtain ⟨_, hrule, -⟩ := (validateGrayRule_readOnly rule).exec_bind_ok.mp hs
    exact hrule

theorem retry_iff (ht : WellPlaced t) (hr : Rooted t) (hstructured : Structured t) {e : Entry} (he : Effective e)
    (hretry : Retry e.2.1 cmd) (now : Int) :
    (apply cmd now t).result = .ok [] ∧ (apply cmd now t).store = t ↔ LastRequest t cmd := by
  obtain ⟨t₀, cmd₀, now₀⟩ := e
  constructor
  · intro ⟨hok, hsame⟩
    change Retry cmd₀ cmd at hretry
    cases hretry with
    | publishStructure => exact absurd hsame (publishStructure_changes ht hok)
    | publish => exact lastRequest_of_unchanged ht rfl hok hsame
    | rollback => exact lastRequest_of_unchanged ht rfl hok hsame
    | grayPublish => exact lastRequest_of_unchanged ht rfl hok hsame
    | grayPromote => exact lastRequest_of_unchanged ht rfl hok hsame
    | grayAbort => exact lastRequest_of_unchanged ht rfl hok hsame
  · intro hlast
    have hsame : execute cmd now t = (.ok [], ⟨t, []⟩) :=
      unchanged_of_lastRequest ht hr hstructured hlast fun id b rule c r o ts policy e => ?_
    · rw [apply_eq hsame]
      exact ⟨rfl, rfl⟩
    · -- the rule has passed its checks before
      subst e
      change Retry cmd₀ _ at hretry
      cases hretry with
      | @grayPublish _ _ _ _ c₀ o₀ _ _ ts₀ _ policy₀ _ =>
        obtain ⟨⟨events, h⟩, -⟩ := he
        obtain ⟨s, hs, -, -⟩ := apply_ok h
        change (applyGrayPublish id b rule c₀ r (effTs ts₀ now₀) o₀ policy₀).exec _ = _ at hs
        obtain ⟨_, hrule, -⟩ := (validateGrayRule_readOnly rule).exec_bind_ok.mp hs
        exact ((validateGrayRule_within rule).eval_congr fun _ h => h.elim).trans hrule

/-! ## Runs -/

/-- An id is carried again only by the last request of the branch, and never by the publication of a structure. -/
def Paced (past : List Entry) (t : Store) (cmd : Command) (_now : Int) : Prop :=
  ∀ id b r, Requests id b r cmd → (∃ e ∈ past, Requests id b r e.2.1 ∧ Effective e) → LastRequest t cmd

/-- No two commands that carry the same id for a branch both have an effect. -/
def OnceEach (past : List Entry) : Prop :=
  past.Pairwise fun e e' => ∀ id b r, Requests id b r e.2.1 → Requests id b r e'.2.1 → ¬ (Effective e ∧ Effective e')

theorem onceEach_of_paced (h : Trace Paced past t) : OnceEach past := by
  induction h with
  | start => exact List.Pairwise.nil
  | @step past t cmd now htrace hpaced ih =>
    have ht := wellPlaced_of_reach htrace.reach
    refine List.pairwise_append.mpr ⟨ih, List.pairwise_singleton _ _, fun e he e' he' id b r hreq hreq' hboth => ?_⟩
    obtain rfl := List.mem_singleton.mp he'
    exact not_effective ht (rooted_reach htrace.reach) (structured_reach htrace.reach)
      (hpaced id b r hreq' ⟨e, he, hreq, hboth.1⟩) hboth.2

/-- In every run a request that has had its effect and is repeated is answered without another one exactly
if it is the last request of its branch. A run in which ids are carried again in this case only has each
request take effect at most once. -/
theorem request_takes_effect_once (h : Trace (fun _ _ _ _ => True) past t) :
    (∀ e ∈ past, Effective e → ∀ cmd now, Retry e.2.1 cmd →
      ((apply cmd now t).result = .ok [] ∧ (apply cmd now t).store = t ↔ LastRequest t cmd)) ∧
      (Trace Paced past t → OnceEach past) :=
  ⟨fun _ _ he _ now hretry =>
    retry_iff (wellPlaced_of_reach h.reach) (rooted_reach h.reach) (structured_reach h.reach) he hretry now,
    onceEach_of_paced⟩

end

section
attribute [local instance] sampleJson

def requestLog : List (Command × Int) := structureLog ++ [
  (.draftUpdate "p" "x" [⟨"g", "k", .string "v"⟩] [] [] "" 0 none, 5),
  (.publish "p" "x" "" "r1" "" 0 .block, 6),
  (.draftUpdate "p" "x" [⟨"g", "k", .string "w"⟩] [] [] "" 0 none, 7),
  (.publish "p" "x" "" "r2" "" 0 .block, 8),
  (.draftUpdate "p" "x" [⟨"g", "k", .string "u"⟩] [] [] "" 0 none, 9)]

theorem requestLog_effective : Effective (runLog (requestLog.take 5), .publish "p" "x" "" "r1" "" 0 .block, 6) := by
  have hfacts : ((apply (.publish "p" "x" "" "r1" "" 0 .block) 6 (runLog (requestLog.take 5))).result.toOption.isSome = true) ∧
      stateOf (apply (.publish "p" "x" "" "r1" "" 0 .block) 6 (runLog (requestLog.take 5))).store "p" "x" ≠
        stateOf (runLog (requestLog.take 5)) "p" "x" := by
    decide +kernel
  obtain ⟨hok, hchanged⟩ := hfacts
  refine ⟨?_, fun hsame => hchanged (congrArg (fun t => stateOf t "p" "x") hsame)⟩
  cases h : (apply (.publish "p" "x" "" "r1" "" 0 .block) 6 (runLog (requestLog.take 5))).result with
  | ok events => exact ⟨events, rfl⟩
  | error e =>
    rw [h] at hok
    cases hok

theorem request_takes_effect_once_sample :
    (apply (.publish "p" "x" "again" "r1" "" 0 .warn) 9 (runLog (requestLog.take 7))).result = .ok [] ∧
      (apply (.publish "p" "x" "again" "r1" "" 0 .warn) 9 (runLog (requestLog.take 7))).store = runLog (requestLog.take 7) := by
  have hmem : (runLog (requestLog.take 5), (.publish "p" "x" "" "r1" "" 0 .block, 6)) ∈ pastOf (requestLog.take 7) :=
    mem_pastOf (show requestLog.take 6 <+: requestLog.take 7 from List.take_prefix_take_left (by decide))
  have hstate : (stateOf (runLog (requestLog.take 7)) "p" "x").bind (·.lastRequestId) = some "r1" := by decide +kernel
  obtain ⟨st, hst, hr⟩ := Option.bind_eq_some_iff.mp hstate
  have hlast : LastRequest (runLog (requestLog.take 7)) (.publish "p" "x" "again" "r1" "" 0 .warn) :=
    ⟨"p", "x", "r1", st, rfl, hst, hr⟩
  exact ((request_takes_effect_once (trace_runLog (requestLog.take 7) fun _ _ _ _ => trivial)).1 _ hmem
    requestLog_effective _ 9 .publish).mpr hlast

theorem request_takes_effect_twice :
    ¬ ∀ past t, Trace (fun _ _ _ _ => True) past t → OnceEach past ∧
      ∀ e ∈ past, Effective e → ∀ cmd now, Retry e.2.1 cmd →
        (∃ events, (apply cmd now t).result = .ok events) ∧ (apply cmd now t).store = t := by
  intro h
  have hmem : (runLog (requestLog.take 5), (.publish "p" "x" "" "r1" "" 0 .block, 6)) ∈ pastOf requestLog :=
    mem_pastOf (show requestLog.take 6 <+: requestLog from List.take_prefix _ _)
  have hsame := ((h _ _ (trace_runLog requestLog fun _ _ _ _ => trivial)).2 _ hmem requestLog_effective
    (.publish "p" "x" "" "r1" "" 0 .block) 10 .publish).2
  have hchanged : stateOf (apply (.publish "p" "x" "" "r1" "" 0 .block) 10 (runLog requestLog)).store "p" "x" ≠
      stateOf (runLog requestLog) "p" "x" := by
    decide +kernel
  exact hchanged (congrArg (fun t => stateOf t "p" "x") hsame)

end

end Defing
