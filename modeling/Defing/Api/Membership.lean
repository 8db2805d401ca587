import Mathlib.Data.Finset.Basic
import Mathlib.Logic.Function.Basic

/-!
# Changes of the voters of a cluster

A promotion reads the voters, and then asks for these and the new one to be all
voters; a removal asks for one of them to be removed. Both ask again while an
earlier change is in progress. What openraft makes of a change it accepts is a
parameter, with what its documentation says of it.
-/

namespace Defing

structure MembershipConfig where
  voters : Finset Nat
  nodes : Finset Nat
  deriving DecidableEq

inductive ChangeMembers
  | replaceAllVoters (ids : Finset Nat)
  | removeVoters (ids : Finset Nat)
  | removeNodes (ids : Finset Nat)
  deriving DecidableEq

/-- `Raft::change_membership`, with `retain` not set: an accepted change is applied as a whole. -/
structure Openraft where
  change : MembershipConfig → ChangeMembers → Option MembershipConfig
  replaceAllVoters {m m' : MembershipConfig} {ids : Finset Nat} :
    change m (.replaceAllVoters ids) = some m' → m'.voters = ids
  removeVoters {m m' : MembershipConfig} {ids : Finset Nat} :
    change m (.removeVoters ids) = some m' → m'.voters = m.voters \ ids
  /-- Voters are not removed as nodes. -/
  removeNodes {m m' : MembershipConfig} {ids : Finset Nat} :
    change m (.removeNodes ids) = some m' → m'.voters = m.voters ∧ Disjoint m.voters ids

/-! ## Requests -/

inductive ClusterRequest
  | promote (nodeId : Nat)
  | remove (nodeId : Nat)
  deriving DecidableEq

def ClusterRequest.nodeId : ClusterRequest → Nat
  | promote n => n
  | remove n => n

inductive RequestPhase
  | received
  | writing (op : ChangeMembers) (tries : Nat)
  | succeeded
  | failed
  deriving DecidableEq

/-- What a promotion and a removal ask for, by the membership that the metrics of the node show. -/
def clusterPromote (nodeId : Nat) (metrics : MembershipConfig) : RequestPhase :=
  .writing (.replaceAllVoters (if nodeId ∈ metrics.voters then metrics.voters else insert nodeId metrics.voters)) 0

def clusterRemove (nodeId : Nat) (metrics : MembershipConfig) : RequestPhase :=
  if nodeId ∉ metrics.voters ∧ nodeId ∉ metrics.nodes then .failed
  else if nodeId ∈ metrics.voters then .writing (.removeVoters {nodeId}) 0
  else .writing (.removeNodes {nodeId}) 0

def ClusterRequest.read : ClusterRequest → MembershipConfig → RequestPhase
  | promote n => clusterPromote n
  | remove n => clusterRemove n

def retryLimit : Nat := 8

/-- After an attempt that met a change in progress: the same change once more, up to the limit. -/
def retryWrite (op : ChangeMembers) (tries : Nat) : RequestPhase :=
  if tries + 1 < retryLimit then .writing op (tries + 1) else .failed

/-! ## Interleavings -/

variable {ι : Type} [DecidableEq ι]

/-- A cluster with requests at any points of their handlers; `seen` are the memberships there have been. -/
structure ClusterState (ι : Type) where
  current : MembershipConfig
  seen : List MembershipConfig
  phase : ι → RequestPhase

def ClusterState.start (m : MembershipConfig) : ClusterState ι := { current := m, seen := [m], phase := fun _ => .received }

/-- The metrics that a request reads are of some membership there has been. -/
inductive ClusterStep (raft : Openraft) (request : ι → ClusterRequest) : ClusterState ι → ClusterState ι → Prop
  | read {s : ClusterState ι} (r : ι) {metrics : MembershipConfig} (hm : metrics ∈ s.seen) (h : s.phase r = .received) :
      ClusterStep raft request s { s with phase := Function.update s.phase r ((request r).read metrics) }
  | inProgress {s : ClusterState ι} (r : ι) {op : ChangeMembers} {tries : Nat} (h : s.phase r = .writing op tries) :
      ClusterStep raft request s { s with phase := Function.update s.phase r (retryWrite op tries) }
  | refused {s : ClusterState ι} (r : ι) {op : ChangeMembers} {tries : Nat} (h : s.phase r = .writing op tries) :
      ClusterStep raft request s { s with phase := Function.update s.phase r .failed }
  | accepted {s : ClusterState ι} (r : ι) {op : ChangeMembers} {tries : Nat} {m : MembershipConfig}
      (h : s.phase r = .writing op tries) (hm : raft.change s.current op = some m) :
      ClusterStep raft request s
        { current := m, seen := m :: s.seen, phase := Function.update s.phase r .succeeded }

/-- No promotion that the step accepts has an outdated list: its voters are the present ones and the new one. -/
def Timely (request : ι → ClusterRequest) (s s' : ClusterState ι) : Prop :=
  ∀ r n ids tries, request r = .promote n → s.phase r = .writing (.replaceAllVoters ids) tries →
    s'.phase r = .succeeded → ids = insert n s.current.voters

inductive ClusterRun (raft : Openraft) (request : ι → ClusterRequest)
    (allowed : ClusterState ι → ClusterState ι → Prop) (m : MembershipConfig) : ClusterState ι → Prop
  | start : ClusterRun raft request allowed m (.start m)
  | step {s s' : ClusterState ι} (h : ClusterRun raft request allowed m s) (hstep : ClusterStep raft request s s')
      (ha : allowed s s') : ClusterRun raft request allowed m s'

/-! ## What the voters are -/

variable {raft : Openraft} {request : ι → ClusterRequest} {m : MembershipConfig} {s s' : ClusterState ι}

/-- The initial voters and those promoted so far, without those removed so far. -/
def Expected (request : ι → ClusterRequest) (m : MembershipConfig) (s : ClusterState ι) (n : Nat) : Prop :=
  (n ∈ m.voters ∨ ∃ r, request r = .promote n ∧ s.phase r = .succeeded) ∧
    ¬ ∃ r, request r = .remove n ∧ s.phase r = .succeeded

def Asks : ClusterRequest → ChangeMembers → Prop
  | .promote _, op => ∃ ids, op = .replaceAllVoters ids
  | .remove n, op => op = .removeVoters {n} ∨ op = .removeNodes {n}

structure VotersKept (request : ι → ClusterRequest) (m : MembershipConfig) (s : ClusterState ι) : Prop where
  asks : ∀ r op tries, s.phase r = .writing op tries → Asks (request r) op
  voters : ∀ n, n ∈ s.current.voters ↔ Expected request m s n

omit [DecidableEq ι] in
theorem votersKept_start (request : ι → ClusterRequest) (m : MembershipConfig) : VotersKept request m (.start m) where
  asks _ _ _ h := by cases h
  voters n := by simp [ClusterState.start, Expected]

theorem asks_read (req : ClusterRequest) (metrics : MembershipConfig) {op : ChangeMembers} {tries : Nat}
    (h : req.read metrics = .writing op tries) : Asks req op := by
  cases req with
  | promote n =>
    cases h
    exact ⟨_, rfl⟩
  | remove n =>
    simp only [ClusterRequest.read, clusterRemove] at h
    split at h
    · cases h
    · split at h
      · cases h
        exact .inl rfl
      · cases h
        exact .inr rfl

theorem asks_retry {op op' : ChangeMembers} {tries tries' : Nat} (h : retryWrite op tries = .writing op' tries') : op' = op := by
  unfold retryWrite at h
  split at h
  · cases h
    rfl
  · cases h

/-- A request that goes on without success changes no voters, and is no success. -/
theorem VotersKept.goesOn (hk : VotersKept request m s) {r : ι} {phase : RequestPhase} (h : s.phase r ≠ .succeeded)
    (hphase : phase ≠ .succeeded) (hasks : ∀ op tries, phase = .writing op tries → Asks (request r) op) :
    VotersKept request m { s with phase := Function.update s.phase r phase } where
  asks r' op tries hr' := by
    change Function.update s.phase r phase r' = _ at hr'
    by_cases e : r' = r
    · subst e
      rw [Function.update_self] at hr'
      exact hasks op tries hr'
    · rw [Function.update_of_ne e] at hr'
      exact hk.asks r' op tries hr'
  voters n := by
    have hsame : ∀ r', Function.update s.phase r phase r' = .succeeded ↔ s.phase r' = .succeeded := by
      intro r'
      by_cases e : r' = r
      · subst e
        rw [Function.update_self]
        exact iff_of_false hphase h
      · rw [Function.update_of_ne e]
    rw [hk.voters n]
    simp only [Expected, hsame]

theorem expected_accepted (hid : Function.Injective fun r => (request r).nodeId) (m' : MembershipConfig)
    (seen : List MembershipConfig) (r : ι) (n : Nat) :
    Expected request m { current := m', seen, phase := Function.update s.phase r .succeeded } n ↔
      (request r = .promote n ∨ Expected request m s n) ∧ request r ≠ .remove n := by
  have hsame : ∀ r', Function.update s.phase r .succeeded r' = .succeeded ↔ r' = r ∨ s.phase r' = .succeeded := by
    intro r'
    by_cases e : r' = r
    · subst e
      simp
    · rw [Function.update_of_ne e]
      simp [e]
  unfold Expected
  simp only [hsame]
  constructor
  · rintro ⟨hin, hout⟩
    have hnot : request r ≠ .remove n := fun e => hout ⟨r, e, .inl rfl⟩
    refine ⟨?_, hnot⟩
    by_cases hp : request r = .promote n
    · exact .inl hp
    · refine .inr ⟨hin.imp_right ?_, fun ⟨r', hr', hs'⟩ => hout ⟨r', hr', .inr hs'⟩⟩
      rintro ⟨r', hr', rfl | hs'⟩
      · exact absurd hr' hp
      · exact ⟨r', hr', hs'⟩
  · rintro ⟨hp | ⟨hin, hout⟩, hnot⟩
    · refine ⟨.inr ⟨r, hp, .inl rfl⟩, ?_⟩
      rintro ⟨r', hr', -⟩
      have he : r' = r := hid (by simp only [hr', hp, ClusterRequest.nodeId])
      subst he
      exact hnot hr'
    · refine ⟨hin.imp_right fun ⟨r', hr', hs'⟩ => ⟨r', hr', .inr hs'⟩, ?_⟩
      rintro ⟨r', hr', rfl | hs'⟩
      · exact hnot hr'
      · exact hout ⟨r', hr', hs'⟩

theorem voters_change {op : ChangeMembers} {m₀ m' : MembershipConfig} {req : ClusterRequest} (hasks : Asks req op)
    (hm : raft.change m₀ op = some m')
    (ht : ∀ n ids, req = .promote n → op = .replaceAllVoters ids → ids = insert n m₀.voters) (n : Nat) :
    n ∈ m'.voters ↔ (req = .promote n ∨ n ∈ m₀.voters) ∧ req ≠ .remove n := by
  cases req with
  | promote k =>
    obtain ⟨ids, rfl⟩ := hasks
    rw [raft.replaceAllVoters hm, ht k ids rfl rfl]
    simp [eq_comm]
  | remove k =>
    rcases hasks with rfl | rfl
    · rw [raft.removeVoters hm]
      simp [eq_comm]
    · obtain ⟨hv, hd⟩ := raft.removeNodes hm
      rw [Finset.disjoint_singleton_right] at hd
      rw [hv]
      have hne : n ∈ m₀.voters → k ≠ n := fun hn e => hd (e ▸ hn)
      simpa using hne

theorem VotersKept.accepted (hk : VotersKept request m s) (hid : Function.Injective fun r => (request r).nodeId)
    {r : ι} {op : ChangeMembers} {tries : Nat} {m' : MembershipConfig} (h : s.phase r = .writing op tries)
    (hm : raft.change s.current op = some m')
    (ht : ∀ n ids, request r = .promote n → op = .replaceAllVoters ids → ids = insert n s.current.voters) :
    VotersKept request m
      { current := m', seen := m' :: s.seen, phase := Function.update s.phase r .succeeded } where
  asks r' op' tries' hr' := by
    change Function.update s.phase r _ r' = _ at hr'
    by_cases e : r' = r
    · subst e
      rw [Function.update_self] at hr'
      cases hr'
    · rw [Function.update_of_ne e] at hr'
      exact hk.asks r' op' tries' hr'
  voters n := by
    rw [expected_accepted hid, ← hk.voters n]
    exact voters_change (hk.asks r op tries h) hm ht n

theorem VotersKept.step (hk : VotersKept request m s) (hid : Function.Injective fun r => (request r).nodeId)
    (h : ClusterStep raft request s s') (ht : Timely request s s') : VotersKept request m s' := by
  cases h with
  | @read r metrics hm h =>
    refine hk.goesOn (by simp [h]) ?_ fun op tries => asks_read (request r) metrics
    cases request r with
    | promote n => simp [ClusterRequest.read, clusterPromote]
    | remove n =>
      simp only [ClusterRequest.read, clusterRemove]
      split_ifs <;> simp
  | @inProgress r op tries h =>
    refine hk.goesOn (by simp [h]) ?_ fun op' tries' e => ?_
    · unfold retryWrite
      split <;> simp
    · rw [asks_retry e]
      exact hk.asks r op tries h
  | @refused r op tries h => exact hk.goesOn (by simp [h]) (by simp) (by simp)
  | @accepted r op tries m' h hm =>
    refine hk.accepted hid h hm fun n ids hr e => ?_
    subst e
    exact ht r n ids tries hr h (Function.update_self ..)

theorem ClusterRun.kept (h : ClusterRun raft request (Timely request) m s)
    (hid : Function.Injective fun r => (request r).nodeId) : VotersKept request m s := by
  induction h with
  | start => exact votersKept_start request m
  | step _ hstep ha ih => exact ih.step hid hstep ha

/-- Without outdated lists, the voters are the initial ones with every promoted node and without every removed one. -/
theorem no_lost_voter (h : ClusterRun raft request (Timely request) m s)
    (hid : Function.Injective fun r => (request r).nodeId) (hdone : ∀ r, s.phase r = .succeeded) (n : Nat) :
    n ∈ s.current.voters ↔ (n ∈ m.voters ∨ ∃ r, request r = .promote n) ∧ ¬ ∃ r, request r = .remove n := by
  rw [(h.kept hid).voters n]
  simp only [Expected, hdone, and_true]

/-! A cluster of three voters and two learners. -/

def changeMembership (m : MembershipConfig) (voters nodes : Finset Nat) : Option MembershipConfig :=
  if voters ≠ ∅ ∧ voters ⊆ nodes then some { voters, nodes := nodes \ (m.voters \ voters) } else none

def plainRaft : Openraft where
  change m op := match op with
    | .replaceAllVoters ids => changeMembership m ids m.nodes
    | .removeVoters ids => changeMembership m (m.voters \ ids) m.nodes
    | .removeNodes ids => changeMembership m m.voters (m.nodes \ ids)
  replaceAllVoters h := by
    simp only [changeMembership] at h
    split at h <;> cases h
    rfl
  removeVoters h := by
    simp only [changeMembership] at h
    split at h <;> cases h
    rfl
  removeNodes h := by
    simp only [changeMembership] at h
    split at h <;> cases h
    rename_i hsub
    exact ⟨rfl, Finset.disjoint_of_subset_left hsub.2 Finset.sdiff_disjoint⟩

theorem plainRaft_replace {m : MembershipConfig} {ids : Finset Nat} (h : ids ≠ ∅ ∧ ids ⊆ m.nodes) :
    plainRaft.change m (.replaceAllVoters ids) = some { voters := ids, nodes := m.nodes \ (m.voters \ ids) } :=
  if_pos h

theorem plainRaft_removeVoters {m : MembershipConfig} {ids : Finset Nat} (h : m.voters \ ids ≠ ∅ ∧ m.voters \ ids ⊆ m.nodes) :
    plainRaft.change m (.removeVoters ids) =
      some { voters := m.voters \ ids, nodes := m.nodes \ (m.voters \ (m.voters \ ids)) } :=
  if_pos h

def fiveNodes : MembershipConfig := { voters := {1, 2, 3}, nodes := {1, 2, 3, 4, 5} }

def promoteAndRemove : Bool → ClusterRequest
  | false => .promote 4
  | true => .remove 3

def promoteBoth : Bool → ClusterRequest
  | false => .promote 4
  | true => .promote 5

theorem run_promoteAndRemove :
    ∃ s, ClusterRun plainRaft promoteAndRemove (Timely promoteAndRemove) fiveNodes s ∧
      (∀ r, s.phase r = .succeeded) ∧ s.current.voters = {1, 2, 4} := by
  have h₀ : ClusterRun plainRaft promoteAndRemove (Timely promoteAndRemove) fiveNodes (.start fiveNodes) := .start
  have h₁ := h₀.step (.read false (List.mem_singleton_self _) rfl) (by
    intro r n ids tries hr hw
    cases hw)
  have h₂ := h₁.step (.accepted false rfl (plainRaft_replace (by decide))) (by
    intro r n ids tries hr hw hs
    cases r
    · cases hr
      cases hw
      rfl
    · cases hr)
  have h₃ := h₂.step (.read true (List.mem_cons_self ..) rfl) (by
    intro r n ids tries hr hw hs
    cases r
    · cases hw
    · cases hr)
  have h₄ := h₃.step (.accepted true rfl (plainRaft_removeVoters (by decide))) (by
    intro r n ids tries hr hw hs
    cases r
    · cases hw
    · cases hr)
  refine ⟨_, h₄, fun r => ?_, by decide⟩
  cases r <;> rfl

/-- Two promotions that read the same voters: the later change takes the other's node out again. -/
theorem run_promoteBoth :
    ∃ s, ClusterRun plainRaft promoteBoth (fun _ _ => True) fiveNodes s ∧
      (∀ r, s.phase r = .succeeded) ∧ s.current.voters = {1, 2, 3, 5} := by
  have h₀ : ClusterRun plainRaft promoteBoth (fun _ _ => True) fiveNodes (.start fiveNodes) := .start
  have h₁ := h₀.step (.read false (List.mem_singleton_self _) rfl) trivial
  have h₂ := h₁.step (.read true (List.mem_singleton_self _) rfl) trivial
  have h₃ := h₂.step (.accepted false rfl (plainRaft_replace (by decide))) trivial
  have h₄ := h₃.step (.accepted true rfl (plainRaft_replace (by decide))) trivial
  refine ⟨_, h₄, fun r => ?_, by decide⟩
  cases r <;> rfl

theorem no_lost_voter_sample :
    ∃ s, ClusterRun plainRaft promoteAndRemove (Timely promoteAndRemove) fiveNodes s ∧ s.current.voters = {1, 2, 4} ∧
      ∀ n, n ∈ s.current.voters ↔ (n ∈ fiveNodes.voters ∨ ∃ r, promoteAndRemove r = .promote n) ∧
        ¬ ∃ r, promoteAndRemove r = .remove n := by
  obtain ⟨s, h, hdone, hv⟩ := run_promoteAndRemove
  exact ⟨s, h, hv, no_lost_voter h (fun a b => by revert a b; decide) hdone⟩

theorem lost_voter :
    ¬ ∀ s : ClusterState Bool, ClusterRun plainRaft promoteBoth (fun _ _ => True) fiveNodes s →
      (∀ r, s.phase r = .succeeded) → ∀ n, n ∈ s.current.voters ↔
        (n ∈ fiveNodes.voters ∨ ∃ r, promoteBoth r = .promote n) ∧ ¬ ∃ r, promoteBoth r = .remove n := by
  intro hall
  obtain ⟨s, h, hdone, hv⟩ := run_promoteBoth
  have h₄ := (hall s h hdone 4).2 ⟨.inr ⟨false, rfl⟩, by decide⟩
  rw [hv] at h₄
  exact absurd h₄ (by decide)

end Defing
