import Defing.State.Cascade

/-!
# What a publication of shared items reports

One command puts the value of every draft into every branch that is bound to
it, one version for each binding. The endpoint tells of each branch once, with
the version of the first event, which is where the branch ends only if the
drafts are bound in one place of it.
-/

namespace Defing

open KV (Prog Plain)

section
variable [SerdeJson] {id : ProjectId} {b : BranchName} {t t' later : Store} {s s' s'' : State} {events events' : List PublishEvent}

/-! ## The endpoint -/

structure Affected where
  project : ProjectId
  branch : BranchName
  newVersion : Nat
  deriving DecidableEq, Repr

structure SharedPublishResp where
  version : Nat
  affected : List Affected
  requestId : String

def affectedLoop : List PublishEvent → List (ProjectId × BranchName) → List Affected
  | [], _ => []
  | e :: events, seen =>
    if (e.project, e.branch) ∈ seen then affectedLoop events seen
    else { project := e.project, branch := e.branch, newVersion := e.version } ::
      affectedLoop events ((e.project, e.branch) :: seen)

section

def listSharedPublished : M (List SharedItem) := do
  let rows ← getPrefixMerged kShared
  pure ((parsed rows).insertionSort fun (a b : SharedItem) => a.key ≤ b.key)

/-- `publish_shared`; `later` are the rows when it comes to read the versions of the shared items. -/
def publishSharedItems (comment rid operator : String) (ts now : Int) (cascade : SharedCascadeMode) (policy : PublishPolicy)
    (t later : Store) : Except Error SharedPublishResp × Store :=
  let outcome := apply (.sharedPublish comment rid operator ts cascade policy) now t
  match outcome.result with
  | .error e => (.error e, outcome.store)
  | .ok events =>
    match listSharedPublished.eval later with
    | .error e => (.error e, outcome.store)
    | .ok items =>
      (.ok { version := ((items.map (·.version)).max?).getD 0, affected := affectedLoop events [], requestId := rid },
        outcome.store)

end

/-! ## First events -/

omit [SerdeJson] in
theorem mem_affectedLoop {a : Affected} {seen : List (ProjectId × BranchName)} :
    a ∈ affectedLoop events seen ↔ (a.project, a.branch) ∉ seen ∧
      ((eventsOf events a.project a.branch).map (·.version)).head? = some a.newVersion := by
  induction events generalizing seen with
  | nil => simp [affectedLoop, eventsOf]
  | cons e events ih =>
    unfold affectedLoop
    rw [eventsOf_cons]
    by_cases hof : e.project = a.project ∧ e.branch = a.branch
    · rw [if_pos hof, hof.1, hof.2]
      by_cases hseen : (a.project, a.branch) ∈ seen
      · simp [hseen, ih]
      · rw [if_neg hseen]
        simp only [List.mem_cons, ih, not_true, false_and, or_false, hseen, not_false_iff, true_and,
          List.map_cons, List.head?_cons, Option.some.injEq]
        constructor
        · intro h
          rw [h]
        · intro h
          cases a
          simp_all
    · rw [if_neg hof]
      by_cases hseen : (e.project, e.branch) ∈ seen
      · rw [if_pos hseen, ih]
      · have hne : (a.project, a.branch) ≠ (e.project, e.branch) := fun h => hof (by simp_all)
        have hne' : a ≠ { project := e.project, branch := e.branch, newVersion := e.version } := fun h => hof (by simp_all)
        rw [if_neg hseen, List.mem_cons, ih, List.mem_cons, not_or]
        simp [hne, hne']

omit [SerdeJson] in
theorem affectedLoop_nodup (events : List PublishEvent) (seen : List (ProjectId × BranchName)) :
    ((affectedLoop events seen).map fun a => (a.project, a.branch)).Nodup := by
  induction events generalizing seen with
  | nil => exact List.nodup_nil
  | cons e events ih =>
    unfold affectedLoop
    by_cases hseen : (e.project, e.branch) ∈ seen
    · rw [if_pos hseen]
      exact ih seen
    · rw [if_neg hseen, List.map_cons, List.nodup_cons]
      refine ⟨fun h => ?_, ih _⟩
      obtain ⟨a, ha, he⟩ := List.mem_map.mp h
      exact (mem_affectedLoop.mp ha).1 (by rw [he]; exact List.mem_cons_self)

/-- What the endpoint answers with is collected from the passes over the drafts. -/
theorem publishSharedItems_advances {comment rid operator : String} {ts now : Int} {cascade : SharedCascadeMode}
    {policy : PublishPolicy} {resp : SharedPublishResp} (h : Reachable t)
    (hok : publishSharedItems comment rid operator ts now cascade policy t later = (.ok resp, t')) :
    ∃ events s, resp.affected = affectedLoop events [] ∧ t' = s.kv ∧ (∀ e ∈ events, Named e.project e.branch) ∧
      Advances ⟨t, []⟩ s events fun id b =>
        ((stateOf t id b).map fun st => cascades cascade (draftsOf t) st.sharedBindings).getD 0 := by
  unfold publishSharedItems at hok
  dsimp only at hok
  split at hok
  · cases hok
  · rename_i events hev
    split at hok
    · cases hok
    · cases hok
      obtain ⟨s, hs, hstore, -⟩ := apply_ok hev
      have hall := emitted_named h (.sharedPublish comment rid operator ts cascade policy) now
      unfold Outcome.emitted at hall
      rw [hev] at hall
      exact ⟨events, s, rfl, hstore, hall, sharedPublish_advances h hs⟩

section
variable {n : ProjectId → BranchName → Nat} (hs : WellPlaced s.kv) (hadv : Advances s s' events n)
include hs hadv

/-- The list has the branches that were advanced, with the first version each was given. -/
theorem mem_affectedLoop_advances (hnamed : ∀ e ∈ events, Named e.project e.branch) (a : Affected) :
    a ∈ affectedLoop events [] ↔ ∃ st st', stateOf s.kv a.project a.branch = some st ∧
      stateOf s'.kv a.project a.branch = some st' ∧ st.activeVersion < st'.activeVersion ∧
      a.newVersion = st.activeVersion + 1 := by
  rw [mem_affectedLoop]
  constructor
  · intro ha
    have hne : eventsOf events a.project a.branch ≠ [] := by
      intro hnil
      rw [hnil] at ha
      cases ha.2
    obtain ⟨e, he⟩ := List.exists_mem_of_ne_nil _ hne
    obtain ⟨he, hof⟩ := List.mem_filter.mp he
    have hn : Named a.project a.branch := by
      obtain ⟨hp, hb⟩ := of_decide_eq_true hof
      rw [← hp, ← hb]
      exact hnamed e he
    cases hst : stateOf s.kv a.project a.branch with
    | none => exact absurd (hadv.none _ _ hn hst).2 hne
    | some st =>
      obtain ⟨st', hst', -, -, -, hv, hrange⟩ := hadv.some _ _ st hn hst
      rw [hrange, List.head?_range'] at ha
      refine ⟨st, st', rfl, hst', ?_⟩
      by_cases hz : n a.project a.branch = 0
      · simp [hz] at ha
      · simp only [hz, if_false, Option.some.injEq] at ha
        exact ⟨by omega, ha.2.symm⟩
  · rintro ⟨st, st', hst, hst', hlt, hnew⟩
    obtain ⟨st₂, hst₂, -, -, -, hv, hrange⟩ := hadv.some _ _ st (named_of_stateOf hs hst) hst
    obtain rfl := Option.some.inj (hst'.symm.trans hst₂)
    rw [hrange, List.head?_range', if_neg (by omega), hnew]
    exact ⟨List.not_mem_nil, rfl⟩

/-- The first versions are the last ones exactly if no branch is given two. -/
theorem newest_advances (hnamed : ∀ e ∈ events, Named e.project e.branch) :
    (∀ a ∈ affectedLoop events [], ∃ st', stateOf s'.kv a.project a.branch = some st' ∧
        a.newVersion = st'.activeVersion) ↔ ∀ id b st, stateOf s.kv id b = some st → n id b ≤ 1 := by
  constructor
  · intro hall id b st hst
    obtain ⟨st', hst', -, -, -, hv, -⟩ := hadv.some id b st (named_of_stateOf hs hst) hst
    by_contra hgt
    obtain ⟨st₂, hst₂, he⟩ := hall ⟨id, b, st.activeVersion + 1⟩
      ((mem_affectedLoop_advances hs hadv hnamed _).mpr ⟨st, st', hst, hst', by omega, rfl⟩)
    obtain rfl := Option.some.inj (hst'.symm.trans hst₂)
    dsimp only at he
    omega
  · intro hle a ha
    obtain ⟨st, st', hst, hst', hlt, hnew⟩ := (mem_affectedLoop_advances hs hadv hnamed a).mp ha
    obtain ⟨st₂, hst₂, -, -, -, hv, -⟩ := hadv.some _ _ st (named_of_stateOf hs hst) hst
    obtain rfl := Option.some.inj (hst'.symm.trans hst₂)
    have := hle _ _ st hst
    exact ⟨st', hst', by omega⟩

end

/-- The response has every branch that the command advanced, once, with the version after the one it was at; that is the
version it is at in the end for all of them exactly if no branch is bound to the drafts in two places. -/
theorem shared_publish_affected {comment rid operator : String} {ts now : Int} {cascade : SharedCascadeMode}
    {policy : PublishPolicy} {resp : SharedPublishResp} (h : Reachable t)
    (hok : publishSharedItems comment rid operator ts now cascade policy t later = (.ok resp, t')) :
    (resp.affected.map fun a => (a.project, a.branch)).Nodup ∧
      (∀ a : Affected, a ∈ resp.affected ↔ ∃ st st', stateOf t a.project a.branch = some st ∧
        stateOf t' a.project a.branch = some st' ∧ st.activeVersion < st'.activeVersion ∧
        a.newVersion = st.activeVersion + 1) ∧
      (∀ id b st, stateOf t id b = some st → ∃ st', stateOf t' id b = some st' ∧
        st'.activeVersion = st.activeVersion + cascades cascade (draftsOf t) st.sharedBindings) ∧
      ((∀ a ∈ resp.affected, ∃ st', stateOf t' a.project a.branch = some st' ∧ a.newVersion = st'.activeVersion) ↔
        ∀ id b st, stateOf t id b = some st → cascades cascade (draftsOf t) st.sharedBindings ≤ 1) := by
  have ht := wellPlaced_of_reach h
  obtain ⟨events, s, he, rfl, hnamed, hadv⟩ := publishSharedItems_advances h hok
  rw [he]
  refine ⟨affectedLoop_nodup _ _, mem_affectedLoop_advances ht hadv hnamed, fun id b st hst => ?_,
    (newest_advances ht hadv hnamed).trans (forall_congr' fun id => forall_congr' fun b => forall_congr' fun st => ?_)⟩
  · obtain ⟨st', hst', -, -, -, hv, -⟩ := hadv.some id b st (named_of_stateOf ht hst) hst
    rw [hst] at hv
    exact ⟨st', hst', hv⟩
  · refine forall_congr' fun hst => ?_
    rw [hst]
    rfl

end

section
attribute [local instance] sampleJson

/-- A shared item that one branch is bound to in two places, drafted again after the branch has published. -/
def twoPlacesLog : List (Command × Int) := [
  (.projectCreate "p" "" 0 none, 1),
  (.structureDraftSet "p" 1
    [{ name := "g", items := [{ key := "k", ty := .string, shared := true }, { key := "m", ty := .string, shared := true }] }] "", 2),
  (.publishStructure "p" "" "r0" "" 0 .block, 3),
  (.sharedDraftUpdate { key := "s", ty := .string, value := .string "v", version := 0 } "", 4),
  (.sharedPublish "" "r1" "" 0 .auto .block, 5),
  (.draftUpdate "p" "dev" [] [] [⟨"g", "k", "s"⟩, ⟨"g", "m", "s"⟩] "" 0 none, 6),
  (.publish "p" "dev" "" "r2" "" 0 .block, 7),
  (.sharedDraftUpdate { key := "s", ty := .string, value := .string "w", version := 0 } "", 8)]

/-- The endpoint tells of the third version, and the branch is at the fourth. -/
theorem shared_publish_affected_sample : ∃ resp t',
    publishSharedItems "" "r3" "" 0 9 .auto .block (runLog twoPlacesLog) ∅ = (.ok resp, t') ∧
      resp.affected = [⟨"p", "dev", 3⟩] ∧
      ¬ ∀ a ∈ resp.affected, ∃ st', stateOf t' a.project a.branch = some st' ∧ a.newVersion = st'.activeVersion := by
  have hresp : (publishSharedItems "" "r3" "" 0 9 .auto .block (runLog twoPlacesLog) ∅).1.toOption.map (·.affected) =
      some [⟨"p", "dev", 3⟩] := by decide +kernel
  have htwice : (stateOf (runLog twoPlacesLog) "p" "dev").map (fun st =>
      cascades .auto (draftsOf (runLog twoPlacesLog)) st.sharedBindings) = some 2 := by decide +kernel
  obtain ⟨st, hst, htwice⟩ := Option.map_eq_some_iff.mp htwice
  cases hr : (publishSharedItems "" "r3" "" 0 9 .auto .block (runLog twoPlacesLog) ∅).1 with
  | error e =>
    rw [hr] at hresp
    cases hresp
  | ok resp =>
    rw [hr] at hresp
    have hok := shared_publish_affected (reachable_runLog twoPlacesLog) (Prod.ext hr rfl)
    refine ⟨resp, _, Prod.ext hr rfl, Option.some.inj hresp, fun hall => ?_⟩
    have hle := hok.2.2.2.mp hall "p" "dev" st hst
    omega

end

end Defing
