import Defing.State.Origin
import Defing.State.Library

/-!
# Accounts and tokens and their projects

The deletion of a project takes along every project whose name starts with its
own, but only the accounts and tokens of itself. As long as no account or token
is left behind so, each has a project that exists and did all the time.
-/

namespace Defing

open KV (Plain segments)

section
variable [SerdeJson]

def Owned (t : Store) (id : ProjectId) : Prop :=
  (∃ u a, adminOf t u = some a ∧ a.project = id) ∨ ∃ h r, tokenOf t h = some r ∧ r.project = id

/-- A deletion takes no other project along that has accounts or tokens. -/
def SparesOwners (t : Store) (cmd : Command) : Prop :=
  ∀ id o, cmd = .projectDelete id o → projectOf t id ≠ none →
    ∀ q, q ≠ id → id.toList <+: q.toList → ¬ Owned t q

/-- What a command of the run has made, and its project, were in every store since, and the project was there then. -/
def LivesSince (past : List Entry) (t : Store) (id : ProjectId) (makes : Command → Prop) (has : Store → Prop) : Prop :=
  ∃ before t₀ cmd now after, past = before ++ (t₀, cmd, now) :: after ∧ makes cmd ∧ ¬ has t₀ ∧ projectOf t₀ id ≠ none ∧
    ∀ t' ∈ after.map (·.1) ++ [t], has t' ∧ projectOf t' id ≠ none

def HasAdmin (id : ProjectId) (u : String) (t : Store) : Prop := ∃ a, adminOf t u = some a ∧ a.project = id

def HasToken (id : ProjectId) (h : String) (t : Store) : Prop := ∃ r, tokenOf t h = some r ∧ r.project = id

/-- Every account and every token is of a project that exists and has existed since they were created. -/
def Credentialed (past : List Entry) (t : Store) : Prop :=
  (∀ u a, adminOf t u = some a → LivesSince past t a.project
    (fun cmd => ∃ salt hash ts, cmd = .projectAdminCreate a.project u salt hash ts) (HasAdmin a.project u)) ∧
  ∀ h r, tokenOf t h = some r → LivesSince past t r.project
    (fun cmd => ∃ name o ts, cmd = .projectTokenCreate r.project name h o ts) (HasToken r.project h)

section
variable {t t' : Store} {cmd : Command} {now : Int} {past : List Entry} {id : ProjectId}
  {makes : Command → Prop} {has : Store → Prop}

theorem LivesSince.current (h : LivesSince past t id makes has) : has t ∧ projectOf t id ≠ none := by
  obtain ⟨_, _, _, _, _, _, _, _, _, h⟩ := h
  exact h t (by simp)

theorem LivesSince.next (h : LivesSince past t id makes has) (cmd : Command) (now : Int) (hhas : has t')
    (hp : projectOf t' id ≠ none) : LivesSince (past ++ [(t, cmd, now)]) t' id makes has := by
  obtain ⟨before, t₀, cmd₀, now₀, after, rfl, hm, hn, hp₀, hall⟩ := h
  refine ⟨before, t₀, cmd₀, now₀, after ++ [(t, cmd, now)], by simp, hm, hn, hp₀, fun t'' h => ?_⟩
  rw [List.map_append, List.mem_append, List.map_singleton, List.mem_singleton] at h
  rcases h with h | rfl
  · exact hall t'' h
  · exact ⟨hhas, hp⟩

theorem LivesSince.made (hm : makes cmd) (hn : ¬ has t) (hp : projectOf t id ≠ none) (hhas : has t')
    (hp' : projectOf t' id ≠ none) : LivesSince (past ++ [(t, cmd, now)]) t' id makes has :=
  ⟨past, t, cmd, now, [], rfl, hm, hn, hp, by simpa using ⟨hhas, hp'⟩⟩

theorem plain_of_projectOf (ht : WellPlaced t) (hp : projectOf t id ≠ none) : Plain id := by
  obtain ⟨p, hp⟩ := Option.ne_none_iff_exists'.mp hp
  exact plain_of_validName (validName_of_project p (ht _ _ (entity_exact.mp hp))).1

/-- A project stays, unless one is deleted whose name its own starts with. -/
theorem projectOf_apply (ht : WellPlaced t) (hp : projectOf t id ≠ none) (cmd : Command) (now : Int) :
    projectOf (apply cmd now t).store id ≠ none ∨
      ∃ q o, cmd = .projectDelete q o ∧ projectOf t q ≠ none ∧ q.toList <+: id.toList ∧
        (∃ events, (apply cmd now t).result = .ok events) ∧ projectOf (apply cmd now t).store id = none := by
  have hi := plain_of_projectOf ht hp
  have hkept : (apply cmd now t).store[projectKey id]? = t[projectKey id]? → projectOf (apply cmd now t).store id ≠ none := by
    intro hrow
    rw [projectOf, entity_congr hrow]
    exact hp
  by_cases hc : writesProjectRow (projectKey id) cmd
  · cases hr : (apply cmd now t).result with
    | error e =>
      refine .inl (hkept (row_of_error ht hr fun key e => ?_))
      have := congrArg segments e
      simp [segments_projectKey hi, segments_sharedDraftKey] at this
    | ok events =>
      obtain ⟨s, hs, hstore, -⟩ := apply_ok hr
      rw [hstore] at hkept ⊢
      cases cmd <;> try exact hc.elim
      case projectCreate name o ts src =>
        obtain ⟨-, hnone, -⟩ := applyProjectCreate_struct (o := o) hs
        rcases hc with hc | hc
        · obtain rfl := projectKey_inj.mp hc
          exact absurd hnone hp
        · exact ((projectKey_ne_struct name hi).1 hc).elim
      case projectDelete q o =>
        have hq : projectOf t q ≠ none := by
          obtain ⟨_, hq, h⟩ := loadMerged_bind.mp hs
          obtain ⟨p, rfl, -⟩ := okOr_bind.mp h
          rw [projectOf, entity_eq_some.mpr hq]
          exact Option.some_ne_none p
        have hrow := projectDelete_keys ht hs fun h =>
          KeyOfProject.not_outside hi (k := projectKey id) (.inl rfl) h.outside
        simp only [startsWith_projectKey (plain_of_projectOf ht hq) (.inl rfl)] at hrow
        by_cases hpre : q.toList <+: id.toList
        · refine .inr ⟨q, o, rfl, hq, hpre, ⟨events, rfl⟩, ?_⟩
          rw [projectOf, entity, hrow, if_pos hpre]
          rfl
        · exact .inl (hkept (hrow.trans (if_neg hpre)))
      case structureDraftSet p v groups o => exact (projectKey_ne_struct p hi).2 hc |>.elim
      case publishStructure p c r o ts policy =>
        rcases hc with hc | hc
        · exact ((projectKey_ne_struct p hi).1 hc).elim
        · exact ((projectKey_ne_struct p hi).2 hc).elim
  · exact .inl (hkept (apply_frame ht cmd now (not_touches_projectKey hi hc)))

/-- What is left of a project that stays, or is spared, stays with it. -/
theorem LivesSince.step (ht : WellPlaced t) (h : LivesSince past t id makes has) (hspares : SparesOwners t cmd)
    (howned : Owned t id) (hown : ∀ o, cmd ≠ .projectDelete id o) (hhas : has (apply cmd now t).store) :
    LivesSince (past ++ [(t, cmd, now)]) (apply cmd now t).store id makes has := by
  refine h.next cmd now hhas ?_
  rcases projectOf_apply ht h.current.2 cmd now with hp | ⟨q, o, rfl, hq, hpre, -, -⟩
  · exact hp
  · by_cases e : id = q
    · exact absurd (by rw [e]) (hown o)
    · exact absurd howned (hspares q o rfl hq id e hpre)

theorem credentialed_step (ht : WellPlaced t) (h : Credentialed past t) (hspares : SparesOwners t cmd) (now : Int) :
    Credentialed (past ++ [(t, cmd, now)]) (apply cmd now t).store := by
  have hmade : (∀ id o, cmd ≠ .projectDelete id o) → ∀ {id}, projectOf t id ≠ none →
      projectOf (apply cmd now t).store id ≠ none := by
    intro hc id hp
    refine (projectOf_apply ht hp cmd now).resolve_right ?_
    intro ⟨q, o, e, _⟩
    exact hc q o e
  rcases credential_apply ht cmd now with ⟨-, hs⟩ | ⟨⟨e, he⟩, hk⟩
  · constructor
    · intro u a ha
      rcases hs.admin ha with ⟨a₀, h₀, hp, hn⟩ | ⟨hcmd, -, hp, hnone, -⟩
      · have hl := h.1 u a₀ h₀
        rw [← hp] at hl
        refine hl.step ht hspares (.inl ⟨u, a₀, h₀, hp.symm⟩) (fun o e => hn ?_) ⟨a, ha, rfl⟩
        subst e
        exact .inl ⟨u, a₀, h₀, hp.symm, .inl rfl⟩
      · refine .made hcmd ?_ hp ⟨a, ha, rfl⟩ (hmade ?_ hp)
        · intro ⟨a', ha', _⟩
          rw [hnone] at ha'
          cases ha'
        · obtain ⟨_, _, _, rfl⟩ := hcmd
          exact nofun
    · intro k r hr
      rcases hs.token hr with ⟨r₀, h₀, hp, hn⟩ | ⟨hcmd, hp, hnone⟩
      · have hl := h.2 k r₀ h₀
        rw [← hp] at hl
        refine hl.step ht hspares (.inr ⟨k, r₀, h₀, hp.symm⟩) (fun o e => hn ?_) ⟨r, hr, rfl⟩
        subst e
        exact .inr ⟨k, r₀, h₀, hp.symm, rfl⟩
      · refine .made hcmd ?_ hp ⟨r, hr, rfl⟩ (hmade ?_ hp)
        · intro ⟨r', hr', _⟩
          rw [hnone] at hr'
          cases hr'
        · obtain ⟨_, _, _, rfl⟩ := hcmd
          exact nofun
  · have hstays : ∀ {id}, projectOf t id ≠ none → projectOf (apply cmd now t).store id ≠ none := by
      intro id hp
      refine (projectOf_apply ht hp cmd now).resolve_right ?_
      intro ⟨q, o, _, _, _, ⟨events, hok⟩, _⟩
      rw [he] at hok
      cases hok
    constructor
    · intro u a ha
      have h₀ := h.1 u a (by rwa [adminOf, entity_congr (hk _ (credential_projectAdminKey u))] at ha)
      exact h₀.next cmd now ⟨a, ha, rfl⟩ (hstays h₀.current.2)
    · intro k r hr
      have h₀ := h.2 k r (by rwa [tokenOf, entity_congr (hk _ (credential_dataTokenKey k))] at hr)
      exact h₀.next cmd now ⟨r, hr, rfl⟩ (hstays h₀.current.2)

theorem credentialed_of_spares (h : Trace (fun _ _ _ _ => True) past t) (hall : ∀ e ∈ past, SparesOwners e.1 e.2.1) :
    Credentialed past t := by
  induction h with
  | start => constructor <;> simp [adminOf, tokenOf, entity]
  | @step past t cmd now htrace _ ih =>
    exact credentialed_step (wellPlaced_of_reach htrace.reach) (ih fun e he => hall e (List.mem_append_left _ he))
      (hall _ (List.mem_append_right _ List.mem_cons_self)) now

theorem projectDelete_goes_through (ht : WellPlaced t) {q : ProjectId} (hq : projectOf t q ≠ none) (o : String) (now : Int) :
    ∃ s, execute (.projectDelete q o) now t = (.ok [], s) := by
  obtain ⟨p, hp⟩ := Option.ne_none_iff_exists'.mp hq
  have hload : (getProject q).exec ⟨t, []⟩ = (.ok (some p), ⟨t, []⟩) := loadMerged_exact.mpr ⟨entity_exact.mp hp, rfl⟩
  obtain ⟨s', hs', -⟩ := deleteAccounts_erases
    (s := (eraseAll ⟨t, []⟩ ((rowsUnder (projectKey q) t).map (·.1))).erase (idxPname p.name))
    ((wellPlaced_eraseAll (s := ⟨t, []⟩) ht _).erase _) q
  refine ⟨s', ?_⟩
  change (applyProjectDelete q o).exec ⟨t, []⟩ = _
  rw [applyProjectDelete, KV.Prog.exec_bind_of_ok hload, KV.Prog.exec_bind_of_ok (okOr_ok.mpr ⟨rfl, rfl⟩),
    KV.Prog.exec_bind_of_ok (getPrefixMerged_exec _), KV.Prog.exec_bind_of_ok (deleteRows_exec _),
    KV.Prog.exec_bind_of_ok (deletePending_exec _), KV.Prog.exec_bind_of_ok hs']
  rfl

theorem owned_projectDelete {s : State} {events : List PublishEvent} (ht : WellPlaced t) {q : ProjectId} {o : String}
    (h : execute (.projectDelete q o) now t = (.ok events, s)) (hw : WellPlaced s.kv) (hne : id ≠ q)
    (howned : Owned t id) : Owned s.kv id := by
  have hs := credential_step ht h
  rcases howned with ⟨u, a, ha, rfl⟩ | ⟨k, r, hr, rfl⟩
  · obtain ⟨a', ha', hp⟩ := hs.admin_kept hw ha fun hd => by
      rcases hd with ⟨u', a', ha', hq, hk | hk⟩ | ⟨k, r, -, -, hk⟩
      · obtain rfl := projectAdminKey_inj.mp hk
        exact hne (by rw [← hq, Option.some.inj (ha'.symm.trans ha)])
      · have := head_paSession hk
        simp [segments_projectAdminKey] at this
      · have := congrArg segments hk
        simp [segments_projectAdminKey, segments_dataTokenKey] at this
    exact .inl ⟨u, a', ha', hp⟩
  · have hn : ¬ drops t (.projectDelete q o) (dataTokenKey k) := fun hd => by
      rcases hd with ⟨u', a', -, -, hk | hk⟩ | ⟨k', r', hr', hq, hk⟩
      · have := congrArg segments hk
        simp [segments_projectAdminKey, segments_dataTokenKey] at this
      · exact not_paSession_dataTokenKey hk
      · obtain rfl := dataTokenKey_inj.mp hk
        exact hne (by rw [← hq, Option.some.inj (hr'.symm.trans hr)])
    rcases hs.kept _ (credential_dataTokenKey k) hn with e | ⟨v, hp, -⟩
    · exact .inr ⟨k, r, by rw [tokenOf, entity_congr e]; exact hr, rfl⟩
    · -- the deletion of a project puts nothing
      generalize hk : dataTokenKey k = key at hp
      cases hp with
      | adminLogin hkey hprincipal =>
        have := congrArg segments hk
        rcases hkey with rfl | ⟨sid, rfl⟩
        · simp [segments_dataTokenKey, segments_sessionKey] at this
        · simp [segments_dataTokenKey, segments_sessionKeyWith] at this
      | prolong hrow => cases (entity_exact.mp hr).symm.trans (hk ▸ hrow)
      | paLogin hcmd ha hkey hprincipal => cases hcmd
      | gaLogin hcmd ha hkey hprincipal => cases hcmd

theorem not_credentialed (ht : WellPlaced t) {q : ProjectId} {o : String} (hdel : projectOf t q ≠ none) (hne : id ≠ q)
    (hpre : q.toList <+: id.toList) (howned : Owned t id) :
    ¬ Credentialed past (apply (.projectDelete q o) now t).store := by
  intro hcred
  obtain ⟨s, hs⟩ := projectDelete_goes_through ht hdel o now
  have hw := wellPlaced_apply ht (.projectDelete q o) now
  rw [apply_eq hs] at hcred hw
  have hp : projectOf s.kv id ≠ none := by
    rcases owned_projectDelete ht hs hw hne howned with ⟨u, a, ha, rfl⟩ | ⟨k, r, hr, rfl⟩
    · exact (hcred.1 u a ha).current.2
    · exact (hcred.2 k r hr).current.2
  have hrow := projectDelete_keys ht hs fun h =>
    KeyOfProject.not_outside (plain_of_projectOf hw hp) (k := projectKey id) (.inl rfl) h.outside
  rw [startsWith_iff.mpr (by simpa [projectKey] using hpre), if_pos rfl] at hrow
  rw [projectOf, entity, hrow] at hp
  exact hp rfl

/-- In a run every account and every token has, at every point, a project that has existed since their creation
exactly if no deletion takes along another project that has some. -/
theorem credentials_live_with_projects (h : Trace (fun _ _ _ _ => True) past t) :
    (∀ past' t', past' <+: past → Trace (fun _ _ _ _ => True) past' t' → Credentialed past' t') ↔
      ∀ e ∈ past, SparesOwners e.1 e.2.1 := by
  constructor
  · intro hall e he id o hcmd hp q hne hpre howned
    obtain ⟨l, r, hsplit⟩ := List.append_of_mem he
    obtain ⟨-, hnext⟩ := h.split hsplit
    have hreach : Reachable e.1 := (h.split hsplit).1.reach
    have hcred := hall _ _ ⟨r, by rw [hsplit]; simp⟩ hnext
    rw [hcmd] at hcred
    exact not_credentialed (wellPlaced_of_reach hreach) hp hne hpre howned hcred
  · intro hall past' t' hpre htrace
    exact credentialed_of_spares htrace fun e he => hall e (hpre.subset he)

end

end

section
attribute [local instance] sampleJson

/-- The deletion of `app` takes `app2` along, whose administrator and token stay, and `app2` is created again. -/
def ownerLog : List (Command × Int) :=
  [(.projectCreate "app" "" 0 none, 1), (.projectCreate "app2" "" 0 none, 2),
    (.projectAdminCreate "app2" "bob" "salt" "hash" 0, 3), (.projectTokenCreate "app2" "ci" "cafe" "" 0, 4),
    (.projectDelete "app" "", 5), (.projectCreate "app2" "" 0 none, 6)]

theorem credentials_live_with_projects_sample :
    Credentialed (pastOf (ownerLog.take 4)) (runLog (ownerLog.take 4)) := by
  have htrace : Trace (fun _ _ _ _ => True) (pastOf (ownerLog.take 4)) (runLog (ownerLog.take 4)) :=
    trace_runLog (ownerLog.take 4) fun _ _ _ _ => trivial
  refine (credentials_live_with_projects htrace).mpr ?_ _ _ (List.prefix_refl _) htrace
  intro e he id o hcmd
  simp [pastOf, ownerLog] at he
  rcases he with rfl | rfl | rfl | rfl <;> cases hcmd

theorem credentials_outlive_projects :
    (¬ ∀ past t, Trace (fun _ _ _ _ => True) past t → Credentialed past t) ∧
      projectOf (runLog (ownerLog.take 5)) "app2" = none ∧ projectOf (runLog ownerLog) "app2" ≠ none ∧
        HasAdmin "app2" "bob" (runLog ownerLog) ∧ HasToken "app2" "cafe" (runLog ownerLog) := by
  have hgone : projectOf (runLog (ownerLog.take 5)) "app2" = none := by decide +kernel
  have hbob : (adminOf (runLog (ownerLog.take 5)) "bob").map (·.project) = some "app2" := by decide +kernel
  refine ⟨fun h => ?_, hgone, by decide +kernel, ?_, ?_⟩
  · obtain ⟨a, ha, hp⟩ := Option.map_eq_some_iff.mp hbob
    have hcred := h _ _ (trace_runLog (ownerLog.take 5) fun _ _ _ _ => trivial)
    exact (hcred.1 "bob" a ha).current.2 (hp ▸ hgone)
  · exact Option.map_eq_some_iff.mp (by decide +kernel : (adminOf (runLog ownerLog) "bob").map (·.project) = some "app2")
  · exact Option.map_eq_some_iff.mp (by decide +kernel : (tokenOf (runLog ownerLog) "cafe").map (·.project) = some "app2")

end

end Defing
