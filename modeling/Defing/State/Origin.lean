import Defing.State.Credentials

/-!
# Where sessions, accounts and tokens come from

A row of them after a command is one from before, which the command has not
dropped, or the one that it puts.
-/

namespace Defing

open KV (Plain segments)

variable [SerdeJson]

section
variable {t : Store} {cmd : Command} {now : Int}

/-- A command goes through and does to sessions, accounts and tokens what it may, or fails and does nothing to them. -/
theorem credential_apply (ht : WellPlaced t) (cmd : Command) (now : Int) :
    (∃ events, (apply cmd now t).result = .ok events) ∧ CredentialStep t cmd (apply cmd now t).store ∨
      (∃ e, (apply cmd now t).result = .error e) ∧
        ∀ k, CredentialKey k → (apply cmd now t).store[k]? = t[k]? := by
  rcases apply_cases ht cmd now with ⟨events, s, hs, he⟩ | ⟨e, -, he, -, hk⟩
  · rw [he]
    exact .inl ⟨⟨events, rfl⟩, credential_step ht hs⟩
  · refine .inr ⟨⟨e, he⟩, fun k hc => (hk k).resolve_right ?_⟩
    intro ⟨hd, _⟩
    cases cmd <;> try exact hd.elim
    obtain ⟨key, rfl⟩ := hd
    exact not_credential_sharedDraftKey key hc

end

section
variable {t t' : Store} {cmd : Command} {k u h : String}

theorem drops_cases (h : drops t cmd k) :
    (segments k).head? = some "sess" ∨
      (∃ u, k = projectAdminKey u ∧ ∀ k', PaSession u k' → drops t cmd k') ∨
      (∃ u, k = globalAdminKey u ∧ ∀ k', GaSession u k' → drops t cmd k') ∨
      ∃ id o h r, cmd = .projectDelete id o ∧ tokenOf t h = some r ∧ r.project = id ∧ k = dataTokenKey h := by
  cases cmd <;> try exact h.elim
  case projectAdminDelete u =>
    rcases h with rfl | h
    · exact .inr (.inl ⟨u, rfl, fun _ hs => .inr hs⟩)
    · exact .inl (head_paSession h)
  case globalAdminDelete u =>
    rcases h with rfl | h
    · exact .inr (.inr (.inl ⟨u, rfl, fun _ hs => .inr hs⟩))
    · exact .inl (head_gaSession h)
  case projectDelete id o =>
    rcases h with ⟨u, a, ha, hp, rfl | h⟩ | ⟨h, r, hr, hp, rfl⟩
    · exact .inr (.inl ⟨u, rfl, fun _ hs => .inl ⟨u, a, ha, hp, .inr hs⟩⟩)
    · exact .inl (head_paSession h)
    · exact .inr (.inr (.inr ⟨id, o, h, r, rfl, hr, hp, rfl⟩))
  all_goals left
  case sessionLogout => simp [show k = _ from h, segments_sessionKey]
  case multiSessionLogout => simp [show k = _ from h, segments_sessionKeyWith]
  case multiSessionLogoutAll =>
    rcases h with rfl | h
    · simp [segments_sessionKey]
    · exact head_kSessionPrefix h
  case globalAdminSessionsRevokeAll =>
    obtain ⟨_, _, _, h⟩ := h
    exact head_gaSession h
  case paSessionLogout => exact head_paSession (.inl h)
  case multiPaSessionLogout u sid => exact head_paSession (h ▸ paSession_keyWith u sid)
  case multiGaSessionLogout u sid => exact head_gaSession (h ▸ gaSession_keyWith u sid)
  case multiPaSessionLogoutAll => exact head_paSession h
  case projectAdminSetPassword => exact head_paSession h
  case multiGaSessionLogoutAll => exact head_gaSession h
  case globalAdminSetPassword => exact head_gaSession h

omit [SerdeJson] in
theorem projectAdminKey_ne_globalAdminKey {u u' : String} : projectAdminKey u ≠ globalAdminKey u' := by
  intro e
  have := congrArg String.toList e
  simp [projectAdminKey, globalAdminKey, kPaAccount, kGaAccount] at this

/-- What leaves the rows alone does to them what the rotation of the keys does. -/
theorem CredentialStep.idle (h : ∀ k, CredentialKey k → t'[k]? = t[k]?) : CredentialStep t (.rotateMasterKey [] []) t' :=
  ⟨fun _ => False.elim, fun k hk _ => .inl (h k hk)⟩

theorem CredentialStep.row (hs : CredentialStep t cmd t') (hk : CredentialKey k) {v : Stored} (hv : t'[k]? = some v) :
    ¬ drops t cmd k ∧ (t[k]? = some v ∨ Puts t cmd k v) := by
  have hn : ¬ drops t cmd k := by
    intro hd
    rw [hs.dropped k hd] at hv
    cases hv
  rcases hs.kept k hk hn with e | ⟨v', hp, e⟩
  · exact ⟨hn, .inl (e ▸ hv)⟩
  · obtain rfl := Option.some.inj (e.symm.trans hv)
    exact ⟨hn, .inr hp⟩

/-- A project administrator is from before, with the same project, or is being created. -/
theorem CredentialStep.admin (hs : CredentialStep t cmd t') {a : ProjectAdminAccount} (ha : adminOf t' u = some a) :
    (∃ a₀, adminOf t u = some a₀ ∧ a.project = a₀.project ∧ ¬ drops t cmd (projectAdminKey u)) ∨
      (∃ salt hash ts, cmd = .projectAdminCreate a.project u salt hash ts) ∧ validAccountUsername u ∧
        projectOf t a.project ≠ none ∧ adminOf t u = none ∧
        ∀ g, t[globalAdminKey g]? ≠ none → ¬ eqIgnoreAsciiCase g u := by
  obtain ⟨hn, hrow⟩ := hs.row (credential_projectAdminKey u) (entity_exact.mp ha)
  rcases hrow with hrow | hp
  · exact .inl ⟨a, entity_exact.mpr hrow, rfl, hn⟩
  · generalize hk : projectAdminKey u = k at hp
    cases hp
    case createPa hv hp hnone hga ha =>
      obtain rfl := projectAdminKey_inj.mp hk
      obtain ⟨-, rfl⟩ := ha
      exact .inr ⟨⟨_, _, _, rfl⟩, hv, hp, hnone, hga⟩
    case passwordPa ha =>
      obtain rfl := projectAdminKey_inj.mp hk
      exact .inl ⟨_, ha, rfl, hn⟩

theorem CredentialStep.globalAdmin (hs : CredentialStep t cmd t') {a : GlobalAdminAccount}
    (ha : globalAdminOf t' u = some a) :
    (∃ a₀, globalAdminOf t u = some a₀ ∧ ¬ drops t cmd (globalAdminKey u)) ∨
      (∃ salt hash ts, cmd = .globalAdminCreate u salt hash ts) ∧ validAccountUsername u ∧ globalAdminOf t u = none ∧
        ∀ g, t[projectAdminKey g]? ≠ none → ¬ eqIgnoreAsciiCase g u := by
  obtain ⟨hn, hrow⟩ := hs.row (credential_globalAdminKey u) (entity_exact.mp ha)
  rcases hrow with hrow | hp
  · exact .inl ⟨a, entity_exact.mpr hrow, hn⟩
  · generalize hk : globalAdminKey u = k at hp
    cases hp
    case createGa hv hnone hpa ha =>
      obtain rfl := globalAdminKey_inj.mp hk
      exact .inr ⟨⟨_, _, _, rfl⟩, hv, hnone, hpa⟩
    case passwordGa ha =>
      obtain rfl := globalAdminKey_inj.mp hk
      exact .inl ⟨_, ha, hn⟩

theorem CredentialStep.token (hs : CredentialStep t cmd t') {r : ProjectTokenRecord}
    (hr : tokenOf t' h = some r) :
    (∃ r₀, tokenOf t h = some r₀ ∧ r.project = r₀.project ∧ ¬ drops t cmd (dataTokenKey h)) ∨
      (∃ name o ts, cmd = .projectTokenCreate r.project name h o ts) ∧ projectOf t r.project ≠ none ∧
        tokenOf t h = none := by
  obtain ⟨hn, hrow⟩ := hs.row (credential_dataTokenKey h) (entity_exact.mp hr)
  rcases hrow with hrow | hp
  · exact .inl ⟨r, entity_exact.mpr hrow, rfl, hn⟩
  · generalize hk : dataTokenKey h = k at hp
    cases hp
    case createToken hp hnone hr =>
      obtain rfl := dataTokenKey_inj.mp hk
      obtain ⟨rfl, -⟩ := hr
      exact .inr ⟨⟨_, _, _, rfl⟩, hp, hnone⟩
    case revokeToken r hr =>
      subst hk
      exact .inl ⟨r, entity_exact.mpr hr, rfl, hn⟩

theorem credential_of_session (hw : WellPlaced t) {s : AdminSession} (h : sessionAt t k = some s) : CredentialKey k := by
  rcases hw _ _ (entity_exact.mp h) with rfl | ⟨sid, rfl⟩ | ⟨u, rfl⟩ | ⟨u, sid, rfl⟩ | ⟨u, sid, rfl⟩
  · exact credential_sess (by simp [segments_sessionKey])
  · exact credential_sess (by simp [segments_sessionKeyWith])
  · exact credential_paSession (.inl rfl)
  · exact credential_paSession (paSession_keyWith u sid)
  · exact credential_gaSession (gaSession_keyWith u sid)

/-- A session is from before, with the same principal, or somebody is being logged in. -/
theorem CredentialStep.session (hw : WellPlaced t') (hs : CredentialStep t cmd t') {s : AdminSession}
    (h : sessionAt t' k = some s) :
    (∃ s₀, sessionAt t k = some s₀ ∧ s.principal = s₀.principal ∧ ¬ drops t cmd k) ∨
      (k = sessionKey ∨ ∃ sid, k = sessionKeyWith sid) ∧ s.principal = .admin ∨
      (∃ u a, logsIn cmd = some (.project u) ∧ adminOf t u = some a ∧ PaSession u k ∧
        s.principal = .projectAdmin u a.project) ∨
      ∃ u a, logsIn cmd = some (.global u) ∧ globalAdminOf t u = some a ∧ GaSession u k ∧
        s.principal = .globalAdmin a.username := by
  obtain ⟨hn, hrow⟩ := hs.row (credential_of_session hw h) (entity_exact.mp h)
  rcases hrow with hrow | hp
  · exact .inl ⟨s, entity_exact.mpr hrow, rfl, hn⟩
  · cases hp with
    | adminLogin hk hp => exact .inr (.inl ⟨hk, hp⟩)
    | prolong hs => exact .inl ⟨_, entity_exact.mpr hs, rfl, hn⟩
    | paLogin hcmd ha hk hp => exact .inr (.inr (.inl ⟨_, _, hcmd, ha, hk, hp⟩))
    | gaLogin hcmd ha hk hp => exact .inr (.inr (.inr ⟨_, _, hcmd, ha, hk, hp⟩))

/-- An account that is not dropped is there after the command, with the same project. -/
theorem CredentialStep.admin_kept (hw : WellPlaced t') (hs : CredentialStep t cmd t') {a : ProjectAdminAccount}
    (ha : adminOf t u = some a) (hn : ¬ drops t cmd (projectAdminKey u)) :
    ∃ a', adminOf t' u = some a' ∧ a'.project = a.project := by
  rcases hs.kept _ (credential_projectAdminKey u) hn with e | ⟨v, -, hv⟩
  · exact ⟨a, by rw [adminOf, entity_congr e]; exact ha, rfl⟩
  · rcases placed_adm (hw _ _ hv) (by rw [segments_projectAdminKey]; rfl) with ⟨a', rfl, -⟩ | ⟨a', rfl, e⟩
    · have ha' : adminOf t' u = some a' := entity_exact.mpr hv
      refine ⟨a', ha', ?_⟩
      rcases hs.admin ha' with ⟨a₀, h₀, hp, -⟩ | ⟨-, -, -, hnone, -⟩
      · rw [hp, Option.some.inj (h₀.symm.trans ha)]
      · rw [ha] at hnone
        cases hnone
    · exact absurd e projectAdminKey_ne_globalAdminKey

theorem CredentialStep.globalAdmin_kept (hw : WellPlaced t') (hs : CredentialStep t cmd t') {a : GlobalAdminAccount}
    (ha : globalAdminOf t u = some a) (hn : ¬ drops t cmd (globalAdminKey u)) : ∃ a', globalAdminOf t' u = some a' := by
  rcases hs.kept _ (credential_globalAdminKey u) hn with e | ⟨v, -, hv⟩
  · exact ⟨a, by rw [globalAdminOf, entity_congr e]; exact ha⟩
  · rcases placed_adm (hw _ _ hv) (by rw [segments_globalAdminKey]; rfl) with ⟨a', rfl, e⟩ | ⟨a', rfl, -⟩
    · exact absurd e.symm projectAdminKey_ne_globalAdminKey
    · exact ⟨a', entity_exact.mpr hv⟩

end

end Defing
