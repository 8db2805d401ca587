import Defing.State.Chain
import Defing.State.Isolation

/-!
# Sessions, accounts and tokens

What a command does to their rows: those it drops, and the one it puts, with
what it has checked before.
-/

namespace Defing

open KV (Prog Plain segments)

/-! ## Their keys -/

def CredentialKey (k : String) : Prop := ∃ a ∈ ["sess", "adm", "tok"], (segments k).head? = some a

/-- The sessions of a project administrator: the single one of old logs, and those below the stem. -/
def PaSession (u k : String) : Prop := k = paSessionKey u ∨ startsWith (paSessionPrefix u) k

def GaSession (u k : String) : Prop := startsWith (gaSessionPrefix u) k

section
variable {k u : String}

theorem CredentialKey.account (h : CredentialKey k) : AccountKey k := by
  obtain ⟨a, ha, hk⟩ := h
  refine ⟨a, ?_, hk⟩
  simp only [List.mem_cons, List.not_mem_nil, or_false] at ha ⊢
  rcases ha with rfl | rfl | rfl <;> simp

/-- A key below a stem that begins with a complete segment begins with it, too. -/
theorem head_of_startsWith {stem : String} {a : String} (h : startsWith stem k)
    (e : ∃ rest, ∀ c, stem.toList ++ c = a.toList ++ '/' :: (rest ++ c)) (ha : Plain a) :
    (segments k).head? = some a := by
  obtain ⟨rest, e⟩ := e
  obtain ⟨c, hc⟩ := startsWith_iff.mp h
  rw [KV.segments_of [a] (String.ofList (rest ++ c)) (by rw [← hc, e]; simp [KV.under]) (by simpa using ha)]
  rfl

theorem head_paSession (h : PaSession u k) : (segments k).head? = some "sess" := by
  rcases h with rfl | h
  · rw [segments_paSessionKey]
    rfl
  · exact head_of_startsWith h ⟨"pa/".toList ++ u.toList ++ ['/'], by simp [paSessionPrefix, kPaSession]⟩ (by simp [Plain])

theorem head_gaSession (h : GaSession u k) : (segments k).head? = some "sess" :=
  head_of_startsWith h ⟨"ga/".toList ++ u.toList ++ ['/'], by simp [gaSessionPrefix, kGaSession]⟩ (by simp [Plain])

theorem head_kSessionPrefix (h : startsWith kSessionPrefix k) : (segments k).head? = some "sess" :=
  head_of_startsWith h ⟨"admin/".toList, by simp [kSessionPrefix]⟩ (by simp [Plain])

theorem credential_sess (h : (segments k).head? = some "sess") : CredentialKey k := ⟨"sess", by simp, h⟩

theorem credential_projectAdminKey (u : String) : CredentialKey (projectAdminKey u) := by
  simp [CredentialKey, segments_projectAdminKey]

theorem credential_globalAdminKey (u : String) : CredentialKey (globalAdminKey u) := by
  simp [CredentialKey, segments_globalAdminKey]

theorem credential_dataTokenKey (h : String) : CredentialKey (dataTokenKey h) := by
  simp [CredentialKey, segments_dataTokenKey]

theorem not_credential_projectKey (id : ProjectId) (h : startsWith (projectKey id) k) : ¬ CredentialKey k := by
  intro ⟨a, ha, hk⟩
  have hp : startsWith kProject k := startsWith_iff.mpr (List.IsPrefix.trans (by simp [projectKey]) (startsWith_iff.mp h))
  obtain ⟨tail, ht⟩ : ∃ tail, segments k = ["p"] ++ tail :=
    segments_of_startsWith hp (fun c => by simp [KV.under, kProject]) (by simp [Plain])
  rw [ht] at hk
  obtain rfl := Option.some.inj hk
  simp at ha

theorem not_credential_idxPname (name : String) : ¬ CredentialKey (idxPname name) := by
  simp [CredentialKey, segments_idxPname]

theorem not_credential_sharedDraftKey (key : String) : ¬ CredentialKey (sharedDraftKey key) := by
  simp [CredentialKey, segments_sharedDraftKey]

theorem credential_paSession {u k : String} (h : PaSession u k) : CredentialKey k := credential_sess (head_paSession h)

theorem credential_gaSession {u k : String} (h : GaSession u k) : CredentialKey k := credential_sess (head_gaSession h)

theorem gaSession_keyWith (u sid : String) : GaSession u (gaSessionKeyWith u sid) :=
  startsWith_iff.mpr (by simp [gaSessionPrefix, gaSessionKeyWith])

theorem paSession_keyWith (u sid : String) : PaSession u (paSessionKeyWith u sid) :=
  .inr (startsWith_iff.mpr (by simp [paSessionPrefix, paSessionKeyWith]))

theorem projectAdminKey_inj {u u' : String} : projectAdminKey u = projectAdminKey u' ↔ u = u' := by
  rw [← String.toList_inj, ← String.toList_inj]
  simp [projectAdminKey]

theorem globalAdminKey_inj {u u' : String} : globalAdminKey u = globalAdminKey u' ↔ u = u' := by
  rw [← String.toList_inj, ← String.toList_inj]
  simp [globalAdminKey]

theorem dataTokenKey_inj {h h' : String} : dataTokenKey h = dataTokenKey h' ↔ h = h' := by
  rw [← String.toList_inj, ← String.toList_inj]
  simp [dataTokenKey]

end

/-! ## Erasures -/

def Erases (D : String → Prop) (s s' : State) : Prop := ∀ k : String, (D k → s'.kv[k]? = none) ∧ (¬ D k → s'.kv[k]? = s.kv[k]?)

section
variable {D D' : String → Prop} {s s' s'' : State} {α : Type}

theorem Erases.trans (h : Erases D s s') (h' : Erases D' s' s'') : Erases (fun k => D k ∨ D' k) s s'' := by
  intro k
  by_cases hk : D' k
  · exact ⟨fun _ => (h' k).1 hk, fun hn => absurd (.inr hk) hn⟩
  · rw [(h' k).2 hk]
    exact ⟨fun hor => (h k).1 (hor.resolve_right hk), fun hn => (h k).2 fun hD => hn (.inl hD)⟩

theorem Erases.congr (h : Erases D s s') (hD : ∀ k, D k ↔ D' k) : Erases D' s s' := by
  intro k
  rw [← hD k]
  exact h k

theorem erases_nothing (s : State) : Erases (fun _ => False) s s := fun _ => ⟨False.elim, fun _ => rfl⟩

theorem erases_erase (s : State) (a : String) : Erases (fun k => k = a) s (s.erase a) := by
  intro k
  rw [KV.Flat.erase_kv, KV.getElem?_erase]
  refine ⟨fun e => if_pos e.symm, fun hn => if_neg fun e => hn e.symm⟩

theorem erases_rows (s : State) (stem : String) :
    Erases (fun k => startsWith stem k) s (eraseAll s ((rowsUnder stem s.kv).map (·.1))) := by
  intro k
  rw [getElem?_eraseRows]
  exact ⟨fun h => if_pos h, fun h => if_neg h⟩

theorem forM_erases {f : α → M Unit} {D : α → String → Prop} (hf : ∀ a s, ∃ s', (f a).exec s = (.ok (), s') ∧ Erases (D a) s s')
    (l : List α) : ∀ s, ∃ s', (l.forM f).exec s = (.ok (), s') ∧ Erases (fun k => ∃ a ∈ l, D a k) s s' := by
  induction l with
  | nil => exact fun s => ⟨s, rfl, (erases_nothing s).congr fun k => by simp⟩
  | cons a l ih =>
    intro s
    obtain ⟨s₁, h₁, he₁⟩ := hf a s
    obtain ⟨s₂, h₂, he₂⟩ := ih s₁
    refine ⟨s₂, ?_, (he₁.trans he₂).congr fun k => by simp⟩
    change (f a >>= fun _ => l.forM f).exec s = _
    rw [Prog.exec_bind_of_ok h₁, h₂]

theorem deleteAllPaSessions_erases (u : String) (s : State) :
    ∃ s', (deleteAllPaSessions u).exec s = (.ok (), s') ∧ Erases (PaSession u) s s' :=
  ⟨_, by
    change (getPrefixMerged (paSessionPrefix u) >>= deleteRows).exec (s.erase (paSessionKey u)) = _
    rw [Prog.exec_bind_of_ok (getPrefixMerged_exec _), deleteRows_exec],
    (erases_erase s (paSessionKey u)).trans (erases_rows _ (paSessionPrefix u))⟩

theorem deleteAllGaSessions_erases (u : String) (s : State) :
    ∃ s', (deleteAllGaSessions u).exec s = (.ok (), s') ∧ Erases (GaSession u) s s' :=
  ⟨_, by
    change (getPrefixMerged (gaSessionPrefix u) >>= deleteRows).exec s = _
    rw [Prog.exec_bind_of_ok (getPrefixMerged_exec _), deleteRows_exec],
    erases_rows _ (gaSessionPrefix u)⟩

theorem deletePending_erases (key : String) (s : State) :
    ∃ s', (deletePending key).exec s = (.ok (), s') ∧ Erases (fun k => k = key) s s' := ⟨_, rfl, erases_erase s key⟩

end

variable [SerdeJson]

/-! ## Their rows -/

def adminOf (t : Store) (u : String) : Option ProjectAdminAccount := entity ProjectAdminAccount t (projectAdminKey u)

def globalAdminOf (t : Store) (u : String) : Option GlobalAdminAccount := entity GlobalAdminAccount t (globalAdminKey u)

def sessionAt (t : Store) (k : String) : Option AdminSession := entity AdminSession t k

def tokenOf (t : Store) (hash : String) : Option ProjectTokenRecord := entity ProjectTokenRecord t (dataTokenKey hash)

def projectOf (t : Store) (id : ProjectId) : Option Project := entity Project t (projectKey id)

inductive Account
  | project (username : String)
  | global (username : String)
  deriving DecidableEq

def logsIn : Command → Option Account
  | .paSessionLogin u .. => some (.project u)
  | .multiPaSessionLogin u .. => some (.project u)
  | .multiGaSessionLogin u .. => some (.global u)
  | _ => none

def issues : Command → Option String
  | .sessionLogin hash .. => some hash
  | .paSessionLogin _ hash .. => some hash
  | .multiSessionLogin hash .. => some hash
  | .multiPaSessionLogin _ hash .. => some hash
  | .multiGaSessionLogin _ hash .. => some hash
  | _ => none

def drops (t : Store) : Command → String → Prop
  | .sessionLogout, k => k = sessionKey
  | .multiSessionLogout sid, k => k = sessionKeyWith sid
  | .multiSessionLogoutAll, k => k = sessionKey ∨ startsWith kSessionPrefix k
  | .paSessionLogout u, k => k = paSessionKey u
  | .multiPaSessionLogout u sid, k => k = paSessionKeyWith u sid
  | .multiPaSessionLogoutAll u, k => PaSession u k
  | .projectAdminSetPassword u .., k => PaSession u k
  | .projectAdminDelete u, k => k = projectAdminKey u ∨ PaSession u k
  | .multiGaSessionLogout u sid, k => k = gaSessionKeyWith u sid
  | .multiGaSessionLogoutAll u, k => GaSession u k
  | .globalAdminSetPassword u .., k => GaSession u k
  | .globalAdminDelete u, k => k = globalAdminKey u ∨ GaSession u k
  | .globalAdminSessionsRevokeAll, k => ∃ u a, globalAdminOf t u = some a ∧ GaSession u k
  | .projectDelete id _, k =>
    (∃ u a, adminOf t u = some a ∧ a.project = id ∧ (k = projectAdminKey u ∨ PaSession u k)) ∨
      ∃ h r, tokenOf t h = some r ∧ r.project = id ∧ k = dataTokenKey h
  | _, _ => False

/-- The row of a session, an account or a token that a command puts, and what has been checked. -/
inductive Puts (t : Store) : Command → String → Stored → Prop
  | adminLogin {cmd : Command} {k : String} {s : AdminSession} (hk : k = sessionKey ∨ ∃ sid, k = sessionKeyWith sid)
      (hs : s.principal = .admin) (hacct : logsIn cmd = none) (hhash : issues cmd = some s.tokenHash) :
      Puts t cmd k (.session s)
  | prolong {cmd : Command} {k : String} {s : AdminSession} {e : Option Int} (hs : t[k]? = some (.session s)) :
      Puts t cmd k (.session { s with expiresAt := e })
  | paLogin {cmd : Command} {u k : String} {a : ProjectAdminAccount} {s : AdminSession}
      (hcmd : logsIn cmd = some (.project u)) (ha : adminOf t u = some a) (hk : PaSession u k)
      (hs : s.principal = .projectAdmin u a.project) (hhash : issues cmd = some s.tokenHash) : Puts t cmd k (.session s)
  | gaLogin {cmd : Command} {u k : String} {a : GlobalAdminAccount} {s : AdminSession}
      (hcmd : logsIn cmd = some (.global u)) (ha : globalAdminOf t u = some a) (hk : GaSession u k)
      (hs : s.principal = .globalAdmin a.username) (hhash : issues cmd = some s.tokenHash) : Puts t cmd k (.session s)
  | createPa {p : ProjectId} {u salt h : String} {ts : Int} {a : ProjectAdminAccount} (hv : validAccountUsername u)
      (hp : projectOf t p ≠ none) (hnone : adminOf t u = none)
      (hga : ∀ g, t[globalAdminKey g]? ≠ none → ¬ eqIgnoreAsciiCase g u) (ha : a.username = u ∧ a.project = p) :
      Puts t (.projectAdminCreate p u salt h ts) (projectAdminKey u) (.projectAdmin a)
  | passwordPa {u salt h : String} {a : ProjectAdminAccount} (ha : adminOf t u = some a) :
      Puts t (.projectAdminSetPassword u salt h) (projectAdminKey u) (.projectAdmin { a with salt, passwordHash := h })
  | createGa {u salt h : String} {ts : Int} {a : GlobalAdminAccount} (hv : validAccountUsername u)
      (hnone : globalAdminOf t u = none)
      (hpa : ∀ g, t[projectAdminKey g]? ≠ none → ¬ eqIgnoreAsciiCase g u) (ha : a.username = u) :
      Puts t (.globalAdminCreate u salt h ts) (globalAdminKey u) (.globalAdmin a)
  | passwordGa {u salt h : String} {a : GlobalAdminAccount} (ha : globalAdminOf t u = some a) :
      Puts t (.globalAdminSetPassword u salt h) (globalAdminKey u) (.globalAdmin { a with salt, passwordHash := h })
  | createToken {p : ProjectId} {n h o : String} {ts : Int} {r : ProjectTokenRecord} (hp : projectOf t p ≠ none)
      (hnone : tokenOf t h = none) (hr : r.project = p ∧ r.hash = h) :
      Puts t (.projectTokenCreate p n h o ts) (dataTokenKey h) (.token r)
  | revokeToken {p : ProjectId} {i k : String} {r : ProjectTokenRecord} (hr : t[k]? = some (.token r)) :
      Puts t (.projectTokenRevoke p i) k (.token { r with revoked := true })
  | adminPassword {h : String} : Puts t (.adminSetPassword h) kAdminPw (.text h)

/-- A command drops and puts the rows of sessions, accounts and tokens that it may, and no others. -/
structure CredentialStep (t : Store) (cmd : Command) (t' : Store) : Prop where
  dropped : ∀ k, drops t cmd k → t'[k]? = none
  kept : ∀ k, CredentialKey k → ¬ drops t cmd k → t'[k]? = t[k]? ∨ ∃ v, Puts t cmd k v ∧ t'[k]? = some v

section
variable {D : String → Prop} {s s' : State} {t : Store} {cmd : Command}

theorem CredentialStep.of_erases (h : Erases D ⟨t, []⟩ s') (hD : ∀ k, CredentialKey k → (D k ↔ drops t cmd k))
    (hdrops : ∀ k, drops t cmd k → CredentialKey k) : CredentialStep t cmd s'.kv where
  dropped k hk := (h k).1 ((hD k (hdrops k hk)).mpr hk)
  kept k hk hn := .inl ((h k).2 fun hd => hn ((hD k hk).mp hd))

theorem erasing_step {erase : M Unit} {events : List PublishEvent}
    (he : ∃ s', erase.exec ⟨t, []⟩ = (.ok (), s') ∧ Erases (drops t cmd) ⟨t, []⟩ s')
    (hdrops : ∀ k, drops t cmd k → CredentialKey k)
    (h : (erase >>= fun _ => pure []).exec ⟨t, []⟩ = (.ok events, s')) : CredentialStep t cmd s'.kv := by
  obtain ⟨_, s₁, h₁, h₂⟩ := Prog.exec_bind_ok.mp h
  obtain ⟨_, he, herases⟩ := he
  obtain ⟨-, rfl⟩ := Prod.mk.inj (he.symm.trans h₁)
  obtain ⟨-, rfl⟩ := pure_ok.mp h₂
  exact .of_erases herases (fun _ _ => Iff.rfl) hdrops

theorem CredentialStep.of_put {a : String} {v : Stored} (hput : Puts t cmd a v)
    (h : Erases (drops t cmd) ((⟨t, []⟩ : State).insert a v) s') : CredentialStep t cmd s'.kv where
  dropped k hk := (h k).1 hk
  kept k _ hn := by
    rw [(h k).2 hn, KV.Flat.insert_kv, KV.getElem?_insert]
    by_cases e : a = k
    · subst e
      exact .inr ⟨v, hput, if_pos rfl⟩
    · exact .inl (if_neg e)

end

/-! ## What each command does -/

section
variable {t : Store} {s s' : State} {cmd : Command} {now : Int} {events : List PublishEvent}

omit [SerdeJson] in
theorem usernameTaken_false {stem u : String} (h : (usernameTaken stem u).exec s = (.ok false, s')) :
    s' = s ∧ ∀ g, s.kv[stem ++ g]? ≠ none → ¬ eqIgnoreAsciiCase g u := by
  simp only [usernameTaken, Prog.exec_bind_ok] at h
  obtain ⟨rows, _, h₀, h₁⟩ := h
  obtain ⟨rfl, rfl⟩ := getPrefixMerged_ok.mp h₀
  obtain ⟨hany, rfl⟩ := pure_ok.mp h₁
  refine ⟨rfl, fun g hg heq => ?_⟩
  obtain ⟨v, hv⟩ := Option.ne_none_iff_exists'.mp hg
  refine Bool.false_ne_true (hany.symm.trans (List.any_eq_true.mpr ⟨(stem ++ g, v), ?_, ?_⟩))
  · exact mem_rowsUnder.mpr ⟨startsWith_iff.mpr (by simp), hv⟩
  · rw [stripPrefix_append, Option.any_some]
    exact heq

theorem put_step {a : String} {v : Stored} (hput : Puts t cmd a v) (hd : ∀ k, ¬ drops t cmd k) :
    CredentialStep t cmd (t.insert a v) :=
  have he : Erases (drops t cmd) ((⟨t, []⟩ : State).insert a v) ((⟨t, []⟩ : State).insert a v) :=
    (erases_nothing _).congr fun k => iff_of_false id (hd k)
  CredentialStep.of_put hput he

theorem heartbeat_step {key m : String} {e : Option Int} (hd : ∀ k, ¬ drops t cmd k)
    (h : (heartbeat key e m).exec ⟨t, []⟩ = (.ok events, s)) : CredentialStep t cmd s.kv := by
  simp only [heartbeat, Prog.exec_bind_ok] at h
  obtain ⟨o, _, h₀, session, _, h₁, _, _, h₂, h₃⟩ := h
  obtain ⟨hrow, rfl⟩ := loadMerged_exact.mp h₀
  obtain ⟨rfl, rfl⟩ := okOr_ok.mp h₁
  cases savePending_ok.mp h₂
  obtain ⟨-, rfl⟩ := pure_ok.mp h₃
  exact put_step (.prolong hrow) hd

theorem openSession_ok {α : Type} [Codec α] [Codec.Exact α] {key k : String} {err : Error} {f : α → AdminSession} :
    (loadMerged key >>= fun o => okOr o err >>= fun a => savePending k (f a) >>= fun _ => pure []).exec s = (.ok events, s') ↔
      ∃ a : α, entity α s.kv key = some a ∧ events = [] ∧ s' = s.insert k (.session (f a)) := by
  simp only [Prog.exec_bind_ok]
  constructor
  · intro h
    obtain ⟨o, _, h₀, a, _, h₁, _, _, h₂, h₃⟩ := h
    obtain ⟨hrow, rfl⟩ := loadMerged_exact.mp h₀
    obtain ⟨rfl, rfl⟩ := okOr_ok.mp h₁
    cases savePending_ok.mp h₂
    obtain ⟨rfl, rfl⟩ := pure_ok.mp h₃
    exact ⟨a, entity_exact.mpr hrow, rfl, rfl⟩
  · rintro ⟨a, ha, rfl, rfl⟩
    exact ⟨some a, s, loadMerged_exact.mpr ⟨entity_exact.mp ha, rfl⟩, a, s, okOr_ok.mpr ⟨rfl, rfl⟩, (), _,
      savePending_exec _ _, pure_ok.mpr ⟨rfl, rfl⟩⟩

/-- An account that is there is put with another password, and its sessions are dropped. -/
theorem setPassword_step {α : Type} [Codec α] [Codec.Exact α] {key : String} {err : Error} {g : α → α} {dropSessions : M Unit}
    (hput : ∀ a, entity α t key = some a → Puts t cmd key (Codec.encode (g a)))
    (hdrop : ∀ s, ∃ s', dropSessions.exec s = (.ok (), s') ∧ Erases (drops t cmd) s s')
    (h : (load key >>= fun o => okOr o err >>= fun a => savePending key (g a) >>= fun _ => dropSessions >>= fun _ =>
      pure []).exec ⟨t, []⟩ = (.ok events, s)) : CredentialStep t cmd s.kv := by
  simp only [Prog.exec_bind_ok] at h
  obtain ⟨o, _, h₀, a, _, h₁, _, _, h₂, _, _, h₃, h₄⟩ := h
  obtain ⟨hrow, rfl⟩ := load_exact.mp h₀
  obtain ⟨rfl, rfl⟩ := okOr_ok.mp h₁
  cases savePending_ok.mp h₂
  obtain ⟨s₃, he, herases⟩ := hdrop ((⟨t, []⟩ : State).insert key (Codec.encode (g a)))
  obtain ⟨-, rfl⟩ := Prod.mk.inj (he.symm.trans h₃)
  obtain ⟨-, rfl⟩ := pure_ok.mp h₄
  exact .of_put (hput a (entity_exact.mpr hrow)) herases

theorem deleteAccount_step {α : Type} [Codec α] [Codec.Exact α] [DecidableEq α] {key : String} {err : Error} {first second : M Unit}
    {D D' : String → Prop} (hfirst : ∀ s, ∃ s', first.exec s = (.ok (), s') ∧ Erases D s s')
    (hsecond : ∀ s, ∃ s', second.exec s = (.ok (), s') ∧ Erases D' s s') (hD : ∀ k, D k ∨ D' k ↔ drops t cmd k)
    (hkey : ∀ k, drops t cmd k → CredentialKey k)
    (h : (load key >>= fun o : Option α => ensure (o ≠ none) err >>= fun _ => first >>= fun _ => second >>= fun _ =>
      pure []).exec ⟨t, []⟩ = (.ok events, s)) : CredentialStep t cmd s.kv := by
  simp only [Prog.exec_bind_ok] at h
  obtain ⟨o, _, h₀, _, _, h₁, _, _, h₂, _, _, h₃, h₄⟩ := h
  obtain ⟨-, rfl⟩ := load_exact.mp h₀
  obtain ⟨-, rfl⟩ := ensure_ok.mp h₁
  obtain ⟨s₁, he₁, herases₁⟩ := hfirst ⟨t, []⟩
  obtain ⟨-, rfl⟩ := Prod.mk.inj (he₁.symm.trans h₂)
  obtain ⟨s₂, he₂, herases₂⟩ := hsecond s₁
  obtain ⟨-, rfl⟩ := Prod.mk.inj (he₂.symm.trans h₃)
  obtain ⟨-, rfl⟩ := pure_ok.mp h₄
  exact .of_erases (herases₁.trans herases₂) (fun k _ => hD k) hkey

theorem applySessionLogin_step {hash : String} {i : Int} {e : Option Int}
    (h : execute (.sessionLogin hash i e) now t = (.ok events, s)) : CredentialStep t (.sessionLogin hash i e) s.kv := by
  simp only [execute, applyInner, applySessionLogin, Prog.exec_bind_ok] at h
  obtain ⟨o, _, h₀, _, _, h₁, _, _, h₂, h₃⟩ := h
  obtain ⟨-, rfl⟩ := loadMerged_exact.mp h₀
  obtain ⟨-, rfl⟩ := ensure_ok.mp h₁
  cases savePending_ok.mp h₂
  obtain ⟨-, rfl⟩ := pure_ok.mp h₃
  exact put_step (.adminLogin (.inl rfl) rfl rfl rfl) fun _ => id

theorem applyMultiSessionLogoutAll_step (h : execute .multiSessionLogoutAll now t = (.ok events, s)) :
    CredentialStep t .multiSessionLogoutAll s.kv := by
  simp only [execute, applyInner, applyMultiSessionLogoutAll, Prog.exec_bind_ok] at h
  obtain ⟨_, _, h₀, rows, _, h₁, _, _, h₂, h₃⟩ := h
  cases deletePending_ok.mp h₀
  obtain ⟨rfl, rfl⟩ := getPrefixMerged_ok.mp h₁
  cases deleteRows_ok.mp h₂
  obtain ⟨-, rfl⟩ := pure_ok.mp h₃
  refine .of_erases ((erases_erase _ sessionKey).trans (erases_rows _ kSessionPrefix)) (fun _ _ => Iff.rfl) fun k hk => ?_
  rcases hk with rfl | hk
  · simp [CredentialKey, segments_sessionKey]
  · exact credential_sess (head_kSessionPrefix hk)

/-! ### Project administrators -/

theorem applyProjectAdminCreate_step {p : ProjectId} {u salt hash : String} {ts : Int}
    (h : execute (.projectAdminCreate p u salt hash ts) now t = (.ok events, s)) :
    CredentialStep t (.projectAdminCreate p u salt hash ts) s.kv := by
  simp only [execute, applyInner, applyProjectAdminCreate, Prog.exec_bind_ok] at h
  obtain ⟨_, _, h₀, owner, _, h₁, _, _, h₂, old, _, h₃, _, _, h₄, taken, _, h₅, _, _, h₆, _, _, h₇, h₈⟩ := h
  obtain ⟨hv, rfl⟩ := ensure_ok.mp h₀
  obtain ⟨howner, rfl⟩ := load_exact.mp h₁
  obtain ⟨hsome, rfl⟩ := ensure_ok.mp h₂
  obtain ⟨hold, rfl⟩ := load_exact.mp h₃
  obtain ⟨rfl, rfl⟩ := ensure_ok.mp h₄
  obtain ⟨hseen, hs₅⟩ : taken = false ∧ _ = _ := ensure_ok.mp h₆
  subst hseen
  obtain ⟨rfl, hfree⟩ := usernameTaken_false h₅
  subst hs₅
  cases savePending_ok.mp h₇
  obtain ⟨-, rfl⟩ := pure_ok.mp h₈
  obtain ⟨owner, rfl⟩ := Option.ne_none_iff_exists'.mp hsome
  refine put_step (.createPa hv ?_ ?_ hfree ⟨rfl, rfl⟩) fun _ => id
  · rw [projectOf, entity_exact.mpr howner]
    simp
  · rw [adminOf, entity, show t[projectAdminKey u]? = none from hold]
    rfl

theorem applyProjectAdminDelete_step {u : String} (h : execute (.projectAdminDelete u) now t = (.ok events, s)) :
    CredentialStep t (.projectAdminDelete u) s.kv := by
  refine deleteAccount_step (deleteAllPaSessions_erases u) (deletePending_erases (projectAdminKey u)) (fun _ => or_comm) ?_ h
  rintro k (rfl | hk)
  · exact credential_projectAdminKey u
  · exact credential_paSession hk

theorem applyProjectAdminSetPassword_step {u salt hash : String}
    (h : execute (.projectAdminSetPassword u salt hash) now t = (.ok events, s)) :
    CredentialStep t (.projectAdminSetPassword u salt hash) s.kv :=
  setPassword_step (fun _ ha => .passwordPa ha) (deleteAllPaSessions_erases u) h

theorem applyPaSessionLogin_step {u hash d : String} {i : Int} {e : Option Int}
    (h : execute (.paSessionLogin u hash i e d) now t = (.ok events, s)) :
    CredentialStep t (.paSessionLogin u hash i e d) s.kv := by
  simp only [execute, applyInner, applyPaSessionLogin, Prog.exec_bind_ok] at h
  obtain ⟨old, _, h₀, _, _, h₁, o, _, h₂, acct, _, h₃, _, _, h₄, h₅⟩ := h
  obtain ⟨-, rfl⟩ := load_exact.mp h₀
  obtain ⟨-, rfl⟩ := ensure_ok.mp h₁
  obtain ⟨hrow, rfl⟩ := load_exact.mp h₂
  obtain ⟨rfl, rfl⟩ := okOr_ok.mp h₃
  cases savePending_ok.mp h₄
  obtain ⟨-, rfl⟩ := pure_ok.mp h₅
  exact put_step (.paLogin rfl (entity_exact.mpr hrow) (.inl rfl) rfl rfl) fun _ => id

theorem applyPaSessionHeartbeat_step {u : String} {e : Option Int}
    (h : execute (.paSessionHeartbeat u e) now t = (.ok events, s)) :
    CredentialStep t (.paSessionHeartbeat u e) s.kv := by
  simp only [execute, applyInner, applyPaSessionHeartbeat, Prog.exec_bind_ok] at h
  obtain ⟨o, _, h₀, session, _, h₁, _, _, h₂, h₃⟩ := h
  obtain ⟨hrow, rfl⟩ := load_exact.mp h₀
  obtain ⟨rfl, rfl⟩ := okOr_ok.mp h₁
  cases savePending_ok.mp h₂
  obtain ⟨-, rfl⟩ := pure_ok.mp h₃
  exact put_step (.prolong hrow) fun _ => id

theorem applyMultiPaSessionLogin_step {u hash d sid : String} {i : Int} {e : Option Int}
    (h : execute (.multiPaSessionLogin u hash i e d sid) now t = (.ok events, s)) :
    CredentialStep t (.multiPaSessionLogin u hash i e d sid) s.kv := by
  obtain ⟨a, ha, -, rfl⟩ := openSession_ok.mp h
  exact put_step (.paLogin rfl ha (paSession_keyWith u sid) rfl rfl) fun _ => id

/-! ### Global administrators -/

theorem applyGlobalAdminCreate_step {u salt hash : String} {ts : Int}
    (h : execute (.globalAdminCreate u salt hash ts) now t = (.ok events, s)) :
    CredentialStep t (.globalAdminCreate u salt hash ts) s.kv := by
  simp only [execute, applyInner, applyGlobalAdminCreate, Prog.exec_bind_ok] at h
  obtain ⟨_, _, h₀, old, _, h₁, _, _, h₂, taken, _, h₃, _, _, h₄, _, _, h₅, h₆⟩ := h
  obtain ⟨hv, rfl⟩ := ensure_ok.mp h₀
  obtain ⟨hold, rfl⟩ := load_exact.mp h₁
  obtain ⟨rfl, rfl⟩ := ensure_ok.mp h₂
  obtain ⟨hseen, hs₄⟩ : taken = false ∧ _ = _ := ensure_ok.mp h₄
  subst hseen
  obtain ⟨rfl, hfree⟩ := usernameTaken_false h₃
  subst hs₄
  cases savePending_ok.mp h₅
  obtain ⟨-, rfl⟩ := pure_ok.mp h₆
  refine put_step (.createGa hv ?_ hfree rfl) fun _ => id
  rw [globalAdminOf, entity, show t[globalAdminKey u]? = none from hold]
  rfl

theorem applyGlobalAdminDelete_step {u : String} (h : execute (.globalAdminDelete u) now t = (.ok events, s)) :
    CredentialStep t (.globalAdminDelete u) s.kv := by
  refine deleteAccount_step (deletePending_erases (globalAdminKey u)) (deleteAllGaSessions_erases u) (fun _ => Iff.rfl) ?_ h
  rintro k (rfl | hk)
  · exact credential_globalAdminKey u
  · exact credential_gaSession hk

theorem applyGlobalAdminSetPassword_step {u salt hash : String}
    (h : execute (.globalAdminSetPassword u salt hash) now t = (.ok events, s)) :
    CredentialStep t (.globalAdminSetPassword u salt hash) s.kv :=
  setPassword_step (fun _ ha => .passwordGa ha) (deleteAllGaSessions_erases u) h

theorem applyMultiGaSessionLogin_step {u hash d sid : String} {i : Int} {e : Option Int}
    (h : execute (.multiGaSessionLogin u hash i e d sid) now t = (.ok events, s)) :
    CredentialStep t (.multiGaSessionLogin u hash i e d sid) s.kv := by
  obtain ⟨a, ha, -, rfl⟩ := openSession_ok.mp h
  exact put_step (.gaLogin rfl ha (gaSession_keyWith u sid) rfl rfl) fun _ => id

omit [SerdeJson] in
/-- The rows below `adm` are those of accounts, and no key is of two kinds. -/
theorem placed_adm {k : String} {v : Stored} (h : Placed k v) (hk : (segments k).head? = some "adm") :
    (∃ a, v = .projectAdmin a ∧ k = projectAdminKey a.username) ∨ ∃ a, v = .globalAdmin a ∧ k = globalAdminKey a.username := by
  have hs := h.shape
  cases v
  case projectAdmin a => exact .inl ⟨a, rfl, h.2⟩
  case globalAdmin a => exact .inr ⟨a, rfl, h.2⟩
  case text => rcases h with rfl | ⟨-, _, rfl⟩ <;> simp [segments_kAdminPw, segments_idxPname] at hk
  case session =>
    rcases h with rfl | ⟨_, rfl⟩ | ⟨_, rfl⟩ | ⟨_, _, rfl⟩ | ⟨_, _, rfl⟩ <;>
      simp [segments_sessionKey, segments_sessionKeyWith, segments_paSessionKey, segments_paSessionKeyWith,
        segments_gaSessionKeyWith] at hk
  case token => obtain rfl := h; simp [segments_dataTokenKey] at hk
  case audit => obtain rfl := h; simp [segments_auditKey] at hk
  case number => obtain rfl := h; simp [segments_kAuditSeq] at hk
  case shared => simp [Shape, hk] at hs
  case project => simp [show segments k = _ from hs] at hk
  case «structure» => obtain ⟨_, hs⟩ := hs; simp [hs] at hk
  case structureDraft => obtain ⟨_, hs⟩ := hs; simp [hs] at hk
  case branchState => obtain ⟨_, _, hs⟩ := hs; simp [hs] at hk
  case version => obtain ⟨_, _, hs⟩ := hs; simp [hs] at hk
  case snapshot => obtain ⟨_, _, _, ⟨-, hs⟩ | hs⟩ := hs <;> simp [hs] at hk
  case diff => obtain ⟨_, _, _, -, hs⟩ := hs; simp [hs] at hk

theorem globalAdminOf_username (ht : WellPlaced t) {u : String} {a : GlobalAdminAccount} (h : globalAdminOf t u = some a) :
    validAccountUsername u ∧ a.username = u := by
  obtain ⟨hv, hk⟩ := ht _ _ (entity_exact.mp h)
  have hu := globalAdminKey_inj.mp hk
  exact ⟨hu ▸ hv, hu.symm⟩

theorem adminOf_username (ht : WellPlaced t) {u : String} {a : ProjectAdminAccount} (h : adminOf t u = some a) :
    validAccountUsername u ∧ a.username = u := by
  obtain ⟨hv, hk⟩ := ht _ _ (entity_exact.mp h)
  have hu := projectAdminKey_inj.mp hk
  exact ⟨hu ▸ hv, hu.symm⟩

theorem mem_parsed {α : Type} [Codec α] {stem : String} {a : α} :
    a ∈ parsed (α := α) (rowsUnder stem t) ↔ ∃ k, startsWith stem k ∧ entity α t k = some a := by
  simp only [parsed, List.mem_filterMap, Prod.exists, mem_rowsUnder, entity, Option.bind_eq_some_iff]
  constructor
  · intro h
    obtain ⟨k, v, ⟨hk, hv⟩, hd⟩ := h
    exact ⟨k, hk, v, hv, hd⟩
  · intro h
    obtain ⟨k, hk, v, hv, hd⟩ := h
    exact ⟨k, v, ⟨hk, hv⟩, hd⟩

theorem listProjectAdmins_exec (hs : WellPlaced s.kv) (id : ProjectId) :
    ∃ admins, (listProjectAdmins id).exec s = (.ok admins, s) ∧
      ∀ a, a ∈ admins ↔ adminOf s.kv a.username = some a ∧ a.project = id := by
  refine ⟨_, rfl, fun a => ?_⟩
  change a ∈ (((parsed (rowsUnder kPaAccount s.kv)).filter fun (a : ProjectAdminAccount) => a.project = id).insertionSort _) ↔ _
  rw [List.mem_insertionSort, List.mem_filter, mem_parsed, decide_eq_true_eq]
  refine and_congr_left fun _ => ⟨fun ⟨k, _, hk⟩ => ?_, fun h => ⟨_, startsWith_iff.mpr (by simp [projectAdminKey]), h⟩⟩
  obtain ⟨-, rfl⟩ := hs _ _ (entity_exact.mp hk)
  exact hk

omit [SerdeJson] in
theorem erases_deleteRows (rows : List (String × Stored)) (s : State) :
    ∃ s', (deleteRows rows).exec s = (.ok (), s') ∧ Erases (fun k => k ∈ rows.map (·.1)) s s' := by
  refine ⟨_, deleteRows_exec rows, fun k => ?_⟩
  rw [getElem?_eraseAll]
  exact ⟨fun h => if_pos h, fun h => if_neg h⟩

def OfProject (t : Store) (id : ProjectId) (k : String) : Prop :=
  (∃ u a, adminOf t u = some a ∧ a.project = id ∧ (k = projectAdminKey u ∨ PaSession u k)) ∨
    ∃ h r, tokenOf t h = some r ∧ r.project = id ∧ k = dataTokenKey h

omit [SerdeJson] in
theorem not_paSession_dataTokenKey {u h : String} : ¬ PaSession u (dataTokenKey h) := by
  intro hk
  obtain ⟨a, ha, he⟩ := credential_paSession hk
  rcases hk with hk | hk
  · have := congrArg segments hk
    simp [segments_dataTokenKey, segments_paSessionKey] at this
  · obtain ⟨c, hc⟩ := startsWith_iff.mp hk
    simp [paSessionPrefix, kPaSession, dataTokenKey, kDataToken] at hc

theorem deleteAccounts_erases (hs : WellPlaced s.kv) (id : ProjectId) :
    ∃ s', (deleteAccounts id).exec s = (.ok (), s') ∧ Erases (OfProject s.kv id) s s' := by
  obtain ⟨admins, hadmins, hmem⟩ := listProjectAdmins_exec hs id
  obtain ⟨s₁, h₁, he₁⟩ := forM_erases (f := fun acct : ProjectAdminAccount => do
      deleteAllPaSessions acct.username
      deletePending (projectAdminKey acct.username))
    (D := fun a k => PaSession a.username k ∨ k = projectAdminKey a.username) (fun a s => by
      obtain ⟨s', h, he⟩ := deleteAllPaSessions_erases a.username s
      exact ⟨_, by rw [Prog.exec_bind_of_ok h, deletePending_exec], he.trans (erases_erase _ _)⟩) admins s
  rw [deleteAccounts, Prog.exec_bind_of_ok hadmins, Prog.exec_bind_of_ok h₁,
    Prog.exec_bind_of_ok (getPrefixMerged_exec kDataToken)]
  refine (erases_deleteRows _ s₁).imp fun s₂ h₂ => ⟨h₂.1, (he₁.trans h₂.2).congr fun k => or_congr ?_ ?_⟩
  · constructor
    · intro h
      obtain ⟨a, ha, hk⟩ := h
      obtain ⟨ha, hp⟩ := (hmem a).mp ha
      exact ⟨_, a, ha, hp, hk.symm⟩
    · intro h
      obtain ⟨u, a, ha, hp, hk⟩ := h
      obtain ⟨-, rfl⟩ := adminOf_username hs ha
      exact ⟨a, (hmem a).mpr ⟨ha, hp⟩, hk.symm⟩
  · -- the rows of tokens are still the ones from before
    have hrow : ∀ h, s₁.kv[dataTokenKey h]? = s.kv[dataTokenKey h]? := fun h => (he₁ _).2 fun hdel => by
      obtain ⟨a, _, hk⟩ := hdel
      rcases hk with hk | hk
      · exact not_paSession_dataTokenKey hk
      · have := congrArg segments hk
        simp [segments_dataTokenKey, segments_projectAdminKey] at this
    simp only [List.mem_map, List.mem_filter, Prod.exists, exists_and_right, exists_eq_right, mem_rowsUnder]
    constructor
    · intro h
      obtain ⟨v, ⟨hk, hv⟩, hm⟩ := h
      cases hd : (Codec.decode v : Option ProjectTokenRecord) with
      | none => rw [hd] at hm; cases hm
      | some r =>
        rw [hd, decide_eq_true_eq] at hm
        rw [decode_exact.mp hd] at hv
        obtain ⟨h, hh⟩ : ∃ h, k = dataTokenKey h := by
          obtain ⟨c, hc⟩ := startsWith_iff.mp hk
          exact ⟨String.ofList c, String.toList_inj.mp (by rw [← hc]; simp [dataTokenKey])⟩
        subst hh
        exact ⟨h, r, entity_exact.mpr ((hrow h).symm.trans hv), hm, rfl⟩
    · rintro ⟨h, r, hr, hp, rfl⟩
      refine ⟨Codec.encode r, ⟨startsWith_iff.mpr (by simp [dataTokenKey]), ?_⟩, ?_⟩
      · rw [hrow]
        exact entity_exact.mp hr
      · rw [decode_encode_exact]
        exact decide_eq_true hp

/-! ### Tokens and the audit log -/

theorem applyProjectTokenCreate_step {p : ProjectId} {n hash o : String} {ts : Int}
    (h : execute (.projectTokenCreate p n hash o ts) now t = (.ok events, s)) :
    CredentialStep t (.projectTokenCreate p n hash o ts) s.kv := by
  simp only [execute, applyInner, applyProjectTokenCreate, Prog.exec_bind_ok] at h
  obtain ⟨_, _, h₀, owner, _, h₁, _, _, h₂, old, _, h₃, h⟩ := h
  obtain ⟨-, rfl⟩ := ensure_ok.mp h₀
  obtain ⟨howner, rfl⟩ := load_exact.mp h₁
  obtain ⟨hsome, rfl⟩ := ensure_ok.mp h₂
  obtain ⟨hold, rfl⟩ := load_exact.mp h₃
  cases old with
  | some r =>
    -- the same token again
    obtain ⟨-, rfl⟩ := pure_ok.mp h
    exact ⟨fun _ => False.elim, fun _ _ _ => .inl rfl⟩
  | none =>
    rw [Option.isSome_none, if_neg Bool.false_ne_true] at h
    simp only [Prog.exec_bind_ok] at h
    obtain ⟨rows, _, h₄, _, _, h₅, _, _, h₆, h₇⟩ := h
    obtain ⟨-, rfl⟩ := getPrefixMerged_ok.mp h₄
    obtain ⟨-, rfl⟩ := ensure_ok.mp h₅
    cases savePending_ok.mp h₆
    obtain ⟨-, rfl⟩ := pure_ok.mp h₇
    obtain ⟨owner, rfl⟩ := Option.ne_none_iff_exists'.mp hsome
    refine put_step (.createToken ?_ ?_ ⟨rfl, rfl⟩) fun _ => id
    · rw [projectOf, entity_exact.mpr howner]
      simp
    · rw [tokenOf, entity, show t[dataTokenKey hash]? = none from hold]
      rfl

theorem applyProjectTokenRevoke_step {p : ProjectId} {i : String}
    (h : execute (.projectTokenRevoke p i) now t = (.ok events, s)) :
    CredentialStep t (.projectTokenRevoke p i) s.kv := by
  simp only [execute, applyInner, applyProjectTokenRevoke, Prog.exec_bind_ok] at h
  obtain ⟨rows, _, h₀, row, _, h₁, o, _, h₂, r, _, h₃, h⟩ := h
  obtain ⟨-, rfl⟩ := getPrefixMerged_ok.mp h₀
  obtain ⟨-, rfl⟩ := okOr_ok.mp h₁
  obtain ⟨hrow, rfl⟩ := load_exact.mp h₂
  obtain ⟨rfl, rfl⟩ := okOr_ok.mp h₃
  by_cases hr : r.revoked
  · rw [if_pos hr] at h
    obtain ⟨-, rfl⟩ := pure_ok.mp h
    exact ⟨fun _ => False.elim, fun _ _ _ => .inl rfl⟩
  · rw [if_neg hr] at h
    obtain ⟨_, _, h₄, h₅⟩ := Prog.exec_bind_ok.mp h
    cases savePending_ok.mp h₄
    obtain ⟨-, rfl⟩ := pure_ok.mp h₅
    exact put_step (.revokeToken hrow) fun _ => id

theorem applyAuditAppend_step {entry : AuditEntry} (h : execute (.auditAppend entry) now t = (.ok events, s)) :
    CredentialStep t (.auditAppend entry) s.kv := by
  simp only [execute, applyInner, applyAuditAppend, Prog.exec_bind_ok] at h
  obtain ⟨prev, _, h₀, _, _, h₁, _, _, h₂, h₃⟩ := h
  obtain ⟨-, rfl⟩ := loadMerged_exact.mp h₀
  cases savePending_ok.mp h₁
  cases savePending_ok.mp h₂
  obtain ⟨-, rfl⟩ := pure_ok.mp h₃
  refine ⟨fun _ => False.elim, fun k hk _ => .inl ?_⟩
  have haudit : ¬ CredentialKey kAuditSeq ∧ ∀ n, ¬ CredentialKey (auditKey n) := by
    simp [CredentialKey, segments_kAuditSeq, segments_auditKey]
  have hseq : kAuditSeq ≠ k := by
    intro e
    exact haudit.1 (e.symm ▸ hk)
  have hrow : ∀ n, auditKey n ≠ k := by
    intro n e
    exact haudit.2 n (e.symm ▸ hk)
  rw [KV.Flat.insert_kv, KV.getElem?_insert_ne _ hseq, KV.Flat.insert_kv,
    KV.getElem?_insert_ne _ (hrow _)]

/-! ### All commands -/

omit [SerdeJson] in
theorem revokeRow_erases (row : String × Stored) (s : State) :
    ∃ s', (match stripPrefix kGaAccount row.1 with
      | some u => deleteAllGaSessions u
      | none => pure () : M Unit).exec s = (.ok (), s') ∧
      Erases (fun k => ∃ u, stripPrefix kGaAccount row.1 = some u ∧ GaSession u k) s s' := by
  cases hu : stripPrefix kGaAccount row.1 with
  | none => exact ⟨s, rfl, (erases_nothing s).congr fun k => by simp⟩
  | some u =>
    obtain ⟨s', hs, he⟩ := deleteAllGaSessions_erases u s
    exact ⟨s', hs, he.congr fun k => by simp⟩

theorem applyGlobalAdminSessionsRevokeAll_step (ht : WellPlaced t)
    (h : execute .globalAdminSessionsRevokeAll now t = (.ok events, s)) :
    CredentialStep t .globalAdminSessionsRevokeAll s.kv := by
  obtain ⟨s₁, h₁, he⟩ := forM_erases revokeRow_erases (rowsUnder kGaAccount t) ⟨t, []⟩
  have hs : s = s₁ := by
    simp only [execute, applyInner, applyGlobalAdminSessionsRevokeAll, Prog.exec_bind_ok] at h
    obtain ⟨rows, _, h₀, _, _, h₂, h₃⟩ := h
    obtain ⟨rfl, rfl⟩ := getPrefixMerged_ok.mp h₀
    obtain ⟨-, rfl⟩ := pure_ok.mp h₃
    exact (Prod.mk.inj (h₂.symm.trans h₁)).2
  subst hs
  refine .of_erases he (fun k _ => ⟨?_, ?_⟩) fun k h => by
    obtain ⟨u, _, _, hk⟩ := h
    exact credential_gaSession hk
  · rintro ⟨⟨k', v⟩, hrow, u, hu, hk⟩
    obtain ⟨hstem, hv⟩ := mem_rowsUnder.mp hrow
    obtain ⟨c, hc⟩ := startsWith_iff.mp hstem
    obtain rfl : k' = kGaAccount ++ String.ofList c := String.toList_inj.mp (by rw [← hc]; simp)
    rw [stripPrefix_append] at hu
    obtain rfl := Option.some.inj hu
    have hseg : (segments (globalAdminKey (String.ofList c))).head? = some "adm" := by rw [segments_globalAdminKey]; rfl
    rcases placed_adm (ht _ _ hv) hseg with ⟨a, rfl, e⟩ | ⟨a, rfl, -⟩
    · have := congrArg String.toList e
      simp [projectAdminKey, kPaAccount, kGaAccount] at this
    · exact ⟨_, a, entity_exact.mpr hv, hk⟩
  · intro h
    obtain ⟨u, a, ha, hk⟩ := h
    refine ⟨(kGaAccount ++ u, .globalAdmin a), mem_rowsUnder.mpr ⟨startsWith_iff.mpr (by simp), entity_exact.mp ha⟩, u, ?_, hk⟩
    exact stripPrefix_append _ _

theorem applyProjectDelete_step (ht : WellPlaced t) {id : ProjectId} {o : String}
    (h : execute (.projectDelete id o) now t = (.ok events, s)) : CredentialStep t (.projectDelete id o) s.kv := by
  simp only [execute, applyInner, applyProjectDelete, Prog.exec_bind_ok] at h
  obtain ⟨p, _, h₀, project, _, h₁, rows, _, h₂, _, s₃, h₃, _, _, h₄, _, s₅, h₅, h₆⟩ := h
  obtain ⟨-, rfl⟩ := loadMerged_exact.mp h₀
  obtain ⟨-, rfl⟩ := okOr_ok.mp h₁
  obtain ⟨rfl, rfl⟩ := getPrefixMerged_ok.mp h₂
  cases deleteRows_ok.mp h₃
  cases deletePending_ok.mp h₄
  obtain ⟨-, rfl⟩ := pure_ok.mp h₆
  have he := (erases_rows ⟨t, []⟩ (projectKey id)).trans (erases_erase _ (idxPname project.name))
  have hrow : ∀ k, CredentialKey k → _ = t[k]? := fun k hk => (he k).2 fun hor =>
    hor.elim (fun h => not_credential_projectKey _ h hk) fun e => not_credential_idxPname _ (e ▸ hk)
  have hplaced : WellPlaced ((eraseAll ⟨t, []⟩ ((rowsUnder (projectKey id) t).map (·.1))).erase (idxPname project.name)).kv :=
    (wellPlaced_eraseAll (s := ⟨t, []⟩) ht _).erase _
  obtain ⟨s', h', he'⟩ := deleteAccounts_erases hplaced id
  obtain ⟨-, rfl⟩ := Prod.mk.inj (h'.symm.trans h₅)
  have hof : ∀ k, OfProject ((eraseAll ⟨t, []⟩ ((rowsUnder (projectKey id) t).map (·.1))).erase (idxPname project.name)).kv id k ↔
      drops t (.projectDelete id o) k := by
    intro k
    refine or_congr ?_ ?_
    · refine exists_congr fun u => exists_congr fun a => and_congr_left fun _ => ?_
      rw [adminOf, entity_congr (hrow _ (credential_projectAdminKey u))]
      rfl
    · refine exists_congr fun h => exists_congr fun r => and_congr_left fun _ => ?_
      rw [tokenOf, entity_congr (hrow _ (credential_dataTokenKey h))]
      rfl
  refine ⟨fun k hk => (he' k).1 ((hof k).mpr hk), fun k hk hn => .inl ?_⟩
  rw [(he' k).2 fun h => hn ((hof k).mp h)]
  exact hrow k hk

omit [SerdeJson] in
theorem not_credential_of_segments {k : String} {tail : List String} (h : segments k = "p" :: tail) : ¬ CredentialKey k := by
  intro ⟨a, ha, hk⟩
  rw [h] at hk
  obtain rfl := Option.some.inj hk
  simp at ha

omit [SerdeJson] in
theorem not_credential_sharedKey {k : String} (h : SharedKey k) : ¬ CredentialKey k := by
  obtain ⟨key, rfl | rfl⟩ := h
  · simp [CredentialKey, segments_sharedKey]
  · exact not_credential_sharedDraftKey key

/-- The commands on projects, branches and shared items leave them alone, but for the deletion of a project. -/
theorem config_obeys (hc : isConfig cmd) (hd : ∀ id o, cmd ≠ .projectDelete id o) (now : Int) :
    (applyInner cmd now).Obeys (rules (fun k => ¬ CredentialKey k) (touchesDirectly cmd)) fun _ => True := by
  have hunder : ∀ {id : ProjectId} {b : BranchName} {k : String}, UnderBranch id b k → ¬ CredentialKey k :=
    fun ⟨_, h⟩ => not_credential_of_segments h
  cases cmd <;> try exact hc.elim
  case projectDelete id o => exact absurd rfl (hd id o)
  case sharedDraftUpdate item o =>
    exact obeys_rules_mono ((applySharedDraftUpdate_obeys item o).mono fun _ _ => trivial)
      (fun _ h => not_credential_sharedKey h) fun _ h => h
  case sharedDelete key o =>
    exact obeys_rules_mono ((applySharedDelete_obeys key o).mono fun _ _ => trivial)
      (fun _ h => not_credential_sharedKey h) fun _ h => h
  case sharedPublish c r o ts mode policy =>
    refine obeys_rules_mono (applySharedPublish_obeys c r (effTs ts now) o mode policy) (fun _ h => ?_) fun _ h => h
    rcases h with h | ⟨_, _, h⟩
    · exact not_credential_sharedKey h
    · exact hunder h
  all_goals refine obeys_rules_mono (applyInner_obeys _ now) (fun k h => ?_) fun _ h => h
  case projectCreate name o ts src =>
    rcases h with rfl | rfl | rfl | ⟨b, -, rfl⟩
    · exact not_credential_projectKey name (startsWith_iff.mpr (List.prefix_refl _))
    · exact not_credential_idxPname name
    · exact not_credential_projectKey name (startsWith_iff.mpr (by simp [projectKey, structKey]))
    · exact not_credential_projectKey name (startsWith_iff.mpr (by simp [projectKey, branchStateKey]))
  case branchCreate id name src o ts =>
    obtain rfl := h
    exact not_credential_projectKey id (startsWith_iff.mpr (by simp [projectKey, branchStateKey]))
  case branchDelete id name o =>
    refine not_credential_projectKey id (startsWith_iff.mpr (List.IsPrefix.trans ?_ (startsWith_iff.mp h)))
    simp [projectKey, branchPrefix]
  case structureDraftSet id v groups o =>
    obtain rfl := h
    exact not_credential_projectKey id (startsWith_iff.mpr (by simp [projectKey, structDraftKey]))
  case publishStructure id c r o ts policy =>
    rcases h with rfl | rfl | ⟨b, h⟩
    · exact not_credential_projectKey id (startsWith_iff.mpr (by simp [projectKey, structKey]))
    · exact not_credential_projectKey id (startsWith_iff.mpr (by simp [projectKey, structDraftKey]))
    · exact hunder h
  all_goals exact hunder h

theorem config_drops (hc : isConfig cmd) (hd : ∀ id o, cmd ≠ .projectDelete id o) (k : String) : ¬ drops t cmd k := by
  cases cmd <;> first | exact hc.elim | exact id | exact absurd rfl (hd _ _)

/-- What a command that goes through does to sessions, accounts and tokens. -/
theorem credential_step (ht : WellPlaced t) (h : execute cmd now t = (.ok events, s)) : CredentialStep t cmd s.kv := by
  by_cases hc : isConfig cmd
  · by_cases hd : ∀ id o, cmd ≠ .projectDelete id o
    · refine ⟨fun k hk => absurd hk (config_drops hc hd k), fun k hk _ => .inl ?_⟩
      have := Prog.frame_exec (C := rules (fun k => ¬ CredentialKey k) (touchesDirectly cmd)) (fun _ _ h => h.1)
        (config_obeys hc hd now) (s := ⟨t, []⟩) ht (a := k) (fun v h => h.2 hk) (not_not.mpr hk)
      rw [show (applyInner cmd now).exec ⟨t, []⟩ = _ from h] at this
      exact this
    · obtain ⟨id, o, rfl⟩ : ∃ id o, cmd = .projectDelete id o := by
        by_contra hn
        exact hd fun id o e => hn ⟨id, o, e⟩
      exact applyProjectDelete_step ht h
  · cases cmd <;> try exact absurd trivial hc
    case sessionLogin => exact applySessionLogin_step h
    case sessionLogout =>
      refine erasing_step (deletePending_erases sessionKey _) (fun k hk => ?_) h
      rw [hk]
      simp [CredentialKey, segments_sessionKey]
    case sessionHeartbeat e => exact heartbeat_step (fun _ => id) h
    case projectAdminCreate => exact applyProjectAdminCreate_step h
    case projectAdminDelete => exact applyProjectAdminDelete_step h
    case projectAdminSetPassword => exact applyProjectAdminSetPassword_step h
    case paSessionLogin => exact applyPaSessionLogin_step h
    case paSessionLogout u =>
      exact erasing_step (deletePending_erases (paSessionKey u) _) (fun k hk => credential_paSession (.inl hk)) h
    case paSessionHeartbeat => exact applyPaSessionHeartbeat_step h
    case adminSetPassword hash =>
      obtain ⟨-, rfl⟩ := Prod.mk.inj h
      exact put_step .adminPassword fun _ => id
    case multiSessionLogin hash i e sid =>
      obtain ⟨-, rfl⟩ := Prod.mk.inj h
      exact put_step (.adminLogin (.inr ⟨sid, rfl⟩) rfl rfl rfl) fun _ => id
    case multiSessionLogout sid =>
      refine erasing_step (deletePending_erases (sessionKeyWith sid) _) (fun k hk => ?_) h
      rw [hk]
      simp [CredentialKey, segments_sessionKeyWith]
    case multiSessionHeartbeat => exact heartbeat_step (fun _ => id) h
    case multiPaSessionLogin => exact applyMultiPaSessionLogin_step h
    case multiPaSessionLogout u sid =>
      refine erasing_step (deletePending_erases (paSessionKeyWith u sid) _) (fun k hk => ?_) h
      rw [hk]
      exact credential_paSession (paSession_keyWith u sid)
    case multiPaSessionHeartbeat => exact heartbeat_step (fun _ => id) h
    case multiSessionLogoutAll => exact applyMultiSessionLogoutAll_step h
    case multiPaSessionLogoutAll u =>
      exact erasing_step (deleteAllPaSessions_erases u _) (fun k hk => credential_paSession hk) h
    case globalAdminCreate => exact applyGlobalAdminCreate_step h
    case globalAdminDelete => exact applyGlobalAdminDelete_step h
    case globalAdminSetPassword => exact applyGlobalAdminSetPassword_step h
    case multiGaSessionLogin => exact applyMultiGaSessionLogin_step h
    case multiGaSessionLogout u sid =>
      refine erasing_step (deletePending_erases (gaSessionKeyWith u sid) _) (fun k hk => ?_) h
      rw [hk]
      exact credential_gaSession (gaSession_keyWith u sid)
    case multiGaSessionHeartbeat => exact heartbeat_step (fun _ => id) h
    case multiGaSessionLogoutAll u =>
      exact erasing_step (deleteAllGaSessions_erases u _) (fun k hk => credential_gaSession hk) h
    case globalAdminSessionsRevokeAll => exact applyGlobalAdminSessionsRevokeAll_step ht h
    case auditAppend => exact applyAuditAppend_step h
    case rotateMasterKey =>
      obtain ⟨-, rfl⟩ := Prod.mk.inj h
      exact ⟨fun _ => False.elim, fun _ _ _ => .inl rfl⟩
    case projectTokenCreate => exact applyProjectTokenCreate_step h
    case projectTokenRevoke => exact applyProjectTokenRevoke_step h

end

end Defing
