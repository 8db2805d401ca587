import Defing.Api.Cutoff

/-!
# Logging out

A logout finds its session by a second reading of the token and by the
principal that the first reading came to. Both lead to the row the token was
accepted by, as long as sessions are begun with tokens of the forms that the
logins give out.
-/

namespace Defing

open KV (Plain Prog segments)
open Std (ExtTreeMap)

/-! ## The handlers -/

def sessionKeyOfToken (token : String) : Option String :=
  match stripPrefix "pa." token, stripPrefix "ga." token, stripPrefix "adm." token with
  | some rest, _, _ =>
    match dotParts rest with
    | username :: sid :: _ :: _ => some (paSessionKeyWith username sid)
    | parts => some (paSessionKey (parts.headD ""))
  | none, some rest, _ =>
    match dotParts rest with
    | username :: sid :: _ :: _ => some (gaSessionKeyWith username sid)
    | _ => none
  | none, none, some rest =>
    match dotParts rest with
    | sid :: _ :: _ => some (sessionKeyWith sid)
    | _ => some sessionKey
  | none, none, none => some sessionKey

def tokenSessionId (authHeader : Option String) : Option String :=
  (bearer authHeader).bind fun token =>
    match stripPrefix "pa." token, stripPrefix "ga." token, stripPrefix "adm." token with
    | some rest, _, _ =>
      match dotParts rest with
      | _ :: sid :: _ :: _ => some sid
      | _ => none
    | none, some rest, _ =>
      match dotParts rest with
      | _ :: sid :: _ :: _ => some sid
      | _ => none
    | none, none, some rest =>
      match dotParts rest with
      | sid :: _ :: _ => some sid
      | _ => none
    | none, none, none => none

/-- The command of `logout`; none is refused as an expired session. -/
def logoutCommand (p : Principal) (authHeader : Option String) : Option Command :=
  match p, tokenSessionId authHeader with
  | .admin, some sid => some (.multiSessionLogout sid)
  | .admin, none => some .sessionLogout
  | .projectAdmin username _, some sid => some (.multiPaSessionLogout username sid)
  | .projectAdmin username _, none => some (.paSessionLogout username)
  | .globalAdmin username, some sid => some (.multiGaSessionLogout username sid)
  | .globalAdmin _, none => none

def heartbeatCommand (p : Principal) (authHeader : Option String) (expires : Option Int) : Option Command :=
  match p, tokenSessionId authHeader with
  | .admin, some sid => some (.multiSessionHeartbeat sid expires)
  | .admin, none => some (.sessionHeartbeat expires)
  | .projectAdmin username _, some sid => some (.multiPaSessionHeartbeat username sid expires)
  | .projectAdmin username _, none => some (.paSessionHeartbeat username expires)
  | .globalAdmin username, some sid => some (.multiGaSessionHeartbeat username sid expires)
  | .globalAdmin _, none => none

/-! ## Tokens that are given out -/

def Dotless (s : String) : Prop := '.' ∉ s.toList

/-- The token a login command is for. Those without a session id are of old logs. -/
inductive LoginToken : Command → String → Prop
  | admin {hash sid secret : String} {issued : Int} {expires : Option Int} (hs : Dotless sid) :
      LoginToken (.multiSessionLogin hash issued expires sid) ("adm." ++ sid ++ "." ++ secret)
  | oldAdmin {hash secret : String} {issued : Int} {expires : Option Int} (hs : Dotless secret) :
      LoginToken (.sessionLogin hash issued expires) ("adm." ++ secret)
  | bare {hash token : String} {issued : Int} {expires : Option Int} (ht : Dotless token) :
      LoginToken (.sessionLogin hash issued expires) token
  | pa {username hash sid secret device : String} {issued : Int} {expires : Option Int} (hs : Dotless sid) :
      LoginToken (.multiPaSessionLogin username hash issued expires device sid)
        ("pa." ++ username ++ "." ++ sid ++ "." ++ secret)
  | oldPa {username hash secret device : String} {issued : Int} {expires : Option Int} (hs : Dotless secret) :
      LoginToken (.paSessionLogin username hash issued expires device) ("pa." ++ username ++ "." ++ secret)
  | ga {username hash sid secret device : String} {issued : Int} {expires : Option Int} (hs : Dotless sid) :
      LoginToken (.multiGaSessionLogin username hash issued expires device sid)
        ("ga." ++ username ++ "." ++ sid ++ "." ++ secret)

def loginKey : Command → Option String
  | .sessionLogin .. => some sessionKey
  | .multiSessionLogin _ _ _ sid => some (sessionKeyWith sid)
  | .paSessionLogin username .. => some (paSessionKey username)
  | .multiPaSessionLogin username _ _ _ _ sid => some (paSessionKeyWith username sid)
  | .multiGaSessionLogin username _ _ _ _ sid => some (gaSessionKeyWith username sid)
  | _ => none

def GivesOut [Hashing] (cmd : Command) : Prop :=
  ∀ hash, issues cmd = some hash → ∃ token, LoginToken cmd token ∧ hash = Hashing.tokenHash token

/-! ## Reading tokens -/

theorem dotParts_plain {s : String} (h : Dotless s) : dotParts s = [s] := by
  rw [dotParts, List.splitOn_eq_singleton h, List.map_singleton, String.ofList_toList]

theorem dotParts_append {a b : String} (h : Dotless a) : dotParts (a ++ "." ++ b) = a :: dotParts b := by
  have e : (a ++ "." ++ b).toList = a.toList ++ '.' :: b.toList := by simp
  rw [dotParts, e, List.splitOn_append_cons_self_of_not_mem h, List.map_cons, String.ofList_toList]
  rfl

theorem dotParts_ne_nil (s : String) : dotParts s ≠ [] := fun h =>
  List.splitOn_ne_nil '.' s.toList (List.map_eq_nil_iff.mp h)

theorem stripPrefix_ne {stem s : String} (h : ¬ stem.toList <+: s.toList) : stripPrefix stem s = none := by
  unfold stripPrefix
  rw [if_neg]
  rwa [startsWith_iff]

theorem sessionOfToken_eq [SerdeJson] (token : String) (t : Store) :
    sessionOfToken token t = (sessionKeyOfToken token).bind (sessionAt t) := by
  have hread : ∀ k, tryRead (loadMerged k : M (Option AdminSession)) t = sessionAt t k := fun k => tryRead_loadMerged k t
  unfold sessionOfToken sessionKeyOfToken
  cases hp : stripPrefix "pa." token with
  | some rest =>
    simp only
    rcases dotParts rest with _ | ⟨_, _ | ⟨_, _ | ⟨_, _⟩⟩⟩ <;> exact hread _
  | none =>
    cases hg : stripPrefix "ga." token with
    | some rest =>
      simp only
      rcases dotParts rest with _ | ⟨_, _ | ⟨_, _ | ⟨_, _⟩⟩⟩
      · rfl
      · rfl
      · rfl
      · exact hread _
    | none =>
      cases ha : stripPrefix "adm." token with
      | some rest =>
        simp only
        rcases dotParts rest with _ | ⟨_, _ | ⟨_, _⟩⟩ <;> exact hread _
      | none => exact hread _

/-! ## Both readings lead to one row -/

def Account.username : Account → String
  | project u | global u => u

def loginSid : Command → Option String
  | .multiSessionLogin _ _ _ sid => some sid
  | .multiPaSessionLogin _ _ _ _ _ sid => some sid
  | .multiGaSessionLogin _ _ _ _ _ sid => some sid
  | _ => none

def logoutKey : Command → Option String
  | .sessionLogout => some sessionKey
  | .multiSessionLogout sid => some (sessionKeyWith sid)
  | .paSessionLogout username => some (paSessionKey username)
  | .multiPaSessionLogout username sid => some (paSessionKeyWith username sid)
  | .multiGaSessionLogout username sid => some (gaSessionKeyWith username sid)
  | _ => none

def heartbeatKey : Command → Option (String × Option Int)
  | .sessionHeartbeat expires => some (sessionKey, expires)
  | .multiSessionHeartbeat sid expires => some (sessionKeyWith sid, expires)
  | .paSessionHeartbeat username expires => some (paSessionKey username, expires)
  | .multiPaSessionHeartbeat username sid expires => some (paSessionKeyWith username sid, expires)
  | .multiGaSessionHeartbeat username sid expires => some (gaSessionKeyWith username sid, expires)
  | _ => none

section Routes

variable {cmd : Command} {token : String} {header : Option String} {p : Principal}

theorem LoginToken.route (h : LoginToken cmd token) (hu : ∀ acct, logsIn cmd = some acct → Dotless acct.username)
    (hb : bearer header = some token) : sessionKeyOfToken token = loginKey cmd ∧ tokenSessionId header = loginSid cmd := by
  unfold sessionKeyOfToken tokenSessionId
  rw [hb]
  cases h with
  | @admin _ sid secret _ _ hs =>
    have e : "adm." ++ sid ++ "." ++ secret = "adm." ++ (sid ++ "." ++ secret) := by simp only [String.append_assoc]
    have hp : stripPrefix "pa." ("adm." ++ (sid ++ "." ++ secret)) = none := stripPrefix_ne (by simp)
    have hg : stripPrefix "ga." ("adm." ++ (sid ++ "." ++ secret)) = none := stripPrefix_ne (by simp)
    simp only [Option.bind_some, e, hp, hg, stripPrefix_append, dotParts_append hs]
    rcases hd : dotParts secret with _ | ⟨_, _⟩
    · exact absurd hd (dotParts_ne_nil _)
    · exact ⟨rfl, rfl⟩
  | @oldAdmin _ secret _ _ hs =>
    have hp : stripPrefix "pa." ("adm." ++ secret) = none := stripPrefix_ne (by simp)
    have hg : stripPrefix "ga." ("adm." ++ secret) = none := stripPrefix_ne (by simp)
    simp only [Option.bind_some, hp, hg, stripPrefix_append, dotParts_plain hs]
    exact ⟨rfl, rfl⟩
  | bare ht =>
    have hn : ∀ stem : String, '.' ∈ stem.toList → stripPrefix stem token = none := fun stem hm =>
      stripPrefix_ne fun hpre => ht (hpre.subset hm)
    simp only [Option.bind_some, hn "pa." (by simp), hn "ga." (by simp), hn "adm." (by simp)]
    exact ⟨rfl, rfl⟩
  | @pa u _ sid secret _ _ _ hs =>
    have hu : Dotless u := hu (.project u) rfl
    have e : "pa." ++ u ++ "." ++ sid ++ "." ++ secret = "pa." ++ (u ++ "." ++ (sid ++ "." ++ secret)) := by
      simp only [String.append_assoc]
    simp only [Option.bind_some, e, stripPrefix_append, dotParts_append hu, dotParts_append hs]
    rcases hd : dotParts secret with _ | ⟨_, _⟩
    · exact absurd hd (dotParts_ne_nil _)
    · exact ⟨rfl, rfl⟩
  | @oldPa u _ secret _ _ _ hs =>
    have hu : Dotless u := hu (.project u) rfl
    have e : "pa." ++ u ++ "." ++ secret = "pa." ++ (u ++ "." ++ secret) := by simp only [String.append_assoc]
    simp only [Option.bind_some, e, stripPrefix_append, dotParts_append hu, dotParts_plain hs]
    exact ⟨rfl, rfl⟩
  | @ga u _ sid secret _ _ _ hs =>
    have hu : Dotless u := hu (.global u) rfl
    have e : "ga." ++ u ++ "." ++ sid ++ "." ++ secret = "ga." ++ (u ++ "." ++ (sid ++ "." ++ secret)) := by
      simp only [String.append_assoc]
    have hp : stripPrefix "pa." ("ga." ++ (u ++ "." ++ (sid ++ "." ++ secret))) = none := stripPrefix_ne (by simp)
    simp only [Option.bind_some, e, hp, stripPrefix_append, dotParts_append hu, dotParts_append hs]
    rcases hd : dotParts secret with _ | ⟨_, _⟩
    · exact absurd hd (dotParts_ne_nil _)
    · exact ⟨rfl, rfl⟩

theorem Principal.of_account_project {u : String} (h : p.account = some (.project u)) : ∃ id, p = .projectAdmin u id := by
  cases p with
  | admin => cases h
  | globalAdmin _ => cases h
  | projectAdmin v id => cases h; exact ⟨id, rfl⟩

theorem Principal.of_account_global {u : String} (h : p.account = some (.global u)) : p = .globalAdmin u := by
  cases p with
  | admin => cases h
  | projectAdmin _ _ => cases h
  | globalAdmin v => cases h; rfl

theorem LoginToken.commands (h : LoginToken cmd token) (hu : ∀ acct, logsIn cmd = some acct → Dotless acct.username)
    (hb : bearer header = some token) (hp : p.account = logsIn cmd) :
    (∃ c, logoutCommand p header = some c ∧ logoutKey c = loginKey cmd) ∧
      ∀ expires, ∃ c, heartbeatCommand p header expires = some c ∧
        heartbeatKey c = (loginKey cmd).map fun k => (k, expires) := by
  have hsid := (h.route hu hb).2
  unfold logoutCommand heartbeatCommand
  rw [hsid]
  cases h with
  | admin => obtain rfl := admin_of_account_none hp; exact ⟨⟨_, rfl, rfl⟩, fun _ => ⟨_, rfl, rfl⟩⟩
  | oldAdmin => obtain rfl := admin_of_account_none hp; exact ⟨⟨_, rfl, rfl⟩, fun _ => ⟨_, rfl, rfl⟩⟩
  | bare => obtain rfl := admin_of_account_none hp; exact ⟨⟨_, rfl, rfl⟩, fun _ => ⟨_, rfl, rfl⟩⟩
  | pa => obtain ⟨_, rfl⟩ := Principal.of_account_project hp; exact ⟨⟨_, rfl, rfl⟩, fun _ => ⟨_, rfl, rfl⟩⟩
  | oldPa => obtain ⟨_, rfl⟩ := Principal.of_account_project hp; exact ⟨⟨_, rfl, rfl⟩, fun _ => ⟨_, rfl, rfl⟩⟩
  | ga => obtain rfl := Principal.of_account_global hp; exact ⟨⟨_, rfl, rfl⟩, fun _ => ⟨_, rfl, rfl⟩⟩

end Routes

/-! ## What the commands do -/

section Effects

variable [SerdeJson] {t : Store} {cmd : Command} {k : String} {now : Int}

theorem logout_store (h : logoutKey cmd = some k) (now : Int) : (apply cmd now t).store = t.erase k := by
  have he : execute cmd now t = (.ok [], (⟨t, []⟩ : State).erase k) := by
    cases cmd <;> cases h <;> rfl
  rw [apply_eq he]
  rfl

theorem heartbeat_exec {s : AdminSession} {expires : Option Int} {e : String} (hs : sessionAt t k = some s) :
    (heartbeat k expires e).exec ⟨t, []⟩ =
      (.ok [], (⟨t, []⟩ : State).insert k (Codec.encode { s with expiresAt := expires })) := by
  unfold heartbeat
  exact loadMerged_bind.mpr ⟨some s, entity_eq_some.mp hs, rfl⟩

theorem heartbeat_store {s : AdminSession} {expires : Option Int} (h : heartbeatKey cmd = some (k, expires))
    (hs : sessionAt t k = some s) (now : Int) :
    (apply cmd now t).store = t.insert k (Codec.encode { s with expiresAt := expires }) := by
  have he : execute cmd now t = (.ok [], (⟨t, []⟩ : State).insert k (Codec.encode { s with expiresAt := expires })) := by
    cases cmd <;> cases h
    case sessionHeartbeat => exact heartbeat_exec hs
    case multiSessionHeartbeat => exact heartbeat_exec hs
    case multiPaSessionHeartbeat => exact heartbeat_exec hs
    case multiGaSessionHeartbeat => exact heartbeat_exec hs
    case paSessionHeartbeat =>
      exact (heartbeat_exec (e := "会话不存在") hs)
  rw [apply_eq he]
  rfl

theorem login_elsewhere {hash : String} (hi : issues cmd = some hash) (hk : loginKey cmd ≠ some k) (now : Int)
    {events : List PublishEvent} (hok : (apply cmd now t).result = .ok events) :
    (apply cmd now t).store[k]? = t[k]? := by
  obtain ⟨s, hs, hstore, -⟩ := apply_ok hok
  have hput : ∀ {s₁ : State} {a : String} {v : Stored}, loginKey cmd = some a → s₁.kv = t →
      (s₁.insert a v).kv[k]? = t[k]? := by
    intro s₁ a v ha ht
    rw [KV.Flat.insert_kv, ht, KV.getElem?_insert_ne t (fun e => hk (by rw [ha, e])) v]
  rw [hstore]
  cases cmd <;> cases hi
  case sessionLogin =>
    obtain ⟨_, -, h⟩ := loadMerged_bind.mp hs
    obtain ⟨-, h⟩ := ensure_bind.mp h
    rw [savePending_bind] at h
    obtain ⟨-, rfl⟩ := pure_ok.mp h
    exact hput rfl rfl
  case paSessionLogin =>
    obtain ⟨_, -, h⟩ := loadMerged_bind.mp hs
    obtain ⟨-, h⟩ := ensure_bind.mp h
    obtain ⟨_, -, h⟩ := loadMerged_bind.mp h
    obtain ⟨_, -, h⟩ := okOr_bind.mp h
    rw [savePending_bind] at h
    obtain ⟨-, rfl⟩ := pure_ok.mp h
    exact hput rfl rfl
  case multiSessionLogin =>
    obtain ⟨-, rfl⟩ := Prod.mk.inj hs
    exact hput rfl rfl
  case multiPaSessionLogin =>
    obtain ⟨_, -, h⟩ := loadMerged_bind.mp hs
    obtain ⟨_, -, h⟩ := okOr_bind.mp h
    rw [savePending_bind] at h
    obtain ⟨-, rfl⟩ := pure_ok.mp h
    exact hput rfl rfl
  case multiGaSessionLogin =>
    obtain ⟨_, -, h⟩ := loadMerged_bind.mp hs
    obtain ⟨_, -, h⟩ := okOr_bind.mp h
    rw [savePending_bind] at h
    obtain ⟨-, rfl⟩ := pure_ok.mp h
    exact hput rfl rfl

end Effects

/-! ## Sessions of runs -/

section Runs

variable [SerdeJson] [Hashing] {t : Store} {cmd : Command} {k : String} {s : AdminSession}

def GivenOut (t : Store) : Prop :=
  ∀ k s, sessionAt t k = some s → ∃ cmd token, LoginToken cmd token ∧ s.tokenHash = Hashing.tokenHash token ∧
    loginKey cmd = some k ∧ s.principal.account = logsIn cmd

theorem givenOut_step (ht : WellPlaced t) (h : GivenOut t) (hc : GivesOut cmd) (now : Int) :
    GivenOut (apply cmd now t).store := by
  have hw := wellPlaced_apply ht cmd now
  intro k s hs
  rcases credential_apply ht cmd now with ⟨⟨events, hok⟩, hstep⟩ | ⟨-, hsame⟩
  · rcases hstep.tokenHash ht hw hs with ⟨s₀, hs₀, hp, hhash⟩ | ⟨hi, hacct⟩
    · rw [hp, hhash]
      exact h k s₀ hs₀
    · by_cases hk : loginKey cmd = some k
      · obtain ⟨token, htoken, e⟩ := hc _ hi
        exact ⟨cmd, token, htoken, e, hk, hacct⟩
      · exact h k s ((entity_congr (login_elsewhere hi hk now hok)).symm.trans hs)
  · exact h k s ((entity_congr (hsame k (credential_of_session hw hs))).symm.trans hs)

theorem givenOut_of_reach (h : Reach (fun _ cmd _ => GivesOut cmd) t) : GivenOut t := by
  induction h with
  | empty =>
    intro k s hs
    rw [sessionAt, entity, ExtTreeMap.getElem?_empty] at hs
    cases hs
  | step cmd now hr hc ih => exact givenOut_step (wellPlaced_of_reach hr) ih hc now

omit [Hashing] in
theorem sessionsBacked_of_reach {allowed : Store → Command → Int → Prop} (h : Reach allowed t) : SessionsBacked t := by
  induction h with
  | empty => exact sessionsBacked_empty
  | step cmd now hr _ ih => exact sessionsBacked_apply (wellPlaced_of_reach hr) ih cmd now

omit [SerdeJson] [Hashing] in
theorem dotless_of_valid {u : String} (h : validAccountUsername u) : Dotless u := by
  intro hm
  simp only [validAccountUsername, Bool.and_eq_true] at h
  have := List.all_eq_true.mp h.1.2 _ hm
  revert this
  decide

omit [Hashing] in
theorem dotless_of_session (ht : WellPlaced t) (hb : SessionsBacked t) (hs : sessionAt t k = some s) {acct : Account}
    (ha : s.principal.account = some acct) : Dotless acct.username := by
  by_cases hp : startsWith kPaSession k
  · obtain ⟨a, hadmin, e⟩ := hb.project k s hp hs
    rw [e] at ha
    cases ha
    exact dotless_of_valid (adminOf_username ht hadmin).1
  · by_cases hg : startsWith kGaSession k
    · obtain ⟨a, hadmin, e⟩ := hb.global k s hg hs
      rw [e] at ha
      cases ha
      exact dotless_of_valid (globalAdminOf_username ht hadmin).1
    · rw [hb.admin k s hp hg hs] at ha
      cases ha

theorem resolvePrincipal_some {now : Int} {header : Option String} {p : Principal} :
    resolvePrincipal now header t = some p ↔ ∃ token k s, bearer header = some token ∧
      sessionKeyOfToken token = some k ∧ sessionAt t k = some s ∧ s.tokenHash = Hashing.tokenHash token ∧
      s.notExpired now = true ∧ s.principal = p := by
  unfold resolvePrincipal
  simp only [Option.bind_eq_some_iff, sessionOfToken_eq]
  constructor
  · rintro ⟨token, hb, s, ⟨k, hk, hs⟩, h⟩
    split at h
    · rename_i hc
      exact ⟨token, k, s, hb, hk, hs, hc.1, hc.2, Option.some.inj h⟩
    · cases h
  · rintro ⟨token, k, s, hb, hk, hs, hhash, he, rfl⟩
    exact ⟨token, hb, s, ⟨k, hk, hs⟩, if_pos ⟨hhash, he⟩⟩

/-- Tokens that do not lead to a row are resolved as before when only that row is changed, and those that lead to it
are refused before and after if they have another hash than its sessions. -/
theorem resolvePrincipal_frame {t' : Store} {header : Option String} {now : Int}
    (hrow : ∀ k', k' ≠ k → t'[k']? = t[k']?)
    (hhash : ∀ token, bearer header = some token → ∀ r, sessionAt t k = some r ∨ sessionAt t' k = some r →
      r.tokenHash ≠ Hashing.tokenHash token) :
    resolvePrincipal now header t' = resolvePrincipal now header t := by
  refine Option.ext fun p => ?_
  rw [resolvePrincipal_some, resolvePrincipal_some]
  constructor
  · rintro ⟨token, k', r, hb, hk, hr, hh, he, hp⟩
    by_cases hkk : k' = k
    · exact absurd hh (hhash token hb r (.inr (hkk ▸ hr)))
    · exact ⟨token, k', r, hb, hk, (entity_congr (hrow k' hkk)).symm.trans hr, hh, he, hp⟩
  · rintro ⟨token, k', r, hb, hk, hr, hh, he, hp⟩
    by_cases hkk : k' = k
    · exact absurd hh (hhash token hb r (.inl (hkk ▸ hr)))
    · exact ⟨token, k', r, hb, hk, (entity_congr (hrow k' hkk)).trans hr, hh, he, hp⟩

theorem resolvePrincipal_at {header : Option String} {token : String} (hb : bearer header = some token)
    (hk : sessionKeyOfToken token = some k) (now : Int) :
    resolvePrincipal now header t = (sessionAt t k).bind fun s =>
      if s.tokenHash = Hashing.tokenHash token ∧ s.notExpired now = true then some s.principal else none := by
  unfold resolvePrincipal
  rw [hb, Option.bind_some, sessionOfToken_eq, hk, Option.bind_some]

/-- A logout ends the session its token was accepted by, and a heartbeat prolongs it; both leave every other row as it
is, and every other token as it was accepted or refused. -/
theorem logout_exact (hinj : Function.Injective Hashing.tokenHash) (h : Reach (fun _ cmd _ => GivesOut cmd) t)
    {now : Int} {header : Option String} {p : Principal} (hres : resolvePrincipal now header t = some p) :
    ∃ k s, sessionAt t k = some s ∧
      (∃ cmd, logoutCommand p header = some cmd ∧ ∀ n, (apply cmd n t).store = t.erase k ∧
        ∀ n', resolvePrincipal n' header (apply cmd n t).store = none ∧
          ∀ other, bearer other ≠ bearer header →
            resolvePrincipal n' other (apply cmd n t).store = resolvePrincipal n' other t) ∧
      ∀ expires, ∃ cmd, heartbeatCommand p header expires = some cmd ∧ ∀ n,
        (apply cmd n t).store = t.insert k (Codec.encode { s with expiresAt := expires }) ∧
        ∀ n', (resolvePrincipal n' header (apply cmd n t).store = if expires.all (n' < ·) then some p else none) ∧
          ∀ other, bearer other ≠ bearer header →
            resolvePrincipal n' other (apply cmd n t).store = resolvePrincipal n' other t := by
  have ht := wellPlaced_of_reach h
  obtain ⟨token, k, s, hb, hk, hs, hhash, -, hp⟩ := resolvePrincipal_some.mp hres
  obtain ⟨login, token', htoken, hhash', hlogin, hacct⟩ := givenOut_of_reach h k s hs
  obtain rfl : token = token' := hinj (hhash.symm.trans hhash')
  have hu : ∀ acct, logsIn login = some acct → Dotless acct.username := fun acct ha =>
    dotless_of_session ht (sessionsBacked_of_reach h) hs (hacct.trans ha)
  obtain ⟨⟨out, hout, houtKey⟩, hbeat⟩ := htoken.commands hu hb (hp ▸ hacct)
  -- another token has another hash than the session
  have hother : ∀ {other : Option String}, bearer other ≠ bearer header → ∀ tok, bearer other = some tok →
      s.tokenHash ≠ Hashing.tokenHash tok := by
    intro other hne tok htok heq
    refine hne ?_
    rw [hb, htok, hinj (hhash.symm.trans heq)]
  refine ⟨k, s, hs, ⟨out, hout, fun n => ?_⟩, fun expires => ?_⟩
  · have hgone : sessionAt (t.erase k) k = none := by
      rw [sessionAt, entity, KV.getElem?_erase, if_pos rfl]
      rfl
    rw [logout_store (t := t) (houtKey.trans hlogin) n]
    refine ⟨rfl, fun n' => ⟨?_, fun other hne => ?_⟩⟩
    · rw [resolvePrincipal_at hb hk, hgone, Option.bind_none]
    · refine resolvePrincipal_frame (k := k) (fun k' hne' => KV.getElem?_erase_ne t (Ne.symm hne')) fun tok htok r hr => ?_
      rcases hr with hr | hr
      · obtain rfl : s = r := Option.some.inj (hs.symm.trans hr)
        exact hother hne tok htok
      · rw [hgone] at hr
        cases hr
  · obtain ⟨beat, hbeat, hbeatKey⟩ := hbeat expires
    refine ⟨beat, hbeat, fun n => ?_⟩
    have hrow : sessionAt (t.insert k (Codec.encode { s with expiresAt := expires })) k =
        some { s with expiresAt := expires } := entity_insert t k _
    rw [heartbeat_store (t := t) (hbeatKey.trans (by rw [hlogin]; rfl)) hs n]
    refine ⟨rfl, fun n' => ⟨?_, fun other hne => ?_⟩⟩
    · rw [resolvePrincipal_at hb hk, hrow, Option.bind_some, hp]
      simp only [hhash, true_and]
      rfl
    · refine resolvePrincipal_frame (k := k) (fun k' hne' => KV.getElem?_insert_ne t (Ne.symm hne') _) fun tok htok r hr => ?_
      rcases hr with hr | hr
      · obtain rfl : s = r := Option.some.inj (hs.symm.trans hr)
        exact hother hne tok htok
      · obtain rfl := Option.some.inj (hrow.symm.trans hr)
        exact hother hne tok htok

/-! ## Tokens that stay accepted -/

/-- No command of a log drops the row or logs in there. -/
def SparesSession (k : String) : Store → List (Command × Int) → Prop
  | _, [] => True
  | t, e :: log => ¬ drops t e.1 k ∧ loginKey e.1 ≠ some k ∧ SparesSession k (apply e.1 e.2 t).store log

omit [Hashing] in
theorem session_key (ht : WellPlaced t) (hs : sessionAt t k = some s) : (segments k).head? = some "sess" ∧ k ≠ kAdminPw := by
  rcases ht _ _ (entity_exact.mp hs) with rfl | ⟨_, rfl⟩ | ⟨_, rfl⟩ | ⟨_, _, rfl⟩ | ⟨_, _, rfl⟩
  · exact ⟨by simp [segments_sessionKey], by simp [sessionKey, kSession, kAdminPw]⟩
  · refine ⟨by simp [segments_sessionKeyWith], fun e => ?_⟩
    have := congrArg String.toList e
    simp [sessionKeyWith, kSessionPrefix, kAdminPw] at this
  · refine ⟨by simp [segments_paSessionKey], fun e => ?_⟩
    have := congrArg String.toList e
    simp [paSessionKey, kPaSession, kAdminPw] at this
  · refine ⟨by simp [segments_paSessionKeyWith], fun e => ?_⟩
    have := congrArg String.toList e
    simp [paSessionKeyWith, kPaSession, kAdminPw] at this
  · refine ⟨by simp [segments_gaSessionKeyWith], fun e => ?_⟩
    have := congrArg String.toList e
    simp [gaSessionKeyWith, kGaSession, kAdminPw] at this

omit [Hashing] in
/-- A session that is not dropped keeps its token and its principal. -/
theorem session_kept (ht : WellPlaced t) (hs : sessionAt t k = some s) (hd : ¬ drops t cmd k) (hk : loginKey cmd ≠ some k)
    (now : Int) : ∃ s', sessionAt (apply cmd now t).store k = some s' ∧ s'.tokenHash = s.tokenHash ∧
      s'.principal = s.principal := by
  obtain ⟨hhead, hpw⟩ := session_key ht hs
  have hrow : t[k]? = some (.session s) := entity_exact.mp hs
  rcases credential_apply ht cmd now with ⟨⟨events, hok⟩, hstep⟩ | ⟨-, hsame⟩
  · by_cases hi : (issues cmd).isSome
    · obtain ⟨hash, hi⟩ := Option.isSome_iff_exists.mp hi
      exact ⟨s, (entity_congr (login_elsewhere hi hk now hok)).trans hs, rfl, rfl⟩
    · rcases hstep.kept k (credential_sess hhead) hd with e | ⟨v, hp, e⟩
      · exact ⟨s, (entity_congr e).trans hs, rfl, rfl⟩
      · cases hp with
        | adminLogin _ _ _ hhash => rw [hhash] at hi; exact absurd rfl hi
        | paLogin _ _ _ _ hhash => rw [hhash] at hi; exact absurd rfl hi
        | gaLogin _ _ _ _ hhash => rw [hhash] at hi; exact absurd rfl hi
        | @prolong _ _ s₀ _ h₀ =>
          obtain rfl : s₀ = s := by simpa using h₀.symm.trans hrow
          exact ⟨_, entity_exact.mpr e, rfl, rfl⟩
        | createPa => simp [segments_projectAdminKey] at hhead
        | passwordPa => simp [segments_projectAdminKey] at hhead
        | createGa => simp [segments_globalAdminKey] at hhead
        | passwordGa => simp [segments_globalAdminKey] at hhead
        | createToken => simp [segments_dataTokenKey] at hhead
        | revokeToken hr => cases hr.symm.trans hrow
        | adminPassword => exact absurd rfl hpw
  · exact ⟨s, (entity_congr (hsame k (credential_of_session ht hs))).trans hs, rfl, rfl⟩

omit [Hashing] in
theorem session_kept_run (log : List (Command × Int)) : ∀ {t : Store} {s : AdminSession}, WellPlaced t → sessionAt t k = some s →
    SparesSession k t log → ∃ s', sessionAt (runFrom t log) k = some s' ∧ s'.tokenHash = s.tokenHash ∧
      s'.principal = s.principal := by
  induction log with
  | nil => exact fun _ hs _ => ⟨_, hs, rfl, rfl⟩
  | cons e log ih =>
    intro t s ht hs hspares
    obtain ⟨hd, hk, hrest⟩ := hspares
    obtain ⟨s₁, hs₁, hh₁, hp₁⟩ := session_kept ht hs hd hk e.2
    obtain ⟨s₂, hs₂, hh₂, hp₂⟩ := ih (wellPlaced_apply ht e.1 e.2) hs₁ hrest
    exact ⟨s₂, hs₂, hh₂.trans hh₁, hp₂.trans hp₁⟩

theorem login_row (ht : WellPlaced t) {a : Attempt} {acct : Option Account} {events : List PublishEvent} {now : Int}
    (hok : (apply (a.sessionCommand acct) now t).result = .ok events) :
    ∃ k s, loginKey (a.sessionCommand acct) = some k ∧ sessionAt (apply (a.sessionCommand acct) now t).store k = some s ∧
      s.tokenHash = Hashing.tokenHash (a.token acct) ∧ s.expiresAt = a.expiresAt ∧ s.principal.account = acct := by
  obtain ⟨s, hs, hstore, -⟩ := apply_ok hok
  rw [hstore]
  cases acct with
  | none =>
    obtain ⟨-, rfl⟩ := Prod.mk.inj hs
    exact ⟨_, _, rfl, entity_insert t _ _, rfl, rfl, rfl⟩
  | some acct =>
    cases acct with
    | project u =>
      obtain ⟨_, -, h⟩ := loadMerged_bind.mp hs
      obtain ⟨_, -, h⟩ := okOr_bind.mp h
      rw [savePending_bind] at h
      obtain ⟨-, rfl⟩ := pure_ok.mp h
      exact ⟨_, _, rfl, entity_insert t _ _, rfl, rfl, rfl⟩
    | global u =>
      obtain ⟨_, hload, h⟩ := loadMerged_bind.mp hs
      obtain ⟨g, hg, h⟩ := okOr_bind.mp h
      rw [savePending_bind] at h
      obtain ⟨-, rfl⟩ := pure_ok.mp h
      rw [hg] at hload
      have hname : g.username = u := (globalAdminOf_username ht (entity_eq_some.mpr hload)).2
      exact ⟨_, _, rfl, entity_insert t _ _, rfl, rfl, by rw [← hname]; rfl⟩

omit [SerdeJson] in
theorem loginToken_session (a : Attempt) (acct : Option Account) (hsid : Dotless a.sessionId) :
    LoginToken (a.sessionCommand acct) (a.token acct) := by
  match acct with
  | none => exact .admin hsid
  | some (.project u) => exact .pa hsid
  | some (.global u) => exact .ga hsid

/-- A login token is accepted as its own principal until it expires, is logged out or has its account's sessions
revoked. -/
theorem login_accepted (h : Reachable t) {a : Attempt} (hsid : Dotless a.sessionId) {acct : Option Account} {now : Int}
    {events : List PublishEvent} (hok : (apply (a.sessionCommand acct) now t).result = .ok events) :
    ∃ k s, loginKey (a.sessionCommand acct) = some k ∧ s.expiresAt = a.expiresAt ∧
      sessionAt (apply (a.sessionCommand acct) now t).store k = some s ∧
      ∀ log, SparesSession k (apply (a.sessionCommand acct) now t).store log →
        ∃ s' p, sessionAt (runFrom (apply (a.sessionCommand acct) now t).store log) k = some s' ∧ p.account = acct ∧
          ∀ n, resolvePrincipal n (some ("Bearer " ++ a.token acct))
            (runFrom (apply (a.sessionCommand acct) now t).store log) = if s'.notExpired n then some p else none := by
  obtain ⟨k, s, hk, hs, hhash, hexp, hacct⟩ := login_row (wellPlaced_of_reach h) hok
  have hreach : Reach (fun _ _ _ => True) (apply (a.sessionCommand acct) now t).store := h.step _ now trivial
  have hu : ∀ acct', logsIn (a.sessionCommand acct) = some acct' → Dotless acct'.username := by
    intro acct' h'
    rw [logsIn_sessionCommand] at h'
    exact dotless_of_session (wellPlaced_of_reach hreach) (sessionsBacked_of_reach hreach) hs (hacct.trans h')
  have hb : bearer (some ("Bearer " ++ a.token acct)) = some (a.token acct) :=
    stripPrefix_append "Bearer " _
  have hroute := ((loginToken_session a acct hsid).route hu hb).1.trans hk
  refine ⟨k, s, hk, hexp, hs, fun log hspares => ?_⟩
  obtain ⟨s', hs', hhash', hp'⟩ := session_kept_run log (wellPlaced_of_reach hreach) hs hspares
  refine ⟨s', s'.principal, hs', by rw [hp', hacct], fun n => ?_⟩
  rw [resolvePrincipal_at hb hroute, hs', Option.bind_some]
  simp only [hhash', hhash, true_and]

end Runs

/-! ## A session of `ann` -/

section
attribute [local instance] sampleJson sampleHashing

/-- `ann` has logged in, and an old session of the administrator stands. -/
def annSessionLog : List (Command × Int) :=
  annLog ++ [(annAttempt.sessionCommand annLogin.account, 5), (.sessionLogin "x9" 6 none, 6)]

theorem reach_annSessionLog : Reach (fun _ cmd _ => GivesOut cmd) (runLog annSessionLog) := by
  have h₀ : Reach (fun _ cmd _ => GivesOut cmd) ∅ := .empty
  have h₁ := h₀.step (.projectCreate "shop" "" 0 none) 1 (by intro hash hi; cases hi)
  have h₂ := h₁.step (.projectAdminCreate "shop" "ann" "s" "spw" 2) 2 (by intro hash hi; cases hi)
  have h₃ := h₂.step (annAttempt.sessionCommand annLogin.account) 5 (by
    intro hash hi
    cases hi
    exact ⟨_, loginToken_session annAttempt annLogin.account (by unfold Dotless; decide), rfl⟩)
  exact h₃.step (.sessionLogin "x9" 6 none) 6 (by
    intro hash hi
    cases hi
    exact ⟨"x9", .bare (by unfold Dotless; decide), rfl⟩)

/-- `ann` logs out, the administrator stays. -/
theorem logout_exact_sample :
    let t := runLog annSessionLog
    let ann := some ("Bearer " ++ annAttempt.token annLogin.account)
    resolvePrincipal 7 ann t = some (.projectAdmin "ann" "shop") ∧
      ∃ cmd, logoutCommand (.projectAdmin "ann" "shop") ann = some cmd ∧
        resolvePrincipal 9 ann (apply cmd 8 t).store = none ∧
        resolvePrincipal 9 (some "Bearer x9") (apply cmd 8 t).store = some .admin := by
  intro t ann
  have hres : resolvePrincipal 7 ann t = some (.projectAdmin "ann" "shop") := by decide +kernel
  obtain ⟨k, s, -, ⟨cmd, hcmd, hout⟩, -⟩ := logout_exact (fun _ _ h => h) reach_annSessionLog hres
  obtain ⟨-, hresolve⟩ := hout 8
  obtain ⟨hgone, hothers⟩ := hresolve 9
  refine ⟨hres, cmd, hcmd, hgone, ?_⟩
  rw [hothers (some "Bearer x9") (by decide)]
  decide +kernel

/-- The token of `ann` outlives the login of the administrator. -/
theorem login_accepted_sample :
    let t := (apply (annAttempt.sessionCommand annLogin.account) 5 (runLog annLog)).store
    ∃ s' p, sessionAt (runFrom t [(.sessionLogin "x9" 6 none, 6)]) (paSessionKeyWith "ann" "s1") = some s' ∧
      p.account = annLogin.account ∧ ∀ n, resolvePrincipal n (some ("Bearer " ++ annAttempt.token annLogin.account))
        (runFrom t [(.sessionLogin "x9" 6 none, 6)]) = if s'.notExpired n then some p else none := by
  have hok : (apply (annAttempt.sessionCommand annLogin.account) 5 (runLog annLog)).result = .ok [] := by decide +kernel
  obtain ⟨k, s, hk, -, -, h⟩ := login_accepted (a := annAttempt) (reachable_runLog annLog) (by unfold Dotless; decide) hok
  obtain rfl : paSessionKeyWith "ann" "s1" = k := Option.some.inj hk
  exact h [(.sessionLogin "x9" 6 none, 6)] ⟨id, by decide, trivial⟩

end

end Defing
