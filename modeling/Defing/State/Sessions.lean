import Mathlib.Data.List.TakeWhile
import Defing.State.Origin
import Defing.State.Always

/-!
# Sessions

Every session is one of an account that exists and has the principal of that
account, so nothing is left of an account's sessions once they are revoked.
-/

namespace Defing

open KV (Plain segments)

section
variable [SerdeJson]

/-! ## The account of a key -/

def sessionUser (stem k : String) : String :=
  String.ofList ((k.toList.drop stem.toList.length).takeWhile (· ≠ '/'))

omit [SerdeJson] in
theorem takeWhile_plain {u : String} (hu : Plain u) (c : List Char) :
    c.takeWhile (· ≠ '/') = u.toList ↔ c = u.toList ∨ ∃ d, c = u.toList ++ '/' :: d := by
  constructor
  · intro h
    have hc := List.takeWhile_append_dropWhile (p := (· ≠ '/')) (l := c)
    rw [h] at hc
    rcases hd : c.dropWhile (· ≠ '/') with _ | ⟨x, d⟩
    · rw [hd, List.append_nil] at hc
      exact .inl hc.symm
    · have hx := List.head?_dropWhile_not (fun y => decide (y ≠ '/')) c
      rw [hd] at hx
      obtain rfl : x = '/' := by simpa using hx
      rw [hd] at hc
      exact .inr ⟨d, hc.symm⟩
  · have hall : ∀ x ∈ u.toList, decide (x ≠ '/') = true := by
      intro x hx
      exact decide_eq_true fun e => hu (e ▸ hx)
    rintro (rfl | ⟨d, rfl⟩)
    · exact List.takeWhile_eq_self_iff.2 hall
    · rw [List.takeWhile_append_of_pos hall]
      simp

omit [SerdeJson] in
theorem sessionUser_append (stem : String) (c : List Char) :
    sessionUser stem (stem ++ String.ofList c) = String.ofList (c.takeWhile (· ≠ '/')) := by
  simp [sessionUser]

omit [SerdeJson] in
theorem sessionUser_eq {stem k u : String} (hu : Plain u) :
    startsWith stem k ∧ sessionUser stem k = u ↔ k = stem ++ u ∨ startsWith (stem ++ u ++ "/") k := by
  constructor
  · intro ⟨h, e⟩
    obtain ⟨c, hc⟩ := startsWith_iff.mp h
    obtain rfl : k = stem ++ String.ofList c := String.toList_inj.mp (by simp [hc])
    rw [sessionUser_append, ← String.toList_inj, String.toList_ofList] at e
    rcases (takeWhile_plain hu c).mp e with rfl | ⟨d, rfl⟩
    · exact .inl (String.toList_inj.mp (by simp))
    · exact .inr (startsWith_iff.mpr (by simp))
  · have hcases : ∀ c, (c = u.toList ∨ ∃ d, c = u.toList ++ '/' :: d) →
        startsWith stem (stem ++ String.ofList c) ∧ sessionUser stem (stem ++ String.ofList c) = u := by
      intro c hc
      refine ⟨startsWith_iff.mpr (by simp), ?_⟩
      rw [sessionUser_append, (takeWhile_plain hu c).mpr hc, String.ofList_toList]
    rintro (rfl | h)
    · have := hcases u.toList (.inl rfl)
      rwa [String.ofList_toList] at this
    · obtain ⟨d, hd⟩ := startsWith_iff.mp h
      obtain rfl : k = stem ++ String.ofList (u.toList ++ '/' :: d) := String.toList_inj.mp (by rw [← hd]; simp)
      exact hcases _ (.inr ⟨d, rfl⟩)

omit [SerdeJson] in
theorem paSession_iff {u k : String} (hu : Plain u) :
    PaSession u k ↔ startsWith kPaSession k ∧ sessionUser kPaSession k = u :=
  (sessionUser_eq hu).symm

omit [SerdeJson] in
theorem gaSession_user {u k : String} (hu : Plain u) (h : GaSession u k) : sessionUser kGaSession k = u :=
  ((sessionUser_eq hu).mpr (.inr h)).2

/-! ## Sessions are backed by accounts -/

/-- Every session below the stem of an account kind has the principal of the account its key names, and the
account exists; all others are sessions of the super administrator. -/
structure SessionsBacked (t : Store) : Prop where
  project : ∀ k s, startsWith kPaSession k → sessionAt t k = some s →
    ∃ a, adminOf t (sessionUser kPaSession k) = some a ∧
      s.principal = .projectAdmin (sessionUser kPaSession k) a.project
  global : ∀ k s, startsWith kGaSession k → sessionAt t k = some s →
    ∃ a, globalAdminOf t (sessionUser kGaSession k) = some a ∧
      s.principal = .globalAdmin (sessionUser kGaSession k)
  admin : ∀ k s, ¬ startsWith kPaSession k → ¬ startsWith kGaSession k → sessionAt t k = some s →
    s.principal = .admin

def Principal.account : Principal → Option Account
  | .admin => none
  | .projectAdmin u _ => some (.project u)
  | .globalAdmin u => some (.global u)

def HoldsSession (t : Store) (acct : Account) : Prop :=
  ∃ k s, sessionAt t k = some s ∧ s.principal.account = some acct

/-- The commands after which an account has no session: its deletion, a new password for it, the deletion of
its project, and the revocations of all its sessions and of those of all global administrators. -/
def revokes (t : Store) : Command → Account → Prop
  | .projectAdminDelete u, acct => acct = .project u
  | .projectAdminSetPassword u .., acct => acct = .project u
  | .multiPaSessionLogoutAll u, acct => acct = .project u
  | .projectDelete id _, acct => ∃ u a, acct = .project u ∧ adminOf t u = some a ∧ a.project = id
  | .globalAdminDelete u, acct => acct = .global u
  | .globalAdminSetPassword u .., acct => acct = .global u
  | .multiGaSessionLogoutAll u, acct => acct = .global u
  | .globalAdminSessionsRevokeAll, acct => ∃ u, acct = .global u
  | _, _ => False

omit [SerdeJson] in
theorem not_pa_and_ga {k : String} (hp : startsWith kPaSession k) : ¬ startsWith kGaSession k := by
  intro hg
  obtain ⟨c, hc⟩ := startsWith_iff.mp hp
  obtain ⟨d, hd⟩ := startsWith_iff.mp hg
  rw [← hd] at hc
  simp [kPaSession, kGaSession] at hc

omit [SerdeJson] in
theorem sessionKey_apart {k : String} (hk : k = sessionKey ∨ ∃ sid, k = sessionKeyWith sid) :
    ¬ startsWith kPaSession k ∧ ¬ startsWith kGaSession k := by
  simp only [startsWith_iff]
  rcases hk with rfl | ⟨sid, rfl⟩ <;>
    simp [sessionKey, sessionKeyWith, kSession, kSessionPrefix, kPaSession, kGaSession]

omit [SerdeJson] in
theorem startsWith_kPaSession {u k : String} (h : PaSession u k) : startsWith kPaSession k := by
  rcases h with rfl | h
  · exact startsWith_iff.mpr (by simp [paSessionKey])
  · exact startsWith_iff.mpr (List.IsPrefix.trans (by simp [paSessionPrefix]) (startsWith_iff.mp h))

omit [SerdeJson] in
theorem startsWith_kGaSession {u k : String} (h : GaSession u k) : startsWith kGaSession k :=
  startsWith_iff.mpr (List.IsPrefix.trans (by simp [gaSessionPrefix]) (startsWith_iff.mp h))

section
variable {t t' : Store} {cmd : Command} {k u : String} {s : AdminSession}

/-- A session below the stem of global administrators is one of the user its key names: there is no single key. -/
theorem gaSession_of_user (ht : WellPlaced t) (hk : startsWith kGaSession k) (h : sessionAt t k = some s)
    (hu : sessionUser kGaSession k = u) (hp : Plain u) : GaSession u k := by
  refine ((sessionUser_eq hp).mp ⟨hk, hu⟩).resolve_left fun e => ?_
  rcases ht _ _ (entity_exact.mp h) with hs | ⟨sid, hs⟩ | ⟨u', hs⟩ | ⟨u', sid, hs⟩ | ⟨u', sid, hs⟩
  · exact (sessionKey_apart (.inl hs)).2 hk
  · exact (sessionKey_apart (.inr ⟨sid, hs⟩)).2 hk
  · exact not_pa_and_ga (startsWith_iff.mpr (by simp [hs, paSessionKey])) hk
  · exact not_pa_and_ga (startsWith_iff.mpr (by simp [hs, paSessionKeyWith])) hk
  · have hl := congrArg String.toList (e.symm.trans hs)
    simp only [gaSessionKeyWith, String.toList_append, List.append_assoc, List.append_cancel_left_eq] at hl
    exact hp (by rw [hl]; simp)

theorem sessionsBacked_empty : SessionsBacked ∅ := by
  constructor <;> simp [sessionAt, entity]

theorem CredentialStep.admin_of_session (hw : WellPlaced t') (hs : CredentialStep t cmd t') {a : ProjectAdminAccount}
    (h : sessionAt t' k = some s) (ha : adminOf t u = some a) (hu : PaSession u k) :
    ∃ a', adminOf t' u = some a' ∧ a'.project = a.project := by
  refine hs.admin_kept hw ha fun hd => (hs.row (credential_paSession hu) (entity_exact.mp h)).1 ?_
  rcases drops_cases hd with hseg | ⟨u', e, hall⟩ | ⟨u', e, -⟩ | ⟨_, _, h', _, -, -, -, e⟩
  · simp [segments_projectAdminKey] at hseg
  · exact hall k (projectAdminKey_inj.mp e ▸ hu)
  · exact absurd e projectAdminKey_ne_globalAdminKey
  · have := congrArg segments e
    simp [segments_projectAdminKey, segments_dataTokenKey] at this

theorem CredentialStep.globalAdmin_of_session (hw : WellPlaced t') (hs : CredentialStep t cmd t')
    {a : GlobalAdminAccount} (h : sessionAt t' k = some s) (ha : globalAdminOf t u = some a) (hu : GaSession u k) :
    ∃ a', globalAdminOf t' u = some a' := by
  refine hs.globalAdmin_kept hw ha fun hd => (hs.row (credential_gaSession hu) (entity_exact.mp h)).1 ?_
  rcases drops_cases hd with hseg | ⟨u', e, -⟩ | ⟨u', e, hall⟩ | ⟨_, _, h', _, -, -, -, e⟩
  · simp [segments_globalAdminKey] at hseg
  · exact absurd e.symm projectAdminKey_ne_globalAdminKey
  · exact hall k (globalAdminKey_inj.mp e ▸ hu)
  · have := congrArg segments e
    simp [segments_globalAdminKey, segments_dataTokenKey] at this

theorem sessionsBacked_step (ht : WellPlaced t) (hw : WellPlaced t') (hb : SessionsBacked t) (hs : CredentialStep t cmd t') :
    SessionsBacked t' := by
  have hpa : ∀ {u a}, adminOf t u = some a → Plain u := fun ha =>
    plain_of_validAccountUsername (adminOf_username ht ha).1
  have hga : ∀ {u a}, globalAdminOf t u = some a → Plain u := fun ha =>
    plain_of_validAccountUsername (globalAdminOf_username ht ha).1
  refine ⟨fun k s hk h => ?_, fun k s hk h => ?_, fun k s hp hg h => ?_⟩
  · rcases hs.session hw h with ⟨s₀, h₀, hp, -⟩ | ⟨hk', -⟩ | ⟨u, a, -, ha, hu, hp⟩ | ⟨u, a, -, ha, hu, -⟩
    · obtain ⟨a, ha, hp₀⟩ := hb.project k s₀ hk h₀
      obtain ⟨a', ha', e⟩ := hs.admin_of_session hw h ha ((paSession_iff (hpa ha)).mpr ⟨hk, rfl⟩)
      exact ⟨a', ha', by rw [hp, hp₀, e]⟩
    · exact absurd hk (sessionKey_apart hk').1
    · obtain ⟨a', ha', e⟩ := hs.admin_of_session hw h ha hu
      rw [((paSession_iff (hpa ha)).mp hu).2]
      exact ⟨a', ha', by rw [hp, e]⟩
    · exact absurd (startsWith_kGaSession hu) (not_pa_and_ga hk)
  · rcases hs.session hw h with ⟨s₀, h₀, hp, -⟩ | ⟨hk', -⟩ | ⟨u, a, -, ha, hu, -⟩ | ⟨u, a, -, ha, hu, hp⟩
    · obtain ⟨a, ha, hp₀⟩ := hb.global k s₀ hk h₀
      obtain ⟨a', ha'⟩ := hs.globalAdmin_of_session hw h ha (gaSession_of_user ht hk h₀ rfl (hga ha))
      exact ⟨a', ha', hp.trans hp₀⟩
    · exact absurd hk (sessionKey_apart hk').2
    · exact absurd hk (not_pa_and_ga (startsWith_kPaSession hu))
    · obtain ⟨a', ha'⟩ := hs.globalAdmin_of_session hw h ha hu
      have huser := gaSession_user (hga ha) hu
      rw [huser]
      exact ⟨a', ha', by rw [hp, (globalAdminOf_username ht ha).2]⟩
  · rcases hs.session hw h with ⟨s₀, h₀, hp', -⟩ | ⟨-, hp'⟩ | ⟨u, a, -, -, hu, -⟩ | ⟨u, a, -, -, hu, -⟩
    · exact hp'.trans (hb.admin k s₀ hp hg h₀)
    · exact hp'
    · exact absurd (startsWith_kPaSession hu) hp
    · exact absurd (startsWith_kGaSession hu) hg

/-! ## Revocation -/

/-- The hash in a session is from before, or that of the login of its account. -/
theorem CredentialStep.tokenHash (hw : WellPlaced t) (hw' : WellPlaced t') (hs : CredentialStep t cmd t') {s : AdminSession}
    (h : sessionAt t' k = some s) :
    (∃ s₀, sessionAt t k = some s₀ ∧ s.principal = s₀.principal ∧ s.tokenHash = s₀.tokenHash) ∨
      issues cmd = some s.tokenHash ∧ s.principal.account = logsIn cmd := by
  obtain ⟨-, hrow⟩ := hs.row (credential_of_session hw' h) (entity_exact.mp h)
  rcases hrow with hrow | hp
  · exact .inl ⟨s, entity_exact.mpr hrow, rfl, rfl⟩
  · cases hp with
    | adminLogin hk hp hacct hhash => exact .inr ⟨hhash, by rw [hp, hacct]; rfl⟩
    | prolong hs => exact .inl ⟨_, entity_exact.mpr hs, rfl, rfl⟩
    | paLogin hcmd ha hk hp hhash => exact .inr ⟨hhash, by rw [hp, hcmd]; rfl⟩
    | gaLogin hcmd ha hk hp hhash =>
      rw [hp, hcmd, (globalAdminOf_username hw ha).2]
      exact .inr ⟨hhash, rfl⟩

/-- A session of an account was one before, or the account is being logged in. -/
theorem HoldsSession.before {acct : Account} (ht : WellPlaced t) (hw : WellPlaced t') (hs : CredentialStep t cmd t')
    (h : HoldsSession t' acct) : HoldsSession t acct ∨ logsIn cmd = some acct := by
  obtain ⟨k, s, hk, hp⟩ := h
  rcases hs.session hw hk with ⟨s₀, h₀, e, -⟩ | ⟨-, e⟩ | ⟨u, a, hl, -, -, e⟩ | ⟨u, a, hl, ha, -, e⟩ <;> rw [e] at hp
  · exact .inl ⟨k, s₀, h₀, hp⟩
  · cases hp
  · exact .inr (hl.trans hp)
  · rw [(globalAdminOf_username ht ha).2] at hp
    exact .inr (hl.trans hp)

theorem revoked {acct : Account} (hw : WellPlaced t') (hb : SessionsBacked t') (hs : CredentialStep t cmd t')
    (hr : revokes t cmd acct) : ¬ HoldsSession t' acct := by
  intro ⟨k, s, h, hacct⟩
  by_cases hp : startsWith kPaSession k
  · obtain ⟨a, ha, e⟩ := hb.project k s hp h
    have hu := (paSession_iff (plain_of_validAccountUsername (adminOf_username hw ha).1)).mpr ⟨hp, rfl⟩
    have hn := (hs.row (credential_paSession hu) (entity_exact.mp h)).1
    rw [e] at hacct
    obtain rfl : Account.project (sessionUser kPaSession k) = acct := Option.some.inj hacct
    cases cmd <;> try exact hr.elim
    case projectAdminDelete => cases hr; exact hn (.inr hu)
    case projectDelete =>
      obtain ⟨u, a, e, ha, hid⟩ := hr
      cases e
      exact hn (.inl ⟨_, a, ha, hid, .inr hu⟩)
    case globalAdminSessionsRevokeAll => obtain ⟨u, e⟩ := hr; cases e
    all_goals cases hr <;> exact hn hu
  · by_cases hg : startsWith kGaSession k
    · obtain ⟨a, ha, e⟩ := hb.global k s hg h
      have hu := gaSession_of_user hw hg h rfl (plain_of_validAccountUsername (globalAdminOf_username hw ha).1)
      have hn := (hs.row (credential_gaSession hu) (entity_exact.mp h)).1
      rw [e] at hacct
      obtain rfl : Account.global (sessionUser kGaSession k) = acct := Option.some.inj hacct
      cases cmd <;> try exact hr.elim
      case globalAdminDelete => cases hr; exact hn (.inr hu)
      case projectDelete => obtain ⟨u, a, e, -⟩ := hr; cases e
      case globalAdminSessionsRevokeAll =>
        rcases hs.globalAdmin ha with ⟨a₀, h₀, -⟩ | ⟨⟨_, _, _, e⟩, -⟩
        · exact hn ⟨_, a₀, h₀, hu⟩
        · cases e
      all_goals cases hr <;> exact hn hu
    · rw [hb.admin k s hp hg h] at hacct
      cases hacct

end

section
variable {t : Store}

theorem sessionsBacked_apply (ht : WellPlaced t) (hb : SessionsBacked t) (cmd : Command) (now : Int) :
    SessionsBacked (apply cmd now t).store := by
  rcases credential_apply ht cmd now with ⟨-, hs⟩ | ⟨-, hk⟩
  · exact sessionsBacked_step ht (wellPlaced_apply ht cmd now) hb hs
  · exact sessionsBacked_step ht (wellPlaced_apply ht cmd now) hb (.idle hk)

theorem not_holdsSession_runFrom {acct : Account} (log : List (Command × Int)) :
    ∀ {t : Store}, WellPlaced t → ¬ HoldsSession t acct → (∀ e ∈ log, logsIn e.1 ≠ some acct) →
      ¬ HoldsSession (runFrom t log) acct := by
  induction log with
  | nil => exact fun _ hn _ => hn
  | cons e log ih =>
    intro t ht hn hlog
    refine ih (wellPlaced_apply ht e.1 e.2) (fun h => ?_) fun e' he => hlog e' (List.mem_cons_of_mem _ he)
    rcases credential_apply ht e.1 e.2 with ⟨-, hs⟩ | ⟨-, hk⟩
    · exact (h.before ht (wellPlaced_apply ht e.1 e.2) hs).elim hn (hlog e List.mem_cons_self)
    · exact (h.before ht (wellPlaced_apply ht e.1 e.2) (.idle hk)).elim hn nofun

/-- In every reachable store each session has the principal of the account its key names, which exists; and a
command that revokes the sessions of an account leaves none, nor does any comes back until the account is logged
in again. -/
theorem session_integrity (h : Reachable t) :
    SessionsBacked t ∧
      ∀ cmd now events acct, (apply cmd now t).result = .ok events → revokes t cmd acct →
        ∀ log, (∀ e ∈ log, logsIn e.1 ≠ some acct) → ¬ HoldsSession (runFrom (apply cmd now t).store log) acct := by
  have hb : ∀ {t}, Reachable t → SessionsBacked t := by
    intro t h
    induction h with
    | empty => exact sessionsBacked_empty
    | step cmd now hr _ ih => exact sessionsBacked_apply (wellPlaced_of_reach hr) ih cmd now
  refine ⟨hb h, fun cmd now events acct hok hr log hlog => ?_⟩
  have ht := wellPlaced_of_reach h
  have hw := wellPlaced_apply ht cmd now
  rcases credential_apply ht cmd now with ⟨-, hs⟩ | ⟨⟨e, he⟩, -⟩
  · exact not_holdsSession_runFrom log hw (revoked hw (sessionsBacked_apply ht (hb h) cmd now) hs hr) hlog
  · rw [hok] at he
    cases he

end

end

section
attribute [local instance] sampleJson

def accountLog : List (Command × Int) :=
  [(.projectCreate "shop" "" 0 none, 1), (.projectAdminCreate "shop" "ann" "salt" "hash" 2, 2),
    (.projectAdminCreate "shop" "anna" "salt" "hash" 3, 3), (.multiPaSessionLogin "ann" "t" 4 none "d" "s1", 4),
    (.paSessionLogin "anna" "t" 5 none "d", 5)]

/-- The deletion of `ann`, whose name is a prefix of `anna`. -/
theorem session_integrity_sample :
    SessionsBacked (runLog accountLog) ∧
      ¬ HoldsSession (runFrom (apply (.projectAdminDelete "ann") 6 (runLog accountLog)).store
        [(.projectAdminCreate "shop" "ann" "salt" "hash" 7, 7)]) (.project "ann") := by
  have h := session_integrity (reachable_runLog accountLog)
  exact ⟨h.1, h.2 (.projectAdminDelete "ann") 6 [] (.project "ann") (by decide +kernel) rfl _ (by simp [logsIn])⟩

end

end Defing
