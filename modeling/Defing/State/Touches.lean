import Defing.State.Placed

/-!
# What each command may touch

Every command obeys `rules (touches cmd) (touchesDirectly cmd)`: it writes
rows where their type says and stays within its keys.
-/

namespace Defing

open KV (Prog Contract Plain segments)

def OutsideProjects (k : String) : Prop := (segments k).head? ≠ some "p"

def AccountKey (k : String) : Prop := ∃ a ∈ ["sess", "idx", "adm", "tok", "audit"], (segments k).head? = some a

theorem AccountKey.outside {k : String} (h : AccountKey k) : OutsideProjects k := by
  obtain ⟨a, ha, hk⟩ := h
  rw [OutsideProjects, hk]
  simp only [List.mem_cons, List.not_mem_nil, or_false] at ha
  rcases ha with rfl | rfl | rfl | rfl | rfl <;> decide

def UnderBranch (id : ProjectId) (b : BranchName) (k : String) : Prop :=
  ∃ tail, segments k = "p" :: id :: "b" :: b :: tail

def SharedOrBranch (k : String) : Prop := OutsideProjects k ∨ ∃ id b, UnderBranch id b k

def SharedKey (k : String) : Prop := ∃ key, k = sharedKey key ∨ k = sharedDraftKey key

def SharedRows (k : String) : Prop := SharedKey k ∨ ∃ id b, UnderBranch id b k

def NewProject (name : String) (k : String) : Prop :=
  k = projectKey name ∨ k = idxPname name ∨ k = structKey name ∨
    ∃ b ∈ [BranchName.DEV, BranchName.TEST, BranchName.PROD], k = branchStateKey name b

def OldProject (id : ProjectId) (k : String) : Prop := startsWith (projectKey id) k ∨ OutsideProjects k

def UnderStructure (id : ProjectId) (k : String) : Prop :=
  k = structKey id ∨ k = structDraftKey id ∨ ∃ b, UnderBranch id b k

def touches : Command → String → Prop
  | .projectCreate name .. => NewProject name
  | .projectDelete id .. => OldProject id
  | .branchCreate id name .. => fun k => k = branchStateKey id name
  | .branchDelete id name .. => fun k => startsWith (branchPrefix id name) k
  | .structureDraftSet id .. => fun k => k = structDraftKey id
  | .publishStructure id .. => UnderStructure id
  | .draftUpdate id b .. => UnderBranch id b
  | .publish id b .. => UnderBranch id b
  | .rollback id b .. => UnderBranch id b
  | .grayPublish id b .. => UnderBranch id b
  | .grayPromote id b .. => UnderBranch id b
  | .grayAbort id b .. => UnderBranch id b
  | .sharedPublish .. => SharedOrBranch
  | _ => OutsideProjects

def touchesDirectly : Command → String → Prop
  | .sharedPublish .. => fun k => ∃ key, k = sharedDraftKey key
  | _ => fun _ => False

theorem segments_of_startsWith {xs : List String} {stem k : String} (h : startsWith stem k)
    (e : ∀ c, stem.toList ++ c = (KV.under xs (String.ofList c)).toList) (hx : ∀ a ∈ xs, Plain a) :
    ∃ tail, segments k = xs ++ tail := by
  obtain ⟨c, hc⟩ := List.isPrefixOf_iff_prefix.mp h
  exact ⟨_, KV.segments_of xs (String.ofList c) (by rw [← hc, e]) hx⟩

section
variable {k : String}

theorem outside_sharedKey (key : String) : OutsideProjects (sharedKey key) := by
  simp [OutsideProjects, segments_sharedKey]

theorem outside_sharedDraftKey (key : String) : OutsideProjects (sharedDraftKey key) := by
  simp [OutsideProjects, segments_sharedDraftKey]

theorem SharedKey.outside {k : String} (h : SharedKey k) : OutsideProjects k := by
  obtain ⟨key, rfl | rfl⟩ := h
  · exact outside_sharedKey key
  · exact outside_sharedDraftKey key

theorem account_idxPname (name : String) : AccountKey (idxPname name) := by
  simp [AccountKey, segments_idxPname]

theorem account_sessionKey : AccountKey sessionKey := by
  simp [AccountKey, segments_sessionKey]

theorem account_kAdminPw : AccountKey kAdminPw := by
  simp [AccountKey, segments_kAdminPw]

theorem account_sessionKeyWith (sid : String) : AccountKey (sessionKeyWith sid) := by
  simp [AccountKey, segments_sessionKeyWith]

theorem account_paSessionKey (u : String) : AccountKey (paSessionKey u) := by
  simp [AccountKey, segments_paSessionKey]

theorem account_paSessionKeyWith (u sid : String) : AccountKey (paSessionKeyWith u sid) := by
  simp [AccountKey, segments_paSessionKeyWith]

theorem account_gaSessionKeyWith (u sid : String) : AccountKey (gaSessionKeyWith u sid) := by
  simp [AccountKey, segments_gaSessionKeyWith]

theorem account_projectAdminKey (u : String) : AccountKey (projectAdminKey u) := by
  simp [AccountKey, segments_projectAdminKey]

theorem account_globalAdminKey (u : String) : AccountKey (globalAdminKey u) := by
  simp [AccountKey, segments_globalAdminKey]

theorem account_dataTokenKey (hash : String) : AccountKey (dataTokenKey hash) := by
  simp [AccountKey, segments_dataTokenKey]

theorem account_kAuditSeq : AccountKey kAuditSeq := by
  simp [AccountKey, segments_kAuditSeq]

theorem account_auditKey (seq : Nat) : AccountKey (auditKey seq) := by
  simp [AccountKey, segments_auditKey]

attribute [local simp] outside_sharedKey outside_sharedDraftKey account_idxPname account_sessionKey
  account_kAdminPw account_sessionKeyWith account_paSessionKey account_paSessionKeyWith
  account_gaSessionKeyWith account_projectAdminKey account_globalAdminKey account_dataTokenKey
  account_kAuditSeq account_auditKey

theorem account_of_startsWith {stem : String} {a : String} (h : startsWith stem k)
    (e : ∃ rest, ∀ c, stem.toList ++ c = a.toList ++ '/' :: (rest ++ c)) (ha : Plain a)
    (hp : a ∈ ["sess", "idx", "adm", "tok", "audit"]) : AccountKey k := by
  obtain ⟨rest, e⟩ := e
  obtain ⟨c, hc⟩ := List.isPrefixOf_iff_prefix.mp h
  have : segments k = [a] ++ segments (String.ofList (rest ++ c)) :=
    KV.segments_of [a] (String.ofList (rest ++ c)) (by rw [← hc, e]; simp [KV.under]) (by simpa using ha)
  exact ⟨a, hp, by rw [this]; rfl⟩

theorem account_paSessionPrefix {u : String} (h : startsWith (paSessionPrefix u) k) : AccountKey k :=
  account_of_startsWith (a := "sess") h
    ⟨"pa/".toList ++ u.toList ++ ['/'], by simp [paSessionPrefix, kPaSession]⟩ (by simp [Plain]) (by simp)

theorem account_gaSessionPrefix {u : String} (h : startsWith (gaSessionPrefix u) k) : AccountKey k :=
  account_of_startsWith (a := "sess") h
    ⟨"ga/".toList ++ u.toList ++ ['/'], by simp [gaSessionPrefix, kGaSession]⟩ (by simp [Plain]) (by simp)

theorem account_kSessionPrefix (h : startsWith kSessionPrefix k) : AccountKey k :=
  account_of_startsWith (a := "sess") h ⟨"admin/".toList, by simp [kSessionPrefix]⟩ (by simp [Plain]) (by simp)

theorem account_kDataToken (h : startsWith kDataToken k) : AccountKey k :=
  account_of_startsWith (a := "tok") h ⟨[], by simp [kDataToken]⟩ (by simp [Plain]) (by simp)

/-! ## Sessions, accounts, tokens and the audit log -/

variable [SerdeJson] {D : String → Prop}

section
variable {T : String → Prop} (hT : ∀ k, AccountKey k → T k)
include hT

omit [SerdeJson] in
theorem deleteAllPaSessions_obeys (u : String) :
    (deleteAllPaSessions u).Obeys (rules T D) fun _ => True := by
  simp only [deleteAllPaSessions, Prog.obeys_bind, obeys_deletePending, obeys_getPrefixMerged, rules_del]
  refine ⟨hT _ (account_paSessionKey u), fun rows hr => obeys_deleteRows (fun row hm => ?_) trivial⟩
  exact hT _ (account_paSessionPrefix (hr row hm).1)

omit [SerdeJson] in
theorem deleteAllGaSessions_obeys (u : String) :
    (deleteAllGaSessions u).Obeys (rules T D) fun _ => True := by
  simp only [deleteAllGaSessions, Prog.obeys_bind, obeys_getPrefixMerged]
  exact fun rows hr => obeys_deleteRows (fun row hm => hT _ (account_gaSessionPrefix (hr row hm).1)) trivial

end

abbrev accounts (D : String → Prop) : Contract String Stored VersionWrite := rules AccountKey D

abbrev outside (D : String → Prop) : Contract String Stored VersionWrite := rules OutsideProjects D

theorem heartbeat_obeys {key : String} (hk : AccountKey key) (e : Option Int) (m : String) :
    (heartbeat key e m).Obeys (accounts D) (· = []) := by
  simp only [heartbeat, Prog.obeys_bind, obeys_loadMerged, obeys_okOr, obeys_savePending, rules_row, rules_put,
    placed_session]
  refine ⟨by rintro _ ⟨⟩, ?_⟩
  rintro s hs _ ⟨rfl⟩
  exact ⟨⟨hs, hk⟩, rfl⟩

theorem applySessionLogin_obeys (h : String) (i : Int) (e : Option Int) :
    (applySessionLogin h i e).Obeys (accounts D) (· = []) := by
  simp [applySessionLogin, getSession]

omit [SerdeJson] in
theorem applyMultiSessionLogoutAll_obeys : applyMultiSessionLogoutAll.Obeys (accounts D) (· = []) := by
  simp only [applyMultiSessionLogoutAll, Prog.obeys_bind, obeys_deletePending, obeys_getPrefixMerged, rules_del]
  refine ⟨account_sessionKey, fun rows hr => ?_⟩
  exact obeys_deleteRows (fun row hm => account_kSessionPrefix (hr row hm).1) rfl

theorem applyProjectAdminCreate_obeys (p : ProjectId) (u salt h : String) (now : Int) :
    (applyProjectAdminCreate p u salt h now).Obeys (accounts D) (· = []) := by
  simp only [applyProjectAdminCreate, Prog.obeys_bind, obeys_ensure, obeys_load, obeys_savePending, rules_put,
    placed_projectAdmin, Prog.obeys_pure]
  intro hu
  refine ⟨by simp, fun owner _ _ => ⟨fun _ => ?_, by simp⟩⟩
  refine obeys_readOnly (usernameTaken_readOnly _ _) fun taken _ => ?_
  exact ⟨⟨⟨hu, trivial⟩, account_projectAdminKey u⟩, trivial⟩

theorem applyProjectAdminDelete_obeys (u : String) :
    (applyProjectAdminDelete u).Obeys (accounts D) (· = []) := by
  simp only [applyProjectAdminDelete, Prog.obeys_bind, obeys_load, obeys_ensure]
  refine ⟨by simp, fun a _ _ => (deleteAllPaSessions_obeys (fun _ h => h) u).mono fun _ _ => ?_⟩
  simp

theorem applyProjectAdminSetPassword_obeys (u salt h : String) :
    (applyProjectAdminSetPassword u salt h).Obeys (accounts D) (· = []) := by
  simp only [applyProjectAdminSetPassword, Prog.obeys_bind, obeys_load, obeys_okOr, obeys_savePending, rules_put,
    rules_row, placed_projectAdmin, Prog.obeys_pure]
  refine ⟨by simp, ?_⟩
  rintro a ha _ ⟨rfl⟩
  exact ⟨⟨ha, account_projectAdminKey u⟩, (deleteAllPaSessions_obeys (fun _ h => h) u).mono fun _ _ => trivial⟩

theorem applyPaSessionLogin_obeys (u h : String) (i : Int) (e : Option Int) (d : String) :
    (applyPaSessionLogin u h i e d).Obeys (accounts D) (· = []) := by
  simp [applyPaSessionLogin]

theorem applyPaSessionHeartbeat_obeys (u : String) (e : Option Int) :
    (applyPaSessionHeartbeat u e).Obeys (accounts D) (· = []) := by
  simp [applyPaSessionHeartbeat]

theorem applyMultiPaSessionLogin_obeys (u h : String) (i : Int) (e : Option Int) (d sid : String) :
    (applyMultiPaSessionLogin u h i e d sid).Obeys (accounts D) (· = []) := by
  simp [applyMultiPaSessionLogin, getProjectAdmin]

theorem applyGlobalAdminCreate_obeys (u salt h : String) (now : Int) :
    (applyGlobalAdminCreate u salt h now).Obeys (accounts D) (· = []) := by
  simp only [applyGlobalAdminCreate, Prog.obeys_bind, obeys_ensure, obeys_load, obeys_savePending, rules_put,
    placed_globalAdmin, Prog.obeys_pure]
  refine fun hu => ⟨fun _ => ?_, by simp⟩
  refine obeys_readOnly (usernameTaken_readOnly _ _) fun taken _ => ?_
  exact ⟨⟨⟨hu, trivial⟩, account_globalAdminKey u⟩, trivial⟩

theorem applyGlobalAdminDelete_obeys (u : String) :
    (applyGlobalAdminDelete u).Obeys (accounts D) (· = []) := by
  simp only [applyGlobalAdminDelete, Prog.obeys_bind, obeys_load, obeys_ensure, obeys_deletePending, rules_del]
  exact ⟨by simp, fun a _ _ => ⟨account_globalAdminKey u,
    (deleteAllGaSessions_obeys (fun _ h => h) u).mono fun _ _ => rfl⟩⟩

theorem applyGlobalAdminSetPassword_obeys (u salt h : String) :
    (applyGlobalAdminSetPassword u salt h).Obeys (accounts D) (· = []) := by
  simp only [applyGlobalAdminSetPassword, Prog.obeys_bind, obeys_load, obeys_okOr, obeys_savePending, rules_put,
    rules_row, placed_globalAdmin, Prog.obeys_pure]
  refine ⟨by simp, ?_⟩
  rintro a ha _ ⟨rfl⟩
  exact ⟨⟨ha, account_globalAdminKey u⟩, (deleteAllGaSessions_obeys (fun _ h => h) u).mono fun _ _ => trivial⟩

theorem applyMultiGaSessionLogin_obeys (u h : String) (i : Int) (e : Option Int) (d sid : String) :
    (applyMultiGaSessionLogin u h i e d sid).Obeys (accounts D) (· = []) := by
  simp [applyMultiGaSessionLogin, getGlobalAdmin]

omit [SerdeJson] in
theorem applyGlobalAdminSessionsRevokeAll_obeys :
    applyGlobalAdminSessionsRevokeAll.Obeys (accounts D) (· = []) := by
  simp only [applyGlobalAdminSessionsRevokeAll, Prog.obeys_bind, obeys_getPrefixMerged]
  refine fun rows _ => (Prog.obeys_forM fun row _ => ?_).mono fun _ _ => rfl
  split
  · exact deleteAllGaSessions_obeys (fun _ h => h) _
  · trivial

theorem applyProjectTokenCreate_obeys (p : ProjectId) (n h o : String) (now : Int) :
    (applyProjectTokenCreate p n h o now).Obeys (accounts D) (· = []) := by
  simp only [applyProjectTokenCreate, Prog.obeys_bind, obeys_ensure, obeys_load]
  refine fun _ => ⟨by simp, fun owner _ _ => ⟨?_, fun r _ => rfl⟩⟩
  simp

theorem applyProjectTokenRevoke_obeys (p : ProjectId) (i : String) :
    (applyProjectTokenRevoke p i).Obeys (accounts D) (· = []) := by
  simp only [applyProjectTokenRevoke, Prog.obeys_bind, obeys_getPrefixMerged, obeys_okOr, obeys_load]
  refine fun rows hr row hm => ⟨by simp, ?_⟩
  have hrow := (hr row (List.mem_filter.mp (List.mem_of_mem_head? hm)).1).1
  rintro r hp _ ⟨rfl⟩
  split
  · trivial
  · simp only [Prog.obeys_bind, obeys_savePending, rules_put, placed_token]
    exact ⟨⟨hp, account_kDataToken hrow⟩, rfl⟩

theorem applyAuditAppend_obeys (entry : AuditEntry) :
    (applyAuditAppend entry).Obeys (accounts D) (· = []) := by
  simp [applyAuditAppend]

/-! ## Shared items -/

theorem applySharedDraftUpdate_obeys (item : SharedItem) (o : String) :
    (applySharedDraftUpdate item o).Obeys (rules SharedKey D) (· = []) := by
  simp only [applySharedDraftUpdate, Prog.obeys_bind, obeys_ensure, obeys_savePending, rules_put, placed_shared]
  rintro ⟨_, hk⟩ _ _ _
  exact ⟨⟨⟨hk, .inr trivial⟩, _, .inr rfl⟩, rfl⟩

theorem applySharedDelete_obeys (key o : String) :
    (applySharedDelete key o).Obeys (rules SharedKey D) (· = []) := by
  simp only [applySharedDelete, Prog.obeys_bind, obeys_ensure, getShared, obeys_loadMerged]
  have hkeys : SharedKey (sharedKey key) ∧ SharedKey (sharedDraftKey key) := ⟨⟨key, .inl rfl⟩, ⟨key, .inr rfl⟩⟩
  refine fun _ => ⟨by simp [hkeys], fun item _ => ?_⟩
  simp only [Option.isSome_some, if_true, Prog.obeys_bind, obeys_ensure]
  refine obeys_readOnly (sharedUsage_readOnly key) fun refs _ => ?_
  simp [hkeys]

end

/-! ## Branches -/

section
variable {id : ProjectId} {b : BranchName} (h : Named id b)
include h

theorem under_branchStateKey : UnderBranch id b (branchStateKey id b) :=
  ⟨_, segments_branchStateKey h.plain.1 h.plain.2⟩

theorem under_versionKey (n : Nat) : UnderBranch id b (versionKey id b n) :=
  ⟨_, segments_versionKey h.plain.1 h.plain.2 n⟩

theorem under_snapshotKey (n : Nat) : UnderBranch id b (snapshotKey id b n) :=
  ⟨_, segments_snapshotKey h.plain.1 h.plain.2 n⟩

theorem under_diffKey (n : Nat) : UnderBranch id b (diffKey id b n) :=
  ⟨_, segments_diffKey h.plain.1 h.plain.2 n⟩

theorem under_graySnapKey (n : Nat) : UnderBranch id b (graySnapKey id b n) :=
  ⟨_, segments_graySnapKey h.plain.1 h.plain.2 n⟩

end

section
variable [SerdeJson] {T D : String → Prop} {id : ProjectId} {b : BranchName}

omit [SerdeJson] in
theorem writeVersionSnapshot_obeys (h : Named id b) (hT : ∀ k, UnderBranch id b k → T k) {n : Nat}
    {record : VersionRecord} (hr : record.no = n) (old new : SnapshotMap) :
    (writeVersionSnapshot id b n old new record).Obeys (rules T D) fun _ => True := by
  have hv : ∀ kind, (rules T D).put (versionKey id b n) (Codec.encode { record with kind }) :=
    fun kind => ⟨⟨id, b, h, by rw [← hr]⟩, hT _ (under_versionKey h n)⟩
  unfold writeVersionSnapshot
  rw [Prog.obeys_bind]
  refine ⟨⟨h, hT _ (under_branchStateKey h)⟩, ?_⟩
  change Prog.Obeys _ (ite _ _ _) _
  split
  · rename_i hc
    exact ⟨⟨⟨id, b, n, h, .inl ⟨hc, rfl⟩⟩, hT _ (under_snapshotKey h n)⟩, hv .full, trivial⟩
  · rename_i hc
    exact ⟨⟨⟨id, b, n, h, hc, rfl⟩, hT _ (under_diffKey h n)⟩, hv .diff, trivial⟩

theorem getBranchState_obeys {Q : Option BranchState → Prop} (hn : Q none)
    (hs : ∀ st, Named id b → Q (some st)) : (getBranchState id b).Obeys (rules T D) Q :=
  (obeys_loadMerged _).mpr ⟨hn, fun st h => hs _ (named_of_placed st h)⟩

theorem applyDraftUpdate_obeys (us : List DraftUpdateItem) (ds : List (String × String))
    (bs : List SharedBinding) (now : Int) (o : String) (rev : Option Nat) :
    (applyDraftUpdate id b us ds bs now o rev).Obeys (rules (UnderBranch id b) D) fun _ => True := by
  simp only [applyDraftUpdate, Prog.obeys_bind, obeys_okOr]
  refine getBranchState_obeys (by simp) fun st h => ?_
  rintro _ ⟨rfl⟩
  refine obeys_readOnly (checkDraftRev_readOnly _ _) fun _ => ?_
  refine obeys_readOnly (loadMerged_readOnly _) fun struct => ?_
  rintro struct ⟨rfl⟩
  refine obeys_readOnly (foldlM_readOnly (checkUpdate_readOnly _ _) _ _) fun _ => ?_
  refine obeys_readOnly (foldlM_readOnly (bindOne_readOnly _) _ _) fun r => ?_
  exact ⟨⟨⟨id, b, h, rfl⟩, under_branchStateKey h⟩, trivial⟩

theorem applyPublish_obeys (c r : String) (now : Int) (o : String) (policy : PublishPolicy) :
    (applyPublish id b c r now o policy).Obeys (rules (UnderBranch id b) D) fun _ => True := by
  simp only [applyPublish, Prog.obeys_bind, obeys_okOr]
  refine getBranchState_obeys (by simp) fun st h => ?_
  rintro _ ⟨rfl⟩
  refine obeys_readOnly (loadMerged_readOnly _) fun struct => ?_
  rintro struct ⟨rfl⟩
  split
  · trivial
  · simp only [Prog.obeys_bind, obeys_ensure, obeys_savePending]
    refine fun _ => obeys_readOnly (activeSnapshot_readOnly _ _ _) fun old => ?_
    refine obeys_readOnly (materializeResolved_readOnly _ _ _ _) fun res => ?_
    refine (writeVersionSnapshot_obeys h (fun _ hk => hk) (by rfl) _ _).mono fun _ _ => ?_
    exact ⟨⟨⟨id, b, h, rfl⟩, under_branchStateKey h⟩, trivial⟩

theorem applyRollback_obeys (v : Nat) (c r : String) (now : Int) (o : String) :
    (applyRollback id b v c r now o).Obeys (rules (UnderBranch id b) D) fun _ => True := by
  simp only [applyRollback, Prog.obeys_bind, obeys_okOr]
  refine getBranchState_obeys (by simp) fun st h => ?_
  rintro _ ⟨rfl⟩
  split
  · trivial
  · simp only [Prog.obeys_bind, obeys_ensure, obeys_savePending]
    refine fun _ => obeys_readOnly (snapshotOf_readOnly _ _ _) fun snap => ?_
    refine obeys_readOnly (activeSnapshot_readOnly _ _ _) fun old => ?_
    refine (writeVersionSnapshot_obeys h (fun _ hk => hk) (by rfl) _ _).mono fun _ _ => ?_
    exact ⟨⟨⟨id, b, h, rfl⟩, under_branchStateKey h⟩, trivial⟩

theorem applyGrayPublish_obeys (rule : GrayRule) (c r : String) (now : Int) (o : String)
    (policy : PublishPolicy) :
    (applyGrayPublish id b rule c r now o policy).Obeys (rules (UnderBranch id b) D) fun _ => True := by
  simp only [applyGrayPublish, Prog.obeys_bind, obeys_okOr]
  refine obeys_readOnly (validateGrayRule_readOnly rule) fun _ => ?_
  refine getBranchState_obeys (by simp) fun st h => ?_
  rintro _ ⟨rfl⟩
  refine obeys_readOnly (loadMerged_readOnly _) fun struct => ?_
  rintro struct ⟨rfl⟩
  have hg : ∀ n (snap : SnapshotMap), (rules (UnderBranch id b) D).put (graySnapKey id b n) (Codec.encode snap) :=
    fun n _ => ⟨⟨id, b, n, h, .inr rfl⟩, under_graySnapKey h n⟩
  split
  · trivial
  · simp only [Prog.obeys_bind, obeys_ensure, obeys_savePending]
    refine fun _ => obeys_readOnly (activeSnapshot_readOnly _ _ _) fun old => ?_
    refine obeys_readOnly (materializeResolved_readOnly _ _ _ _) fun res => ⟨hg _ _, ?_⟩
    split
    · exact ⟨under_graySnapKey h _, ⟨⟨id, b, h, rfl⟩, under_branchStateKey h⟩, trivial⟩
    · exact ⟨⟨⟨id, b, h, rfl⟩, under_branchStateKey h⟩, trivial⟩

theorem applyGrayPromote_obeys (c r : String) (now : Int) (o : String) :
    (applyGrayPromote id b c r now o).Obeys (rules (UnderBranch id b) D) fun _ => True := by
  simp only [applyGrayPromote, Prog.obeys_bind, obeys_okOr]
  refine getBranchState_obeys (by simp) fun st h => ?_
  rintro _ ⟨rfl⟩
  split
  · trivial
  · simp only [Prog.obeys_bind, obeys_ensure, obeys_savePending, obeys_deletePending]
    refine fun _ => obeys_readOnly (graySnapshotOf_readOnly _ _ _) fun gray => ?_
    refine obeys_readOnly (activeSnapshot_readOnly _ _ _) fun old => ?_
    refine (writeVersionSnapshot_obeys h (fun _ hk => hk) (by rfl) _ _).mono fun _ _ => ?_
    exact ⟨under_graySnapKey h _, ⟨⟨id, b, h, rfl⟩, under_branchStateKey h⟩, trivial⟩

theorem applyGrayAbort_obeys (c r : String) (now : Int) (o : String) :
    (applyGrayAbort id b c r now o).Obeys (rules (UnderBranch id b) D) fun _ => True := by
  simp only [applyGrayAbort, Prog.obeys_bind, obeys_okOr]
  refine getBranchState_obeys (by simp) fun st h => ?_
  rintro _ ⟨rfl⟩
  split
  · trivial
  · simp only [Prog.obeys_bind, obeys_ensure, obeys_savePending, obeys_deletePending]
    exact fun _ => ⟨under_graySnapKey h _, ⟨⟨id, b, h, rfl⟩, under_branchStateKey h⟩, trivial⟩

theorem cascadeToBranch_obeys (hT : ∀ k, UnderBranch id b k → T k) (g k : String) (value : Value)
    (c r : String) (now : Int) :
    (cascadeToBranch id b g k value c r now).Obeys (rules T D) fun _ => True := by
  simp only [cascadeToBranch, Prog.obeys_bind, obeys_okOr, obeys_savePending]
  refine getBranchState_obeys (by simp) fun st h => ?_
  rintro _ ⟨rfl⟩
  refine obeys_readOnly (activeSnapshot_readOnly _ _ _) fun old => ?_
  refine (writeVersionSnapshot_obeys h hT (by rfl) _ _).mono fun _ _ => ?_
  exact ⟨⟨⟨id, b, h, rfl⟩, hT _ (under_branchStateKey h)⟩, trivial⟩

theorem listSharedDrafts_obeys {Q : List SharedItem → Prop}
    (hQ : ∀ items, (∀ item ∈ items, validKeyName item.key) → Q items) :
    listSharedDrafts.Obeys (rules T D) Q := by
  simp only [listSharedDrafts, Prog.obeys_bind, obeys_getPrefixMerged, Prog.obeys_pure]
  refine fun rows hr => hQ _ fun item hm => ?_
  obtain ⟨row, hrow, hd⟩ := List.mem_filterMap.mp ((List.mem_insertionSort _).mp hm)
  have := (hr row hrow).2
  obtain ⟨x, hx, rfl⟩ := decode_eq_some.mp hd
  rw [hx] at this
  exact this.1

theorem cascadeShared_obeys (c r : String) (now : Int) (mode : SharedCascadeMode) (item : SharedItem) :
    (cascadeShared c r now mode item).Obeys (rules SharedRows D) fun _ => True := by
  unfold cascadeShared
  split
  · trivial
  · rw [Prog.obeys_bind]
    refine obeys_readOnly (sharedUsage_readOnly _) fun usage => obeys_mapM fun u _ => ?_
    obtain ⟨p, b', g, k⟩ := u
    exact cascadeToBranch_obeys (fun _ h => .inr ⟨p, b', h⟩) _ _ _ _ _ _

theorem publishShared_obeys (hD : ∀ key, D (sharedDraftKey key)) (c r : String) (now : Int)
    (mode : SharedCascadeMode) {item : SharedItem} (hk : validKeyName item.key) :
    (publishShared c r now mode item).Obeys (rules SharedRows D) fun _ => True := by
  simp only [publishShared, Prog.obeys_bind, obeys_savePending, obeys_storeDelete]
  refine obeys_readOnly (loadMerged_readOnly _) fun prev => ?_
  exact ⟨⟨⟨hk, .inl rfl⟩, .inl ⟨_, .inl rfl⟩⟩, hD _, .inl ⟨_, .inr rfl⟩, cascadeShared_obeys c r now mode item⟩

theorem applySharedPublish_obeys (c r : String) (now : Int) (o : String) (mode : SharedCascadeMode)
    (policy : PublishPolicy) :
    (applySharedPublish c r now o mode policy).Obeys (rules SharedRows fun k => ∃ key, k = sharedDraftKey key)
      fun _ => True := by
  simp only [applySharedPublish, Prog.obeys_bind, obeys_ensure]
  refine listSharedDrafts_obeys fun items hi _ => ?_
  refine (obeys_collect (fun _ => True) fun item hm => ?_).mono fun _ _ => trivial
  exact (publishShared_obeys (fun key => ⟨key, rfl⟩) c r now mode (hi item hm)).mono fun _ _ _ _ => trivial

/-! ## Projects, branches and structures -/

theorem applyProjectCreate_obeys (name : String) (now : Int) (o : String) (src : Option String) :
    (applyProjectCreate name now o src).Obeys (rules (NewProject name) D) fun _ => True := by
  simp only [applyProjectCreate, Prog.obeys_bind, obeys_ensure, obeys_savePending]
  intro hn
  refine obeys_readOnly listProjects_readOnly fun _ _ => ?_
  refine obeys_readOnly (loadMerged_readOnly _) fun _ _ => ?_
  refine obeys_readOnly (cloneGroups_readOnly _ _) fun groups => ?_
  refine ⟨⟨⟨hn, rfl, rfl⟩, .inl rfl⟩, ⟨.inr ⟨rfl, name, rfl⟩, .inr (.inl rfl)⟩,
    ⟨⟨name, hn, rfl⟩, .inr (.inr (.inl rfl))⟩, (Prog.obeys_forM fun b hb => ?_).mono fun _ _ => trivial⟩
  have hv : validBranch b := by
    simp only [List.mem_cons, List.not_mem_nil, or_false] at hb
    rcases hb with rfl | rfl | rfl <;> decide +kernel
  exact ⟨⟨⟨name, b, ⟨hn, hv⟩, rfl⟩, .inr (.inr (.inr ⟨b, hb, rfl⟩))⟩, trivial⟩

theorem deleteAccounts_obeys (hT : ∀ k, AccountKey k → T k) (id : ProjectId) :
    (deleteAccounts id).Obeys (rules T D) fun _ => True := by
  simp only [deleteAccounts, Prog.obeys_bind, obeys_getPrefixMerged]
  refine obeys_readOnly (listProjectAdmins_readOnly id) fun admins => ?_
  refine (Prog.obeys_forM fun a _ => ?_).mono fun _ _ tokens ht => ?_
  · rw [Prog.obeys_bind]
    exact (deleteAllPaSessions_obeys hT _).mono fun _ _ => ⟨hT _ (account_projectAdminKey _), trivial⟩
  · exact obeys_deleteRows (fun row hm => hT _ (account_kDataToken (ht row (List.mem_filter.mp hm).1).1)) trivial

theorem applyProjectDelete_obeys (id : ProjectId) (o : String) :
    (applyProjectDelete id o).Obeys (rules (OldProject id) D) fun _ => True := by
  simp only [applyProjectDelete, Prog.obeys_bind, obeys_okOr, obeys_getPrefixMerged, obeys_deletePending]
  refine obeys_readOnly (loadMerged_readOnly _) fun _ p _ rows hr => ?_
  refine obeys_deleteRows (fun row hm => .inl (hr row hm).1) ⟨.inr (account_idxPname _).outside, ?_⟩
  exact (deleteAccounts_obeys (fun _ h => .inr h.outside) id).mono fun _ _ => trivial

theorem applyBranchCreate_obeys (id : ProjectId) (name : BranchName) (src : Option BranchName) (now : Int)
    (o : String) :
    (applyBranchCreate id name src now o).Obeys (rules (fun k => k = branchStateKey id name) D)
      fun _ => True := by
  simp only [applyBranchCreate, Prog.obeys_bind, obeys_ensure, obeys_okOr, getProject,
    obeys_loadMerged]
  refine fun hb => ⟨by simp, fun p hp _ _ => ?_⟩
  have hput : ∀ st : BranchState,
      (rules (fun k => k = branchStateKey id name) D).put (branchStateKey id name) (Codec.encode st) :=
    fun st => ⟨⟨id, name, ⟨(validName_of_project _ hp).1, hb⟩, rfl⟩, rfl⟩
  refine obeys_readOnly (loadMerged_readOnly _) fun _ _ => ?_
  refine obeys_readOnly (listBranches_readOnly _) fun _ _ => ?_
  refine obeys_readOnly (loadMerged_readOnly _) fun struct => ?_
  cases src with
  | none => exact ⟨hput _, trivial⟩
  | some src =>
    simp only [Prog.obeys_bind, obeys_okOr, obeys_ensure]
    refine obeys_readOnly (loadMerged_readOnly _) fun _ srcState _ _ => ?_
    exact obeys_readOnly (snapshotOf_readOnly _ _ _) fun snap => ⟨hput _, trivial⟩

theorem applyBranchDelete_obeys (id : ProjectId) (name : BranchName) (o : String) :
    (applyBranchDelete id name o).Obeys (rules (fun k => startsWith (branchPrefix id name) k) D)
      fun _ => True := by
  simp only [applyBranchDelete, Prog.obeys_bind, obeys_okOr, obeys_ensure, obeys_getPrefixMerged]
  refine obeys_readOnly (loadMerged_readOnly _) fun _ st _ _ rows hr => ?_
  exact obeys_deleteRows (fun row hm => (hr row hm).1) trivial

theorem applyStructureDraftSet_obeys (id : ProjectId) (v : Nat) (groups : List GroupDef) (o : String) :
    (applyStructureDraftSet id v groups o).Obeys (rules (fun k => k = structDraftKey id) D)
      fun _ => True := by
  simp only [applyStructureDraftSet, Prog.obeys_bind, obeys_okOr, obeys_ensure, getStructure, obeys_loadMerged,
    obeys_savePending]
  refine ⟨by simp, ?_⟩
  intro s hs _ _ _ _
  exact ⟨⟨⟨id, validName_of_structure s hs, rfl⟩, rfl⟩, trivial⟩

theorem bumpGray_obeys (h : Named id b) (hT : ∀ k, UnderBranch id b k → T k) (seq next : Nat) :
    (bumpGray id b seq next).Obeys (rules T D) fun _ => True := by
  unfold bumpGray
  split
  · simp only [Prog.obeys_bind, obeys_savePending, obeys_deletePending]
    exact obeys_readOnly (graySnapshotOf_readOnly _ _ _) fun gray =>
      ⟨⟨⟨id, b, next, h, .inr rfl⟩, hT _ (under_graySnapKey h _)⟩, hT _ (under_graySnapKey h _), trivial⟩
  · trivial

theorem publishStructureOn_obeys (hT : ∀ k, UnderBranch id b k → T k) (struct : Structure) (c r : String)
    (now : Int) (o : String) :
    (publishStructureOn id struct c r now o b).Obeys (rules T D) fun _ => True := by
  simp only [publishStructureOn, Prog.obeys_bind, obeys_okOr]
  refine getBranchState_obeys (by simp) fun st h => ?_
  rintro _ ⟨rfl⟩
  refine obeys_readOnly (activeSnapshot_readOnly _ _ _) fun values => ?_
  refine (writeVersionSnapshot_obeys h hT (by rfl) _ _).mono fun _ _ => ?_
  refine (bumpGray_obeys h hT _ _).mono fun graySeq _ => ?_
  exact obeys_readOnly (retainBindings_readOnly _ _) fun _ =>
    ⟨⟨⟨id, b, h, rfl⟩, hT _ (under_branchStateKey h)⟩, trivial⟩

theorem applyPublishStructure_obeys (id : ProjectId) (c r : String) (now : Int) (o : String)
    (policy : PublishPolicy) :
    (applyPublishStructure id c r now o policy).Obeys (rules (UnderStructure id) D) fun _ => True := by
  simp only [applyPublishStructure, Prog.obeys_bind, obeys_okOr, getStructure, obeys_loadMerged, obeys_ensure,
    obeys_savePending, obeys_deletePending]
  refine ⟨by simp, ?_⟩
  rintro s hs _ ⟨rfl⟩
  refine obeys_readOnly (loadMerged_readOnly _) fun _ draft _ _ _ => ?_
  refine obeys_readOnly (listBranches_readOnly _) fun branches => ?_
  refine (obeys_mapM fun b _ => publishStructureOn_obeys (fun _ h => .inr (.inr ⟨b, h⟩)) _ _ _ _ _).mono fun _ _ => ?_
  exact ⟨⟨⟨id, validName_of_structure s hs, rfl⟩, .inl rfl⟩, .inr (.inl rfl), trivial⟩

/-! ## All commands -/

/-- The commands on projects, branches, structures, drafts, versions and shared items. -/
def isConfig : Command → Prop
  | .projectCreate .. | .projectDelete .. | .branchCreate .. | .branchDelete .. | .structureDraftSet ..
  | .publishStructure .. | .draftUpdate .. | .publish .. | .rollback .. | .sharedDraftUpdate ..
  | .sharedPublish .. | .sharedDelete .. | .grayPublish .. | .grayPromote .. | .grayAbort .. => True
  | _ => False

/-- The other commands stay within the keys of sessions, accounts, tokens and the audit log. -/
theorem account_obeys {cmd : Command} (hc : ¬ isConfig cmd) (now : Int) :
    (applyInner cmd now).Obeys (accounts D) (· = []) := by
  cases cmd <;> dsimp only [applyInner] <;> try exact absurd trivial hc
  case sessionLogin h i e => exact applySessionLogin_obeys h i e
  case sessionLogout => exact ⟨account_sessionKey, rfl⟩
  case sessionHeartbeat e => exact heartbeat_obeys account_sessionKey e _
  case projectAdminCreate => apply applyProjectAdminCreate_obeys
  case projectAdminDelete u => exact applyProjectAdminDelete_obeys u
  case projectAdminSetPassword u s h => exact applyProjectAdminSetPassword_obeys u s h
  case paSessionLogin => apply applyPaSessionLogin_obeys
  case paSessionLogout u => exact ⟨account_paSessionKey u, rfl⟩
  case paSessionHeartbeat u e => exact applyPaSessionHeartbeat_obeys u e
  case adminSetPassword h => exact ⟨⟨.inl rfl, account_kAdminPw⟩, rfl⟩
  case multiSessionLogin h i e sid => exact ⟨⟨.inr (.inl ⟨sid, rfl⟩), account_sessionKeyWith sid⟩, rfl⟩
  case multiSessionLogout sid => exact ⟨account_sessionKeyWith sid, rfl⟩
  case multiSessionHeartbeat sid e => exact heartbeat_obeys (account_sessionKeyWith sid) e _
  case multiPaSessionLogin => apply applyMultiPaSessionLogin_obeys
  case multiPaSessionLogout u sid => exact ⟨account_paSessionKeyWith u sid, rfl⟩
  case multiPaSessionHeartbeat u sid e => exact heartbeat_obeys (account_paSessionKeyWith u sid) e _
  case multiSessionLogoutAll => exact applyMultiSessionLogoutAll_obeys
  case multiPaSessionLogoutAll u =>
    exact Prog.obeys_bind.mpr ((deleteAllPaSessions_obeys (fun _ h => h) u).mono fun _ _ => rfl)
  case globalAdminCreate => apply applyGlobalAdminCreate_obeys
  case globalAdminDelete u => exact applyGlobalAdminDelete_obeys u
  case globalAdminSetPassword u s h => exact applyGlobalAdminSetPassword_obeys u s h
  case multiGaSessionLogin => apply applyMultiGaSessionLogin_obeys
  case multiGaSessionLogout u sid => exact ⟨account_gaSessionKeyWith u sid, rfl⟩
  case multiGaSessionHeartbeat u sid e => exact heartbeat_obeys (account_gaSessionKeyWith u sid) e _
  case multiGaSessionLogoutAll u =>
    exact Prog.obeys_bind.mpr ((deleteAllGaSessions_obeys (fun _ h => h) u).mono fun _ _ => rfl)
  case globalAdminSessionsRevokeAll => exact applyGlobalAdminSessionsRevokeAll_obeys
  case auditAppend entry => exact applyAuditAppend_obeys entry
  case rotateMasterKey => exact (Prog.obeys_pure _ _).mpr rfl
  case projectTokenCreate => apply applyProjectTokenCreate_obeys
  case projectTokenRevoke p i => exact applyProjectTokenRevoke_obeys p i

/-- Every command keeps rows placed and stays within its keys. -/
theorem applyInner_obeys (cmd : Command) (now : Int) :
    (applyInner cmd now).Obeys (rules (touches cmd) (touchesDirectly cmd)) fun _ => True := by
  by_cases hc : isConfig cmd
  · cases cmd <;> dsimp only [applyInner, touches, touchesDirectly] <;> try exact hc.elim
    case projectCreate name o ts src => exact applyProjectCreate_obeys name _ o src
    case projectDelete id o => exact applyProjectDelete_obeys id o
    case branchCreate id name src o ts => exact applyBranchCreate_obeys id name src _ o
    case branchDelete id name o => exact applyBranchDelete_obeys id name o
    case structureDraftSet id v groups o => exact applyStructureDraftSet_obeys id v groups o
    case publishStructure id c r o ts policy => exact applyPublishStructure_obeys id c r _ o policy
    case draftUpdate => apply applyDraftUpdate_obeys
    case publish => apply applyPublish_obeys
    case rollback => apply applyRollback_obeys
    case sharedDraftUpdate item o =>
      exact obeys_rules_mono ((applySharedDraftUpdate_obeys item o).mono fun _ _ => trivial) (fun _ h => h.outside) fun _ h => h
    case sharedPublish =>
      refine obeys_rules_mono (applySharedPublish_obeys _ _ _ _ _ _) (fun _ h => ?_) fun _ h => h
      exact h.imp SharedKey.outside id
    case sharedDelete key o =>
      exact obeys_rules_mono ((applySharedDelete_obeys key o).mono fun _ _ => trivial) (fun _ h => h.outside) fun _ h => h
    case grayPublish => apply applyGrayPublish_obeys
    case grayPromote => apply applyGrayPromote_obeys
    case grayAbort => apply applyGrayAbort_obeys
  · have h : (applyInner cmd now).Obeys (accounts fun _ => False) fun _ => True :=
      (account_obeys hc now).mono fun _ _ => trivial
    cases cmd <;> first | exact absurd trivial hc | exact obeys_rules_mono h (fun _ h => h.outside) fun _ h => h

end

end Defing
