import Mathlib.Data.List.Dedup
import Defing.State.Touches

/-!
# The write buffer is invisible

Every command is safe: it deletes no key it has put before, and reads past the
buffer only before its first write. So a command that succeeds leaves the
store it would leave if its writes went through one by one (`apply_eq`).
-/

namespace Defing

open KV (Prog Plain)

/-! ## Keys that are put and keys that are deleted -/

theorem not_startsWith_sess {k : String} (h : k.toList.head? = some 'a') : ¬ startsWith "sess/" k := by
  intro hs
  obtain ⟨c, hc⟩ := List.isPrefixOf_iff_prefix.mp hs
  rw [← hc] at h
  simp at h

/-- What a key of a branch is followed by tells keys of different kinds apart. -/
theorem graySnapKey_ne (id : ProjectId) (b : BranchName) (n m : Nat) :
    graySnapKey id b n ≠ versionKey id b m ∧ graySnapKey id b n ≠ snapshotKey id b m ∧
      graySnapKey id b n ≠ diffKey id b m ∧ graySnapKey id b n ≠ branchStateKey id b := by
  refine ⟨?_, ?_, ?_, ?_⟩ <;> intro h <;> have := String.toList_inj.mpr h <;>
    simp [graySnapKey, versionKey, snapshotKey, diffKey, branchStateKey, kProject, kBranch, kVersion, kGraySnap,
      kState] at this

theorem graySnapKey_inj {id : ProjectId} {b : BranchName} {n m : Nat} :
    graySnapKey id b n = graySnapKey id b m ↔ n = m := by
  rw [← KV.repr_inj (m := n), ← String.toList_inj, ← String.toList_inj]
  simp [graySnapKey]

/-- A key of one branch is no gray snapshot of another branch, whatever the project is called. -/
def KeyOf (id : ProjectId) (b : BranchName) (k : String) : Prop :=
  ∃ tail, k.toList = (kProject ++ id ++ kBranch).toList ++ (b.toList ++ '/' :: tail)

theorem graySnapKey_ne_keyOf {id : ProjectId} {b b' : BranchName} {k : String} (hb : Plain b) (hb' : Plain b')
    (hne : b ≠ b') (hk : KeyOf id b k) (n : Nat) : k ≠ graySnapKey id b' n := by
  rintro rfl
  obtain ⟨tail, ht⟩ := hk
  have e : (graySnapKey id b' n).toList =
      (kProject ++ id ++ kBranch).toList ++ (b'.toList ++ '/' :: ("gray-snap/".toList ++ n.repr.toList)) := by
    simp [graySnapKey, kGraySnap]
  rw [e, List.append_cancel_left_eq] at ht
  have h₁ := (KV.plain_prefix hb' tail).mp ⟨'/' :: ("gray-snap/".toList ++ n.repr.toList), ht⟩
  have h₂ := (KV.plain_prefix hb ("gray-snap/".toList ++ n.repr.toList)).mp ⟨'/' :: tail, ht.symm⟩
  exact hne (String.toList_inj.mp (h₂.eq_of_length (le_antisymm h₂.length_le h₁.length_le)))

theorem keyOf_branchStateKey (id : ProjectId) (b : BranchName) : KeyOf id b (branchStateKey id b) :=
  ⟨"state".toList, by simp [branchStateKey, kState]⟩

theorem keyOf_versionKey (id : ProjectId) (b : BranchName) (n : Nat) : KeyOf id b (versionKey id b n) :=
  ⟨"v/".toList ++ n.repr.toList, by simp [versionKey, kVersion]⟩

theorem keyOf_snapshotKey (id : ProjectId) (b : BranchName) (n : Nat) : KeyOf id b (snapshotKey id b n) :=
  ⟨"v/".toList ++ n.repr.toList ++ "/snap".toList, by simp [snapshotKey, kVersion]⟩

theorem keyOf_diffKey (id : ProjectId) (b : BranchName) (n : Nat) : KeyOf id b (diffKey id b n) :=
  ⟨"v/".toList ++ n.repr.toList ++ "/diff".toList, by simp [diffKey, kVersion]⟩

theorem keyOf_graySnapKey (id : ProjectId) (b : BranchName) (n : Nat) : KeyOf id b (graySnapKey id b n) :=
  ⟨"gray-snap/".toList ++ n.repr.toList, by simp [graySnapKey, kGraySnap]⟩

theorem structDraftKey_ne (id : ProjectId) :
    structDraftKey id ≠ structKey id ∧ ∀ b k, KeyOf id b k → k ≠ structDraftKey id := by
  refine ⟨fun h => ?_, ?_⟩
  · have := String.toList_inj.mpr h
    simp [structDraftKey, structKey, kStructDraft, kStruct] at this
  · rintro b _ ⟨tail, ht⟩ rfl
    simp [structDraftKey, kStructDraft, kBranch] at ht

theorem sharedDraftKey_ne {k : String} (key : String) (h : k.toList.take 3 ≠ "sh-".toList) :
    k ≠ sharedDraftKey key := by
  rintro rfl
  simp [sharedDraftKey, kSharedDraft] at h

/-! ## Accesses -/

variable {α β : Type} {fresh : Bool} {W : String → Prop} {Q : α → Bool → (String → Prop) → Prop}

@[simp] theorem safe_throw (e : Error) : (fail e : M α).Safe fresh W Q ↔ True := Iff.rfl

@[simp] theorem safe_ensure (c : Prop) [Decidable c] (e : Error) {Q : Unit → Bool → (String → Prop) → Prop} :
    (ensure c e).Safe fresh W Q ↔ (c → Q () fresh W) := by
  unfold ensure
  split <;> simp [*]

@[simp] theorem safe_okOr (o : Option α) (e : Error) :
    (okOr o e).Safe fresh W Q ↔ ∀ a, o = some a → Q a fresh W := by
  cases o <;> simp [okOr]

@[simp] theorem safe_savePending [Codec α] (k : String) (a : α) {Q : Unit → Bool → (String → Prop) → Prop} :
    (savePending k a).Safe fresh W Q ↔ Q () false fun x => x = k ∨ W x := Iff.rfl

@[simp] theorem safe_deletePending (k : String) {Q : Unit → Bool → (String → Prop) → Prop} :
    (deletePending k).Safe fresh W Q ↔ ¬ W k ∧ Q () false W := Iff.rfl

theorem safe_storeDelete {k : String} {Q : Unit → Bool → (String → Prop) → Prop} (hk : ¬ W k)
    (h : Q () fresh W) : (storeDelete k).Safe fresh W Q := by
  refine ⟨hk, ?_⟩
  rintro (_ | _)
  · trivial
  · exact h

@[simp] theorem safe_getPrefixMerged (stem : String) {Q : List (String × Stored) → Bool → (String → Prop) → Prop} :
    (getPrefixMerged stem).Safe fresh W Q ↔
      ∀ rows, (∀ row ∈ rows, startsWith stem row.1) → Q rows fresh W := by
  constructor
  · exact fun h rows hr => h (.ok rows) (by rintro _ ⟨rfl⟩; exact hr)
  · rintro h (_ | rows) hr
    · trivial
    · exact h rows (hr rows rfl)

theorem safe_load [Codec α] [SerdeJson] {k : String} {Q : Option α → Bool → (String → Prop) → Prop}
    (h : ∀ o, Q o true W) : (load k).Safe true W Q :=
  ⟨rfl, fun _ => (ofExcept_readOnly _).safe h⟩

theorem safe_loadMerged [Codec α] [SerdeJson] {k : String} {Q : Option α → Bool → (String → Prop) → Prop}
    (h : ∀ o, Q o fresh W) : (loadMerged k).Safe fresh W Q :=
  (loadMerged_readOnly k).safe h

theorem safe_forM {f : α → M Unit} {l : List α} {Q : Unit → Bool → (String → Prop) → Prop}
    (I : (String → Prop) → Prop) (hW : I W)
    (h : ∀ a ∈ l, ∀ fr W, I W → (f a).Safe fr W fun _ _ W' => I W')
    (hQ : ∀ fr W, I W → Q () fr W) : (l.forM f).Safe fresh W Q := by
  induction l generalizing fresh W with
  | nil => exact hQ fresh W hW
  | cons a l ih =>
    change (f a >>= fun _ => l.forM f).Safe fresh W Q
    rw [Prog.safe_bind]
    exact (h a (by simp) fresh W hW).mono fun _ fr W' h' =>
      ih h' fun a' ha' => h a' (by simp [ha'])

theorem safe_deleteRows {rows : List (String × Stored)} {Q : Unit → Bool → (String → Prop) → Prop}
    (h : ∀ row ∈ rows, ¬ W row.1) (hQ : ∀ fr, Q () fr W) : (deleteRows rows).Safe fresh W Q := by
  refine safe_forM (fun W' => W' = W) rfl (fun row hr fr W' e => ?_) (by rintro fr _ rfl; exact hQ fr)
  subst e
  exact (safe_deletePending _).mpr ⟨h row hr, rfl⟩

theorem safe_collect {f : α → M (List β)} {l : List α} {Q : List β → Bool → (String → Prop) → Prop}
    (I : (String → Prop) → Prop) (hW : I W)
    (h : ∀ a ∈ l, ∀ fr W, I W → (f a).Safe fr W fun _ _ W' => I W')
    (hQ : ∀ bs fr W, I W → Q bs fr W) : (collect f l).Safe fresh W Q := by
  induction l generalizing fresh W Q with
  | nil => exact hQ [] fresh W hW
  | cons a l ih =>
    rw [collect, Prog.safe_bind]
    refine (h a (by simp) fresh W hW).mono fun xs fr W' h' => ?_
    rw [Prog.safe_bind]
    exact ih h' (fun a' ha' => h a' (by simp [ha'])) fun ys fr W'' h'' => hQ (xs ++ ys) fr W'' h''

/-! ## Commands that only put or only delete -/

def SafeCommand (p : M α) : Prop := p.Safe true (fun _ => False) fun _ _ _ => True

section
variable [SerdeJson]

theorem heartbeat_safe (key : String) (e : Option Int) (m : String) : SafeCommand (heartbeat key e m) := by
  simp only [SafeCommand, heartbeat, Prog.safe_bind]
  exact safe_loadMerged fun o => by simp

theorem applySessionLogin_safe (h : String) (i : Int) (e : Option Int) :
    SafeCommand (applySessionLogin h i e) := by
  simp only [SafeCommand, applySessionLogin, Prog.safe_bind]
  exact safe_loadMerged fun o => by simp

omit [SerdeJson] in
theorem applyMultiSessionLogoutAll_safe : SafeCommand applyMultiSessionLogoutAll := by
  simp only [SafeCommand, applyMultiSessionLogoutAll, Prog.safe_bind, safe_deletePending, safe_getPrefixMerged]
  exact ⟨id, fun rows _ => safe_deleteRows (by simp) (by simp)⟩

omit [SerdeJson] in
theorem deleteAllPaSessions_safe {Q : Unit → Bool → (String → Prop) → Prop} (u : String)
    (hW : ∀ k, W k → ¬ startsWith "sess/" k) (hQ : ∀ fr, Q () fr W) :
    (deleteAllPaSessions u).Safe fresh W Q := by
  simp only [deleteAllPaSessions, Prog.safe_bind, safe_deletePending, safe_getPrefixMerged]
  refine ⟨fun h => hW _ h (by simp [startsWith, paSessionKey, kPaSession]), fun rows hr => ?_⟩
  refine safe_deleteRows (fun row hm h => hW _ h ?_) hQ
  have hp : ("sess/").toList <+: (paSessionPrefix u).toList := ⟨"pa/".toList ++ u.toList ++ ['/'], by
    simp [paSessionPrefix, kPaSession]⟩
  exact List.isPrefixOf_iff_prefix.mpr (hp.trans (List.isPrefixOf_iff_prefix.mp (hr row hm)))

omit [SerdeJson] in
theorem deleteAllGaSessions_safe {Q : Unit → Bool → (String → Prop) → Prop} (u : String)
    (hW : ∀ k, W k → ¬ startsWith "sess/" k) (hQ : ∀ fr, Q () fr W) :
    (deleteAllGaSessions u).Safe fresh W Q := by
  simp only [deleteAllGaSessions, Prog.safe_bind, safe_getPrefixMerged]
  refine fun rows hr => safe_deleteRows (fun row hm h => hW _ h ?_) hQ
  have hp : ("sess/").toList <+: (gaSessionPrefix u).toList := ⟨"ga/".toList ++ u.toList ++ ['/'], by
    simp [gaSessionPrefix, kGaSession]⟩
  exact List.isPrefixOf_iff_prefix.mpr (hp.trans (List.isPrefixOf_iff_prefix.mp (hr row hm)))

theorem applyProjectAdminCreate_safe (p : ProjectId) (u salt h : String) (now : Int) :
    SafeCommand (applyProjectAdminCreate p u salt h now) := by
  simp only [SafeCommand, applyProjectAdminCreate, Prog.safe_bind, safe_ensure]
  refine fun _ => safe_load fun _ _ => safe_load fun _ _ => ?_
  exact (usernameTaken_readOnly _ _).safe fun _ => by simp

theorem applyProjectAdminDelete_safe (u : String) : SafeCommand (applyProjectAdminDelete u) := by
  simp only [SafeCommand, applyProjectAdminDelete, Prog.safe_bind, safe_ensure]
  exact safe_load fun _ _ => deleteAllPaSessions_safe u (by simp) (by simp)

theorem applyProjectAdminSetPassword_safe (u salt h : String) :
    SafeCommand (applyProjectAdminSetPassword u salt h) := by
  simp only [SafeCommand, applyProjectAdminSetPassword, Prog.safe_bind, safe_okOr, safe_savePending]
  refine safe_load fun _ _ _ => deleteAllPaSessions_safe u ?_ (by simp)
  rintro k (rfl | hk)
  · exact not_startsWith_sess (by simp [projectAdminKey, kPaAccount])
  · exact hk.elim

theorem applyPaSessionLogin_safe (u h : String) (i : Int) (e : Option Int) (d : String) :
    SafeCommand (applyPaSessionLogin u h i e d) := by
  simp only [SafeCommand, applyPaSessionLogin, Prog.safe_bind, safe_ensure]
  exact safe_load fun _ _ => safe_load fun _ => by simp

theorem applyPaSessionHeartbeat_safe (u : String) (e : Option Int) :
    SafeCommand (applyPaSessionHeartbeat u e) := by
  simp only [SafeCommand, applyPaSessionHeartbeat, Prog.safe_bind]
  exact safe_load fun _ => by simp

theorem applyMultiPaSessionLogin_safe (u h : String) (i : Int) (e : Option Int) (d sid : String) :
    SafeCommand (applyMultiPaSessionLogin u h i e d sid) := by
  simp only [SafeCommand, applyMultiPaSessionLogin, Prog.safe_bind]
  exact safe_loadMerged fun _ => by simp

theorem applyGlobalAdminCreate_safe (u salt h : String) (now : Int) :
    SafeCommand (applyGlobalAdminCreate u salt h now) := by
  simp only [SafeCommand, applyGlobalAdminCreate, Prog.safe_bind, safe_ensure]
  refine fun _ => safe_load fun _ _ => (usernameTaken_readOnly _ _).safe fun _ => by simp

theorem applyGlobalAdminDelete_safe (u : String) : SafeCommand (applyGlobalAdminDelete u) := by
  simp only [SafeCommand, applyGlobalAdminDelete, Prog.safe_bind, safe_ensure, safe_deletePending]
  exact safe_load fun _ _ => ⟨id, deleteAllGaSessions_safe u (by simp) (by simp)⟩

theorem applyGlobalAdminSetPassword_safe (u salt h : String) :
    SafeCommand (applyGlobalAdminSetPassword u salt h) := by
  simp only [SafeCommand, applyGlobalAdminSetPassword, Prog.safe_bind, safe_okOr, safe_savePending]
  refine safe_load fun _ _ _ => deleteAllGaSessions_safe u ?_ (by simp)
  rintro k (rfl | hk)
  · exact not_startsWith_sess (by simp [globalAdminKey, kGaAccount])
  · exact hk.elim

theorem applyMultiGaSessionLogin_safe (u h : String) (i : Int) (e : Option Int) (d sid : String) :
    SafeCommand (applyMultiGaSessionLogin u h i e d sid) := by
  simp only [SafeCommand, applyMultiGaSessionLogin, Prog.safe_bind]
  exact safe_loadMerged fun _ => by simp

omit [SerdeJson] in
theorem applyGlobalAdminSessionsRevokeAll_safe : SafeCommand applyGlobalAdminSessionsRevokeAll := by
  simp only [SafeCommand, applyGlobalAdminSessionsRevokeAll, Prog.safe_bind, safe_getPrefixMerged]
  refine fun rows _ => safe_forM (fun W => W = fun _ => False) rfl (fun row _ fr W hW => ?_) (by simp)
  subst hW
  split
  · exact deleteAllGaSessions_safe _ (by simp) fun _ => rfl
  · rfl

theorem applyProjectTokenCreate_safe (p : ProjectId) (n h o : String) (now : Int) :
    SafeCommand (applyProjectTokenCreate p n h o now) := by
  simp only [SafeCommand, applyProjectTokenCreate, Prog.safe_bind, safe_ensure]
  refine fun _ => safe_load fun _ _ => safe_load fun o => ?_
  split <;> simp

theorem applyProjectTokenRevoke_safe (p : ProjectId) (i : String) :
    SafeCommand (applyProjectTokenRevoke p i) := by
  simp only [SafeCommand, applyProjectTokenRevoke, Prog.safe_bind, safe_getPrefixMerged, safe_okOr]
  refine fun rows _ row _ => safe_load fun o r _ => ?_
  split <;> simp

theorem applyAuditAppend_safe (entry : AuditEntry) : SafeCommand (applyAuditAppend entry) := by
  simp only [SafeCommand, applyAuditAppend, Prog.safe_bind]
  exact safe_loadMerged fun _ => by simp

omit [SerdeJson] in
theorem applyMultiPaSessionLogoutAll_safe (u : String) : SafeCommand (applyMultiPaSessionLogoutAll u) := by
  simp only [SafeCommand, applyMultiPaSessionLogoutAll, Prog.safe_bind]
  exact deleteAllPaSessions_safe u (by simp) (by simp)

omit [SerdeJson] in
theorem applyMultiGaSessionLogoutAll_safe (u : String) : SafeCommand (applyMultiGaSessionLogoutAll u) := by
  simp only [SafeCommand, applyMultiGaSessionLogoutAll, Prog.safe_bind]
  exact deleteAllGaSessions_safe u (by simp) (by simp)

theorem applySharedDraftUpdate_safe (item : SharedItem) (o : String) :
    SafeCommand (applySharedDraftUpdate item o) := by
  simp [SafeCommand, applySharedDraftUpdate]

theorem applySharedDelete_safe (key o : String) : SafeCommand (applySharedDelete key o) := by
  simp only [SafeCommand, applySharedDelete, Prog.safe_bind, safe_ensure, getShared]
  refine fun _ => safe_loadMerged fun o => ?_
  split
  · rw [Prog.safe_bind]
    exact (sharedUsage_readOnly key).safe fun _ => by simp
  · simp

theorem applyProjectCreate_safe (name : String) (now : Int) (o : String) (src : Option String) :
    SafeCommand (applyProjectCreate name now o src) := by
  simp only [SafeCommand, applyProjectCreate, Prog.safe_bind, safe_ensure]
  refine fun _ => listProjects_readOnly.safe fun _ _ => (loadMerged_readOnly _).safe fun _ _ => ?_
  refine (cloneGroups_readOnly _ _).safe fun groups => ?_
  exact safe_forM (fun _ => True) trivial (fun _ _ _ _ _ => trivial) fun _ _ _ => trivial

theorem deleteAccounts_safe (id : ProjectId) {Q : Unit → Bool → (String → Prop) → Prop}
    (hQ : ∀ fr, Q () fr fun _ => False) : (deleteAccounts id).Safe fresh (fun _ => False) Q := by
  simp only [deleteAccounts, Prog.safe_bind, safe_getPrefixMerged]
  refine (listProjectAdmins_readOnly id).safe fun admins => ?_
  refine safe_forM (fun W => W = fun _ => False) rfl (fun a _ fr W hW => ?_) ?_
  · subst hW
    rw [Prog.safe_bind]
    exact deleteAllPaSessions_safe _ (by simp) fun _ => ⟨by simp, rfl⟩
  · rintro fr W rfl rows _
    exact safe_deleteRows (by simp) hQ

theorem applyProjectDelete_safe (id : ProjectId) (o : String) : SafeCommand (applyProjectDelete id o) := by
  simp only [SafeCommand, applyProjectDelete, Prog.safe_bind, safe_getPrefixMerged, safe_okOr, safe_deletePending]
  refine (loadMerged_readOnly _).safe fun _ p _ rows _ => safe_deleteRows (by simp) fun fr => ⟨by simp, ?_⟩
  exact deleteAccounts_safe id fun _ => by simp

theorem applyBranchCreate_safe (id : ProjectId) (name : BranchName) (src : Option BranchName) (now : Int)
    (o : String) : SafeCommand (applyBranchCreate id name src now o) := by
  simp only [SafeCommand, applyBranchCreate, Prog.safe_bind, safe_ensure, safe_okOr]
  refine fun _ => (loadMerged_readOnly _).safe fun _ _ _ => (loadMerged_readOnly _).safe fun _ _ => ?_
  refine (listBranches_readOnly _).safe fun _ _ => (loadMerged_readOnly _).safe fun struct => ?_
  cases src with
  | none => simp
  | some src =>
    simp only [Prog.safe_bind, safe_okOr, safe_ensure]
    refine (loadMerged_readOnly _).safe fun _ srcState _ _ => ?_
    exact (snapshotOf_readOnly _ _ _).safe fun snap => by simp

theorem applyBranchDelete_safe (id : ProjectId) (name : BranchName) (o : String) :
    SafeCommand (applyBranchDelete id name o) := by
  simp only [SafeCommand, applyBranchDelete, Prog.safe_bind, safe_ensure, safe_okOr, safe_getPrefixMerged]
  exact (loadMerged_readOnly _).safe fun _ st _ _ rows _ => safe_deleteRows (by simp) (by simp)

theorem applyStructureDraftSet_safe (id : ProjectId) (v : Nat) (groups : List GroupDef) (o : String) :
    SafeCommand (applyStructureDraftSet id v groups o) := by
  simp only [SafeCommand, applyStructureDraftSet, Prog.safe_bind, safe_ensure, safe_okOr]
  exact (loadMerged_readOnly _).safe fun _ => by simp

theorem applyDraftUpdate_safe (id : ProjectId) (b : BranchName) (us : List DraftUpdateItem)
    (ds : List (String × String)) (bs : List SharedBinding) (now : Int) (o : String) (rev : Option Nat) :
    SafeCommand (applyDraftUpdate id b us ds bs now o rev) := by
  simp only [SafeCommand, applyDraftUpdate, Prog.safe_bind, safe_okOr]
  refine (loadMerged_readOnly _).safe fun _ st _ => (checkDraftRev_readOnly _ _).safe fun _ => ?_
  refine (loadMerged_readOnly _).safe fun _ struct _ => ?_
  refine (foldlM_readOnly (checkUpdate_readOnly _ _) _ _).safe fun _ => ?_
  exact (foldlM_readOnly (bindOne_readOnly _) _ _).safe fun _ => by simp

/-! ## Commands that make versions -/

omit [SerdeJson] in
theorem writeVersionSnapshot_safe {Q : Unit → Bool → (String → Prop) → Prop} (id : ProjectId) (b : BranchName)
    (n : Nat) (old new : SnapshotMap) (record : VersionRecord)
    (h : ∀ W', (∀ k, W' k → k = versionKey id b n ∨ k = snapshotKey id b n ∨ k = diffKey id b n ∨ W k) →
      Q () false W') : (writeVersionSnapshot id b n old new record).Safe fresh W Q := by
  unfold writeVersionSnapshot
  rw [Prog.safe_bind]
  change Prog.Safe (ite _ _ _) _ _ _
  split
  · exact h _ (by rintro k (rfl | rfl | hk) <;> simp [*])
  · exact h _ (by rintro k (rfl | rfl | hk) <;> simp [*])

theorem applyPublish_safe (id : ProjectId) (b : BranchName) (c r : String) (now : Int) (o : String)
    (policy : PublishPolicy) : SafeCommand (applyPublish id b c r now o policy) := by
  simp only [SafeCommand, applyPublish, Prog.safe_bind, safe_okOr]
  refine (loadMerged_readOnly _).safe fun _ st _ => (loadMerged_readOnly _).safe fun _ struct _ => ?_
  split
  · simp
  · simp only [Prog.safe_bind, safe_ensure]
    refine fun _ => (activeSnapshot_readOnly _ _ _).safe fun old => ?_
    refine (materializeResolved_readOnly _ _ _ _).safe fun res => ?_
    exact writeVersionSnapshot_safe _ _ _ _ _ _ fun _ _ => by simp

theorem applyRollback_safe (id : ProjectId) (b : BranchName) (v : Nat) (c r : String) (now : Int) (o : String) :
    SafeCommand (applyRollback id b v c r now o) := by
  simp only [SafeCommand, applyRollback, Prog.safe_bind, safe_okOr]
  refine (loadMerged_readOnly _).safe fun _ st _ => ?_
  split
  · simp
  · simp only [Prog.safe_bind, safe_ensure]
    refine fun _ => (snapshotOf_readOnly _ _ _).safe fun snap => (activeSnapshot_readOnly _ _ _).safe fun old => ?_
    exact writeVersionSnapshot_safe _ _ _ _ _ _ fun _ _ => by simp

theorem applyGrayPublish_safe (id : ProjectId) (b : BranchName) (rule : GrayRule) (c r : String) (now : Int)
    (o : String) (policy : PublishPolicy) : SafeCommand (applyGrayPublish id b rule c r now o policy) := by
  simp only [SafeCommand, applyGrayPublish, Prog.safe_bind, safe_okOr]
  refine (validateGrayRule_readOnly rule).safe fun _ => ?_
  refine (loadMerged_readOnly _).safe fun _ st _ => (loadMerged_readOnly _).safe fun _ struct _ => ?_
  split
  · simp
  · simp only [Prog.safe_bind, safe_ensure, safe_savePending]
    refine fun _ => (activeSnapshot_readOnly _ _ _).safe fun old => ?_
    refine (materializeResolved_readOnly _ _ _ _).safe fun res => ?_
    split <;> simp [graySnapKey_inj]

theorem applyGrayPromote_safe (id : ProjectId) (b : BranchName) (c r : String) (now : Int) (o : String) :
    SafeCommand (applyGrayPromote id b c r now o) := by
  simp only [SafeCommand, applyGrayPromote, Prog.safe_bind, safe_okOr]
  refine (loadMerged_readOnly _).safe fun _ st _ => ?_
  split
  · simp
  · simp only [Prog.safe_bind, safe_ensure, safe_deletePending]
    refine fun _ => (graySnapshotOf_readOnly _ _ _).safe fun gray => ?_
    refine (activeSnapshot_readOnly _ _ _).safe fun old => ?_
    refine writeVersionSnapshot_safe _ _ _ _ _ _ fun W' hW => ⟨fun h => ?_, by simp⟩
    have hne := graySnapKey_ne id b st.graySeq (nextMonotonic st.activeVersion st.graySeq)
    rcases hW _ h with h | h | h | h
    · exact hne.1 h
    · exact hne.2.1 h
    · exact hne.2.2.1 h
    · exact h

theorem applyGrayAbort_safe (id : ProjectId) (b : BranchName) (c r : String) (now : Int) (o : String) :
    SafeCommand (applyGrayAbort id b c r now o) := by
  simp only [SafeCommand, applyGrayAbort, Prog.safe_bind, safe_okOr]
  refine (loadMerged_readOnly _).safe fun _ st _ => ?_
  split <;> simp

/-! ## Structures -/

theorem bumpGray_safe {id : ProjectId} {b : BranchName} {seq next : Nat}
    {Q : Nat → Bool → (String → Prop) → Prop} (hW : ¬ W (graySnapKey id b seq)) (hne : seq ≠ next)
    (hQ : ∀ n fr W', (∀ k, W' k → k = graySnapKey id b next ∨ W k) → Q n fr W') :
    (bumpGray id b seq next).Safe fresh W Q := by
  unfold bumpGray
  split
  · simp only [Prog.safe_bind, safe_savePending, safe_deletePending, Prog.safe_pure]
    refine (graySnapshotOf_readOnly _ _ _).safe fun gray => ⟨?_, hQ _ _ _ fun _ hk => hk⟩
    rintro (h | h)
    · exact hne (graySnapKey_inj.mp h)
    · exact hW h
  · exact hQ _ _ _ fun _ hk => .inr hk

/-- Of one branch, only its own keys are put, and of them no gray snapshot is deleted later. -/
theorem publishStructureOn_safe (id : ProjectId) (struct : Structure) (c r : String) (now : Int) (o : String)
    (b : BranchName) {Q : PublishEvent → Bool → (String → Prop) → Prop}
    (hW : ∀ k n, W k → k ≠ graySnapKey id b n)
    (hQ : ∀ e fr W', (∀ k, W' k → KeyOf id b k ∨ W k) → Q e fr W') :
    (publishStructureOn id struct c r now o b).Safe fresh W Q := by
  simp only [publishStructureOn, Prog.safe_bind, safe_okOr]
  refine (loadMerged_readOnly _).safe fun _ st _ => (activeSnapshot_readOnly _ _ _).safe fun values => ?_
  refine writeVersionSnapshot_safe _ _ _ _ _ _ fun W₁ hW₁ => ?_
  have hkey : ∀ k, W₁ k → KeyOf id b k ∨ W k := by
    intro k hk
    rcases hW₁ k hk with rfl | rfl | rfl | h
    · exact .inl (keyOf_versionKey ..)
    · exact .inl (keyOf_snapshotKey ..)
    · exact .inl (keyOf_diffKey ..)
    · exact .inr h
  refine bumpGray_safe (fun h => ?_) (by simp only [nextMonotonic]; omega) fun graySeq fr W₂ hW₂ => ?_
  · have hne := graySnapKey_ne id b st.graySeq (nextMonotonic st.activeVersion st.graySeq)
    rcases hW₁ _ h with h | h | h | h
    · exact hne.1 h
    · exact hne.2.1 h
    · exact hne.2.2.1 h
    · exact hW _ _ h rfl
  · refine (retainBindings_readOnly _ _).safe fun bindings => ?_
    rw [safe_savePending, Prog.safe_pure]
    refine hQ _ _ _ ?_
    rintro k (rfl | hk)
    · exact .inl (keyOf_branchStateKey ..)
    · rcases hW₂ k hk with rfl | hk
      · exact .inl (keyOf_graySnapKey ..)
      · exact hkey k hk

omit [SerdeJson] in
theorem listBranches_safe {id : ProjectId} {Q : List BranchName → Bool → (String → Prop) → Prop}
    (h : ∀ bs, (∀ b ∈ bs, Plain b) → bs.Nodup → Q bs fresh W) : (listBranches id).Safe fresh W Q := by
  simp only [listBranches, Prog.safe_bind, safe_getPrefixMerged, Prog.safe_pure]
  refine fun rows _ => h _ (fun b hb => ?_) (List.nodup_dedup _)
  rw [List.mem_dedup, List.mem_insertionSort, List.mem_filterMap] at hb
  obtain ⟨row, _, hb⟩ := hb
  exact branchOfKey_plain hb

theorem applyPublishStructure_safe (id : ProjectId) (c r : String) (now : Int) (o : String)
    (policy : PublishPolicy) : SafeCommand (applyPublishStructure id c r now o policy) := by
  simp only [SafeCommand, applyPublishStructure, Prog.safe_bind, safe_okOr, safe_ensure]
  refine (loadMerged_readOnly _).safe fun _ struct _ => (loadMerged_readOnly _).safe fun _ draft _ _ _ => ?_
  refine listBranches_safe fun branches hplain hnodup => ?_
  refine Prog.safe_mapM (fun l _ W => l.Nodup ∧ (∀ b ∈ l, Plain b) ∧
      (∀ k, W k → k ≠ structDraftKey id) ∧ ∀ k, W k → ∀ b ∈ l, ∀ n, k ≠ graySnapKey id b n)
    branches _ _ _ ⟨hnodup, hplain, by simp, by simp⟩ ?_ ?_
  · rintro b l fr W ⟨hnd, hpl, hd, hg⟩
    refine publishStructureOn_safe _ _ _ _ _ _ b (fun k n hk => hg k hk b (by simp) n) fun e fr W' hW' => ?_
    refine ⟨hnd.of_cons, fun b' hb' => hpl b' (by simp [hb']), fun k hk => ?_, fun k hk b' hb' n => ?_⟩
    · rcases hW' k hk with h | h
      · exact (structDraftKey_ne id).2 b k h
      · exact hd k h
    · rcases hW' k hk with h | h
      · refine graySnapKey_ne_keyOf (hpl b (by simp)) (hpl b' (by simp [hb'])) ?_ h n
        rintro rfl
        exact (List.nodup_cons.mp hnd).1 hb'
      · exact hg k h b' (by simp [hb']) n
  · rintro events fr W ⟨-, -, hd, -⟩
    simp only [safe_savePending, safe_deletePending, Prog.safe_pure, and_true]
    rintro (h | h)
    · exact (structDraftKey_ne id).1 h
    · exact hd _ h rfl

/-! ## Shared items -/

theorem cascadeToBranch_safe (id : ProjectId) (b : BranchName) (g k : String) (value : Value) (c r : String)
    (now : Int) (h : ∀ k key, W k → k ≠ sharedDraftKey key) :
    (cascadeToBranch id b g k value c r now).Safe fresh W fun _ _ W' => ∀ k key, W' k → k ≠ sharedDraftKey key := by
  simp only [cascadeToBranch, Prog.safe_bind, safe_okOr]
  refine (loadMerged_readOnly _).safe fun _ st _ => (activeSnapshot_readOnly _ _ _).safe fun old => ?_
  refine writeVersionSnapshot_safe _ _ _ _ _ _ fun W' hW' => ?_
  simp only [safe_savePending, Prog.safe_pure]
  rintro k key (rfl | hk)
  · exact sharedDraftKey_ne key (by simp [branchStateKey, kProject])
  · rcases hW' k hk with rfl | rfl | rfl | hk
    · exact sharedDraftKey_ne key (by simp [versionKey, kProject])
    · exact sharedDraftKey_ne key (by simp [snapshotKey, kProject])
    · exact sharedDraftKey_ne key (by simp [diffKey, kProject])
    · exact h k key hk

theorem cascadeShared_safe (c r : String) (now : Int) (mode : SharedCascadeMode) (item : SharedItem)
    (h : ∀ k key, W k → k ≠ sharedDraftKey key) :
    (cascadeShared c r now mode item).Safe fresh W fun _ _ W' => ∀ k key, W' k → k ≠ sharedDraftKey key := by
  unfold cascadeShared
  split
  · simpa using h
  · rw [Prog.safe_bind]
    refine (sharedUsage_readOnly _).safe fun usage => ?_
    refine Prog.safe_mapM (fun _ _ W' => ∀ k key, W' k → k ≠ sharedDraftKey key) usage _ _ _ h ?_
      fun _ _ _ h => h
    rintro ⟨p, b, g, k⟩ _ fr W' h'
    exact cascadeToBranch_safe _ _ _ _ _ _ _ _ h'

theorem publishShared_safe (c r : String) (now : Int) (mode : SharedCascadeMode) (item : SharedItem)
    (h : ∀ k key, W k → k ≠ sharedDraftKey key) :
    (publishShared c r now mode item).Safe fresh W fun _ _ W' => ∀ k key, W' k → k ≠ sharedDraftKey key := by
  simp only [publishShared, Prog.safe_bind, safe_savePending]
  refine (loadMerged_readOnly _).safe fun prev => ?_
  have hW : ∀ k key, (k = sharedKey item.key ∨ W k) → k ≠ sharedDraftKey key := by
    rintro k key (rfl | hk)
    · exact sharedDraftKey_ne key (by simp [sharedKey, kShared])
    · exact h k key hk
  exact safe_storeDelete (fun hk => hW _ _ hk rfl) (cascadeShared_safe c r now mode item hW)

theorem applySharedPublish_safe (c r : String) (now : Int) (o : String) (mode : SharedCascadeMode)
    (policy : PublishPolicy) : SafeCommand (applySharedPublish c r now o mode policy) := by
  simp only [SafeCommand, applySharedPublish, Prog.safe_bind, safe_ensure]
  refine listSharedDrafts_readOnly.safe fun items _ => ?_
  exact safe_collect (fun W => ∀ k key, W k → k ≠ sharedDraftKey key) (by simp)
    (fun item _ fr W hW => publishShared_safe c r now mode item hW) fun _ _ _ _ => trivial

/-! ## All commands -/

theorem applyInner_safe (cmd : Command) (now : Int) : SafeCommand (applyInner cmd now) := by
  cases cmd <;> dsimp only [applyInner]
  case projectCreate => apply applyProjectCreate_safe
  case projectDelete => apply applyProjectDelete_safe
  case branchCreate => apply applyBranchCreate_safe
  case branchDelete => apply applyBranchDelete_safe
  case structureDraftSet => apply applyStructureDraftSet_safe
  case publishStructure => apply applyPublishStructure_safe
  case draftUpdate => apply applyDraftUpdate_safe
  case publish => apply applyPublish_safe
  case rollback => apply applyRollback_safe
  case sharedDraftUpdate => apply applySharedDraftUpdate_safe
  case sharedPublish => apply applySharedPublish_safe
  case sharedDelete => apply applySharedDelete_safe
  case sessionLogin => apply applySessionLogin_safe
  case sessionLogout => simp [SafeCommand, applySessionLogout]
  case sessionHeartbeat => apply heartbeat_safe
  case projectAdminCreate => apply applyProjectAdminCreate_safe
  case projectAdminDelete => apply applyProjectAdminDelete_safe
  case projectAdminSetPassword => apply applyProjectAdminSetPassword_safe
  case paSessionLogin => apply applyPaSessionLogin_safe
  case paSessionLogout => simp [SafeCommand, applyPaSessionLogout]
  case paSessionHeartbeat => apply applyPaSessionHeartbeat_safe
  case adminSetPassword => simp [SafeCommand, applyAdminSetPassword]
  case multiSessionLogin => simp [SafeCommand, applyMultiSessionLogin]
  case multiSessionLogout => simp [SafeCommand, applyMultiSessionLogout]
  case multiSessionHeartbeat => apply heartbeat_safe
  case multiPaSessionLogin => apply applyMultiPaSessionLogin_safe
  case multiPaSessionLogout => simp [SafeCommand, applyMultiPaSessionLogout]
  case multiPaSessionHeartbeat => apply heartbeat_safe
  case multiSessionLogoutAll => exact applyMultiSessionLogoutAll_safe
  case multiPaSessionLogoutAll => apply applyMultiPaSessionLogoutAll_safe
  case globalAdminCreate => apply applyGlobalAdminCreate_safe
  case globalAdminDelete => apply applyGlobalAdminDelete_safe
  case globalAdminSetPassword => apply applyGlobalAdminSetPassword_safe
  case multiGaSessionLogin => apply applyMultiGaSessionLogin_safe
  case multiGaSessionLogout => simp [SafeCommand, applyMultiGaSessionLogout]
  case multiGaSessionHeartbeat => apply heartbeat_safe
  case multiGaSessionLogoutAll => apply applyMultiGaSessionLogoutAll_safe
  case globalAdminSessionsRevokeAll => exact applyGlobalAdminSessionsRevokeAll_safe
  case auditAppend => apply applyAuditAppend_safe
  case rotateMasterKey => trivial
  case grayPublish => apply applyGrayPublish_safe
  case grayPromote => apply applyGrayPromote_safe
  case grayAbort => apply applyGrayAbort_safe
  case projectTokenCreate => apply applyProjectTokenCreate_safe
  case projectTokenRevoke => apply applyProjectTokenRevoke_safe

/-! ## The buffer drops out -/

section
variable {cmd : Command} {now : Int} {t : Store}

def execute (cmd : Command) (now : Int) (t : Store) : Except Error (List PublishEvent) × State :=
  (applyInner cmd now).exec ⟨t, []⟩

theorem run_execute (cmd : Command) (now : Int) (t : Store) :
    execute cmd now t = (((applyInner cmd now).run { store := t }).1, ((applyInner cmd now).run { store := t }).2.flat) ∧
      KV.Ordered ((applyInner cmd now).run { store := t }).2.pending :=
  Prog.run_eq_exec (applyInner_safe cmd now) (b := { store := t })
    ⟨fun _ => rfl, fun _ _ h => (by cases h), List.Pairwise.nil⟩

theorem apply_result (cmd : Command) (now : Int) (t : Store) :
    (apply cmd now t).result = (execute cmd now t).1 := by
  rw [(run_execute cmd now t).1, apply]
  rcases (applyInner cmd now).run { store := t } with ⟨_ | events, b⟩ <;> rfl

/-- A command that succeeds leaves what its writes leave when they go through. -/
theorem apply_eq {events : List PublishEvent} {s : State} (h : execute cmd now t = (.ok events, s)) :
    apply cmd now t = { result := .ok events, store := s.kv, writes := s.notes } := by
  obtain ⟨he, ho⟩ := run_execute cmd now t
  rw [he] at h
  unfold apply
  rcases hr : (applyInner cmd now).run { store := t } with ⟨_ | events', b⟩
  · rw [hr] at h; cases h
  · rw [hr] at h ho
    cases h
    simp only [KV.Buf.flush, KV.Buf.flat, KV.writeBatch_eq_view ho]
    rfl

theorem apply_ok {events : List PublishEvent} (h : (apply cmd now t).result = .ok events) :
    ∃ s, execute cmd now t = (.ok events, s) ∧ (apply cmd now t).store = s.kv ∧
      (apply cmd now t).writes = s.notes := by
  rw [apply_result] at h
  refine ⟨(execute cmd now t).2, by rw [← h], ?_⟩
  rw [apply_eq (s := (execute cmd now t).2) (by rw [← h])]
  exact ⟨rfl, rfl⟩

theorem apply_writes_error {e : Error} (h : (apply cmd now t).result = .error e) :
    (apply cmd now t).writes = [] := by
  rcases hr : (applyInner cmd now).run { store := t } with ⟨_ | events, b⟩
  · simp [apply, hr]
  · simp [apply, hr] at h

end

end

end Defing
