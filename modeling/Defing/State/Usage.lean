import Defing.State.Evolve

/-!
# What the readers of shared items find

On placed rows the shared drafts, the projects and the bindings that the state
machine lists are those of the store.
-/

namespace Defing

open KV (Prog Plain)

variable [SerdeJson] {id : ProjectId} {b : BranchName} {t : Store}

/-! ## Shared drafts -/

/-- The shared items that wait for their publication. -/
def draftsOf (t : Store) : List SharedItem :=
  (parsed (rowsUnder kSharedDraft t)).insertionSort fun (a b : SharedItem) => a.key ≤ b.key

theorem listSharedDrafts_eq (t : Store) : listSharedDrafts.eval t = .ok (draftsOf t) := rfl

def sharedDraftOf (t : Store) (key : String) : Option SharedItem := entity SharedItem t (sharedDraftKey key)

theorem mem_draftsOf (ht : WellPlaced t) {item : SharedItem} : item ∈ draftsOf t ↔ sharedDraftOf t item.key = some item := by
  rw [draftsOf, List.mem_insertionSort, parsed, List.mem_filterMap]
  constructor
  · rintro ⟨⟨k, v⟩, hrow, hd⟩
    obtain ⟨hstart, hk⟩ := mem_rowsUnder.mp hrow
    obtain ⟨x, rfl, rfl⟩ := decode_eq_some.mp hd
    rcases (ht _ _ hk).2 with rfl | rfl
    · simp [startsWith, kSharedDraft, sharedKey, kShared] at hstart
    · exact entity_of_row hk
  · intro h
    obtain ⟨x, hk, hx⟩ := row_of_entity h
    exact ⟨_, mem_rowsUnder.mpr ⟨startsWith_append _ _, hk⟩, decode_eq_some.mpr ⟨x, rfl, hx⟩⟩

theorem forall_draft_rows (ht : WellPlaced t) {P : String → Prop} :
    (∀ item : SharedItem, t[sharedDraftKey item.key]? = some (Codec.encode item) → P item.key) ↔
      ∀ item ∈ draftsOf t, P item.key := by
  constructor
  · intro h item hi
    obtain ⟨x, hx, rfl⟩ := row_of_entity ((mem_draftsOf ht).mp hi)
    exact h x hx
  · intro h item hrow
    exact h (rereadShared item) ((mem_draftsOf ht).mpr (entity_of_row hrow))

theorem no_draft_row (ht : WellPlaced t) (hd : draftsOf t = []) (key : String) : t[sharedDraftKey key]? = none := by
  rw [Option.eq_none_iff_forall_ne_some]
  intro v hk
  obtain ⟨x, rfl, e⟩ := placed_at_sharedDraftKey (ht _ _ hk)
  have : rereadShared x ∈ draftsOf t := (mem_draftsOf ht).mpr (entity_of_row (e ▸ hk))
  rw [hd] at this
  cases this

/-! ## Projects and their branches -/

def projectsOf (t : Store) : List Project :=
  ((rowsUnder kProject t).filterMap projectRow).insertionSort fun a b => a.name ≤ b.name

theorem listProjects_eq (t : Store) : listProjects.eval t = .ok (projectsOf t) := rfl

theorem mem_projectsOf (ht : WellPlaced t) {p : Project} :
    p ∈ projectsOf t ↔ t[projectKey p.id]? = some (Codec.encode p) := by
  rw [projectsOf, List.mem_insertionSort, List.mem_filterMap]
  constructor
  · rintro ⟨⟨k, v⟩, hrow, hd⟩
    obtain ⟨-, hk⟩ := mem_rowsUnder.mp hrow
    unfold projectRow at hd
    split at hd
    · cases hd
    · obtain ⟨x, rfl, rfl⟩ := decode_eq_some.mp hd
      obtain ⟨-, -, rfl⟩ := ht _ _ hk
      exact hk
  · intro hk
    refine ⟨_, mem_rowsUnder.mpr ⟨startsWith_append _ _, hk⟩, ?_⟩
    have hp : Plain p.id := plain_of_validName (ht _ _ hk).1
    rw [projectRow, if_neg, decode_encode, reread_exact]
    change ¬ '/' ∈ (kProject ++ p.id).toList.drop kProject.toList.length
    rw [String.toList_append, List.drop_left]
    exact hp

theorem projectsOf_of_entity (ht : WellPlaced t) {p : Project} (h : entity Project t (projectKey id) = some p) :
    p ∈ projectsOf t ∧ p.id = id := by
  have hk := entity_exact.mp h
  have hid := (validName_of_project p (ht _ _ hk)).2.1
  exact ⟨(mem_projectsOf ht).mpr (hid ▸ hk), hid⟩

def branchesOf (t : Store) (id : ProjectId) : List BranchName :=
  (((rowsUnder (kProject ++ id ++ kBranch) t).filterMap fun row =>
    branchOfKey (kProject ++ id ++ kBranch) row.1).insertionSort (· ≤ ·)).dedup

omit [SerdeJson] in
theorem listBranches_eq (t : Store) (id : ProjectId) : (listBranches id).eval t = .ok (branchesOf t id) := rfl

omit [SerdeJson] in
theorem plain_of_mem_branchesOf (h : b ∈ branchesOf t id) : Plain b :=
  (listBranches_eval (listBranches_eq t id)).2 b h

omit [SerdeJson] in
theorem branchStateKey_eq (id : ProjectId) (b : BranchName) :
    branchStateKey id b = (kProject ++ id ++ kBranch) ++ (b ++ kState) := String.append_assoc

omit [SerdeJson] in
theorem branchOfKey_branchStateKey (id : ProjectId) (hb : validBranch b) :
    branchOfKey (kProject ++ id ++ kBranch) (branchStateKey id b) = some b := by
  have hrest : (branchStateKey id b).toList.drop (kProject ++ id ++ kBranch).toList.length =
      b.toList ++ '/' :: "state".toList := by
    rw [branchStateKey_eq, String.toList_append (s := _ ++ _) (t := _ ++ _), List.drop_left, String.toList_append]
    rfl
  have hb' := plain_of_validBranch hb
  have htake : (b.toList ++ '/' :: "state".toList).takeWhile (· ≠ '/') = b.toList := by
    rw [List.takeWhile_append_of_pos]
    · simp
    · intro c hc
      simpa using fun e : c = '/' => hb' (e ▸ hc)
  rw [branchOfKey]
  simp only [hrest, htake]
  rw [if_pos (by simp), if_neg, String.ofList_toList]
  intro he
  rw [String.toList_eq_nil_iff] at he
  subst he
  exact absurd hb (by decide +kernel)

theorem mem_branchesOf (hn : Named id b) {st : BranchState} (h : stateOf t id b = some st) : b ∈ branchesOf t id := by
  rw [branchesOf, List.mem_dedup, List.mem_insertionSort, List.mem_filterMap]
  obtain ⟨x, hx, -⟩ := row_of_entity h
  refine ⟨(branchStateKey id b, Codec.encode x), mem_rowsUnder.mpr ⟨?_, hx⟩, branchOfKey_branchStateKey id hn.branch⟩
  rw [branchStateKey_eq]
  exact startsWith_append _ _

/-! ## Bindings -/

def Bound (t : Store) (key : String) (id : ProjectId) (b : BranchName) : Prop :=
  (entity Project t (projectKey id)).isSome ∧
    ∃ st g k, stateOf t id b = some st ∧ item? st.sharedBindings g k = some key

omit [SerdeJson] in
theorem mem_boundTo {key g k : String} {bindings : Bindings} :
    (g, k) ∈ boundTo key bindings ↔ item? bindings g k = some key := by
  simp only [boundTo, List.mem_flatMap, List.mem_filterMap, Prod.exists, Option.ite_none_right_eq_some,
    Option.some.injEq, Prod.mk.injEq, Std.ExtTreeMap.mem_toList_iff_getElem?_eq_some]
  constructor
  · rintro ⟨g', m, hm, k', rk, hk, rfl, rfl, rfl⟩
    simp [item?, hm, hk]
  · intro h
    obtain ⟨m, hm, hk⟩ := Option.bind_eq_some_iff.mp h
    exact ⟨g, m, hm, k, key, hk, rfl, rfl, rfl⟩

omit [SerdeJson] in
theorem collect_eval {α β : Type} {f : α → M (List β)} {g : α → List β} (hf : ∀ a, (f a).ReadOnly) (l : List α)
    (h : ∀ a ∈ l, (f a).eval t = .ok (g a)) : (collect f l).eval t = .ok (l.flatMap g) := by
  induction l with
  | nil => rfl
  | cons a l ih =>
    rw [collect, (hf a).eval_bind_ok (h a (by simp)),
      (collect_readOnly hf l).eval_bind_ok (ih fun a' ha' => h a' (by simp [ha']))]
    rfl

def usageOf (t : Store) (key : String) (id : ProjectId) (b : BranchName) :
    List (ProjectId × BranchName × String × String) :=
  ((stateOf t id b).map fun st => (boundTo key st.sharedBindings).map fun (g, k) => (id, b, g, k)).getD []

theorem mem_usageOf {key : String} {u : ProjectId × BranchName × String × String} :
    u ∈ usageOf t key id b ↔ ∃ st g k, stateOf t id b = some st ∧ item? st.sharedBindings g k = some key ∧ (id, b, g, k) = u := by
  cases hst : stateOf t id b with
  | none => simp [usageOf, hst]
  | some st => simp [usageOf, hst, mem_boundTo]

theorem getBranchState_eval (ht : WellPlaced t) (hi : Plain id) (hb : Plain b) :
    (getBranchState id b).eval t = .ok (stateOf t id b) := by
  rw [getBranchState, loadMerged, readAs_eval, parseRow_ok]
  exact reads_branchStateKey ht hi hb

theorem branchUsage_eval (ht : WellPlaced t) (key : String) (hi : Plain id) (hb : Plain b) :
    (branchUsage key id b).eval t = .ok (usageOf t key id b) := by
  have hro : (getBranchState id b).ReadOnly := loadMerged_readOnly _
  rw [branchUsage, hro.eval_bind_ok (getBranchState_eval ht hi hb), usageOf]
  cases stateOf t id b <;> rfl

theorem sharedUsage_eval (ht : WellPlaced t) (key : String) :
    (sharedUsage key).eval t =
      .ok ((projectsOf t).flatMap fun p => (branchesOf t p.id).flatMap fun b => usageOf t key p.id b) := by
  rw [sharedUsage, listProjects_readOnly.eval_bind_ok (listProjects_eq t)]
  refine collect_eval (projectUsage_readOnly key) _ fun p hp => ?_
  have hi : Plain p.id := plain_of_validName (ht _ _ ((mem_projectsOf ht).mp hp)).1
  rw [projectUsage, (listBranches_readOnly _).eval_bind_ok (listBranches_eq t p.id)]
  exact collect_eval (branchUsage_readOnly key p.id) _ fun b hb =>
    branchUsage_eval ht key hi (plain_of_mem_branchesOf hb)

/-- The uses that are listed are the bindings of branches. -/
theorem mem_sharedUsage (ht : WellPlaced t) {key : String} {usage : List (ProjectId × BranchName × String × String)}
    (h : (sharedUsage key).eval t = .ok usage) : (∃ g k, (id, b, g, k) ∈ usage) ↔ Bound t key id b := by
  rw [sharedUsage_eval ht, Except.ok.injEq] at h
  subst h
  simp only [List.mem_flatMap]
  constructor
  · rintro ⟨g, k, p, hp, b', -, hu⟩
    obtain ⟨st, g', k', hst, hgk, he⟩ := mem_usageOf.mp hu
    cases he
    refine ⟨?_, st, g, k, hst, hgk⟩
    rw [entity_exact.mpr ((mem_projectsOf ht).mp hp)]
    rfl
  · rintro ⟨hp, st, g, k, hst, hgk⟩
    obtain ⟨p, hp⟩ := Option.isSome_iff_exists.mp hp
    obtain ⟨hmem, rfl⟩ := projectsOf_of_entity ht hp
    exact ⟨g, k, p, hmem, b, mem_branchesOf (named_of_stateOf ht hst) hst, mem_usageOf.mpr ⟨st, g, k, hst, hgk, rfl⟩⟩

end Defing
