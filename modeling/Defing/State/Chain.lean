import Defing.Lib.DeltaLog
import Defing.Core.Texts
import Defing.State.Run

/-!
# The versions of a branch

The rows of a branch as a log of checkpoints and diffs. `contents` is what a
version stands for there, and on placed rows it is what `snapshotOf` returns:
the walk from `checkpointOf` and its fallbacks compute nothing else.
-/

namespace Defing

open KV (Prog Plain segments)
open DeltaLog (Log)

/-! ## What stands under a key of a project -/

def Shape (segs : List String) : Stored → Prop
  | .project p => segs = ["p", p.id]
  | .structure _ => ∃ id, segs = ["p", id, "struct"]
  | .structureDraft _ => ∃ id, segs = ["p", id, "struct-draft"]
  | .branchState _ => ∃ id b, segs = ["p", id, "b", b, "state"]
  | .version r => ∃ id b, segs = ["p", id, "b", b, "v", r.no.repr]
  | .snapshot _ => ∃ id b n, isCheckpoint n ∧ segs = ["p", id, "b", b, "v", n.repr, "snap"] ∨
      segs = ["p", id, "b", b, "gray-snap", n.repr]
  | .diff _ => ∃ id b n, ¬ isCheckpoint n ∧ segs = ["p", id, "b", b, "v", n.repr, "diff"]
  | .shared _ => segs.head? = some "sh" ∨ segs.head? = some "sh-draft"
  | _ => ∃ a ∈ ["sess", "idx", "adm", "tok", "audit"], segs.head? = some a

attribute [local simp] Shape

theorem Placed.shape {k : String} : ∀ {v : Stored}, Placed k v → Shape (segments k) v
  | .project _, ⟨hn, _, h⟩ => h ▸ segments_projectKey (plain_of_validName hn)
  | .text _, .inl h => ⟨"sess", by simp, by simp [h, segments_kAdminPw]⟩
  | .text _, .inr ⟨_, u, h⟩ => ⟨"idx", by simp, by simp [h, segments_idxPname]⟩
  | .structure _, ⟨id, hn, h⟩ => ⟨id, h ▸ segments_structKey (plain_of_validName hn)⟩
  | .structureDraft _, ⟨id, hn, h⟩ => ⟨id, h ▸ segments_structDraftKey (plain_of_validName hn)⟩
  | .branchState _, ⟨id, b, hn, h⟩ => ⟨id, b, h ▸ segments_branchStateKey hn.plain.1 hn.plain.2⟩
  | .version r, ⟨id, b, hn, h⟩ => ⟨id, b, h ▸ segments_versionKey hn.plain.1 hn.plain.2 r.no⟩
  | .snapshot _, ⟨id, b, n, hn, .inl ⟨hc, h⟩⟩ =>
    ⟨id, b, n, .inl ⟨hc, h ▸ segments_snapshotKey hn.plain.1 hn.plain.2 n⟩⟩
  | .snapshot _, ⟨id, b, n, hn, .inr h⟩ =>
    ⟨id, b, n, .inr (h ▸ segments_graySnapKey hn.plain.1 hn.plain.2 n)⟩
  | .diff _, ⟨id, b, n, hn, hc, h⟩ => ⟨id, b, n, hc, h ▸ segments_diffKey hn.plain.1 hn.plain.2 n⟩
  | .shared item, ⟨_, .inl h⟩ => .inl (by simp [h, segments_sharedKey])
  | .shared item, ⟨_, .inr h⟩ => .inr (by simp [h, segments_sharedDraftKey])
  | .session _, .inl h => ⟨"sess", by simp, by simp [h, segments_sessionKey]⟩
  | .session _, .inr (.inl ⟨sid, h⟩) => ⟨"sess", by simp, by simp [h, segments_sessionKeyWith]⟩
  | .session _, .inr (.inr (.inl ⟨u, h⟩)) => ⟨"sess", by simp, by simp [h, segments_paSessionKey]⟩
  | .session _, .inr (.inr (.inr (.inl ⟨u, sid, h⟩))) => ⟨"sess", by simp, by simp [h, segments_paSessionKeyWith]⟩
  | .session _, .inr (.inr (.inr (.inr ⟨u, sid, h⟩))) => ⟨"sess", by simp, by simp [h, segments_gaSessionKeyWith]⟩
  | .projectAdmin a, ⟨_, h⟩ => ⟨"adm", by simp, by simp [h, segments_projectAdminKey]⟩
  | .globalAdmin a, ⟨_, h⟩ => ⟨"adm", by simp, by simp [h, segments_globalAdminKey]⟩
  | .token r, h => ⟨"tok", by simp, by rw [show k = _ from h, segments_dataTokenKey]; rfl⟩
  | .audit e, h => ⟨"audit", by simp, by rw [show k = _ from h, segments_auditKey]; rfl⟩
  | .number _, h => ⟨"audit", by simp, by rw [show k = _ from h, segments_kAuditSeq]; rfl⟩

theorem placed_at_sharedKey {key : String} {v : Stored} (h : Placed (sharedKey key) v) :
    ∃ item : SharedItem, v = Codec.encode item := by
  have hs := h.shape
  rw [segments_sharedKey] at hs
  cases v <;> simp at hs
  exact ⟨_, rfl⟩

theorem placed_at_sharedDraftKey {key : String} {v : Stored} (h : Placed (sharedDraftKey key) v) :
    ∃ item : SharedItem, v = Codec.encode item ∧ sharedDraftKey key = sharedDraftKey item.key := by
  have hs := h.shape
  rw [segments_sharedDraftKey] at hs
  cases v <;> simp at hs
  rename_i item
  refine ⟨item, rfl, h.2.resolve_left fun e => ?_⟩
  have := congrArg segments e
  simp [segments_sharedDraftKey, segments_sharedKey] at this

section
variable {id : ProjectId} {b : BranchName} {v : Stored} (hi : Plain id)
include hi

theorem placed_at_structKey (h : Placed (structKey id) v) : ∃ s : Structure, v = Codec.encode s := by
  have hs := h.shape
  rw [segments_structKey hi] at hs
  cases v <;> simp at hs
  exact ⟨_, rfl⟩

variable (hb : Plain b)
include hb

theorem placed_at_branchStateKey (h : Placed (branchStateKey id b) v) :
    ∃ st : BranchState, v = Codec.encode st := by
  have hs := h.shape
  rw [segments_branchStateKey hi hb] at hs
  cases v <;> simp at hs
  exact ⟨_, rfl⟩

theorem placed_at_snapshotKey {n : Nat} (h : Placed (snapshotKey id b n) v) :
    isCheckpoint n ∧ ∃ snap : SnapshotMap, v = Codec.encode snap := by
  have hs := h.shape
  rw [segments_snapshotKey hi hb] at hs
  cases v <;> simp only [Shape, List.cons.injEq, List.head?_cons, List.mem_cons, List.not_mem_nil, Option.some.injEq,
    reduceCtorEq, String.reduceEq, false_and, and_false, exists_const, or_false, exists_eq_or_imp, exists_eq_left] at hs
  obtain ⟨_, _, m, hm, -, -, -, -, -, e, -⟩ := hs
  exact ⟨KV.repr_inj.mp e ▸ hm, _, rfl⟩

theorem placed_at_diffKey {n : Nat} (h : Placed (diffKey id b n) v) :
    ¬ isCheckpoint n ∧ ∃ d : List DiffEntry, v = Codec.encode d := by
  have hs := h.shape
  rw [segments_diffKey hi hb] at hs
  cases v <;> simp only [Shape, List.cons.injEq, List.head?_cons, List.mem_cons, List.not_mem_nil, Option.some.injEq,
    reduceCtorEq, String.reduceEq, false_and, and_false, exists_const, or_false, exists_eq_or_imp, exists_eq_left] at hs
  obtain ⟨_, _, m, hm, -, -, -, -, -, e, -⟩ := hs
  exact ⟨KV.repr_inj.mp e ▸ hm, _, rfl⟩

theorem placed_at_graySnapKey {n : Nat} (h : Placed (graySnapKey id b n) v) : ∃ snap : SnapshotMap, v = Codec.encode snap := by
  have hs := h.shape
  rw [segments_graySnapKey hi hb] at hs
  cases v <;> simp at hs
  exact ⟨_, rfl⟩

end

/-! ## The log of a branch -/

variable [SerdeJson]

section
variable {α : Type} [Codec α] {t t' : Store} {k : String} {a : α}

def entity (α : Type) [Codec α] (t : Store) (k : String) : Option α := (t[k]?).bind Codec.decode

theorem entity_eq_some : entity α t k = some a ↔ Decodes t[k]? (some a) := by
  rw [entity, Option.bind_eq_some_iff, Decodes, Option.map_some, Option.map_eq_some_iff]

theorem entity_exact [Codec.Exact α] : entity α t k = some a ↔ t[k]? = some (Codec.encode a) := by
  rw [entity_eq_some, decodes_exact, Option.map_some]

theorem row_of_entity (h : entity α t k = some a) : ∃ x, t[k]? = some (Codec.encode x) ∧ Codec.reread x = a :=
  decodes_some.mp (entity_eq_some.mp h)

theorem entity_of_row (h : t[k]? = some (Codec.encode a)) : entity α t k = some (Codec.reread a) :=
  entity_eq_some.mpr (decodes_some.mpr ⟨a, h, rfl⟩)

theorem entity_congr (h : t'[k]? = t[k]?) : entity α t' k = entity α t k := by
  rw [entity, h, entity]

theorem entity_insert (t : Store) (k : String) (a : α) :
    entity α (t.insert k (Codec.encode a)) k = some (Codec.reread a) :=
  entity_of_row (by rw [KV.getElem?_insert, if_pos rfl])

/-- A check of all rows, for stores that are given by their log. -/
theorem of_all_entities {P : α → Prop} [DecidablePred P]
    (h : (t.toList.all fun row => (Codec.decode row.2 : Option α).all P) = true) (ha : entity α t k = some a) : P a := by
  obtain ⟨v, hv, hd⟩ := Option.bind_eq_some_iff.mp ha
  have := List.all_eq_true.mp h (k, v) (Std.ExtTreeMap.mem_toList_iff_getElem?_eq_some.mpr hv)
  simpa [hd] using this

/-- Where only entities of a type stand, a row is read as the entity in it. -/
theorem decodes_entity (h : ∀ v, t[k]? = some v → ∃ a : α, v = Codec.encode a) : Decodes t[k]? (entity α t k) := by
  cases hv : t[k]? with
  | none => simp [entity, hv, decodes_none]
  | some v =>
    obtain ⟨a, rfl⟩ := h v hv
    rw [entity_of_row hv]
    exact decodes_encode a

end

def stateOf (t : Store) (id : ProjectId) (b : BranchName) : Option BranchState :=
  entity BranchState t (branchStateKey id b)

def logOf (t : Store) (id : ProjectId) (b : BranchName) : Log SnapshotMap (List DiffEntry) where
  full n := entity SnapshotMap t (snapshotKey id b n)
  delta n := entity (List DiffEntry) t (diffKey id b n)

/-- What a version of a branch stands for. -/
def contents (t : Store) (id : ProjectId) (b : BranchName) (n : Nat) : Option SnapshotMap :=
  DeltaLog.read checkpointInterval applyDiff (logOf t id b) n

omit [SerdeJson] in
theorem checkpointOf_eq (n : Nat) : checkpointOf n = DeltaLog.base checkpointInterval n := rfl

omit [SerdeJson] in
theorem isCheckpoint_eq (n : Nat) : isCheckpoint n = DeltaLog.Checkpoint checkpointInterval n := rfl

structure VersionRows (t : Store) (id : ProjectId) (b : BranchName) : Prop where
  full (n : Nat) : Decodes t[snapshotKey id b n]? ((logOf t id b).full n)
  delta (n : Nat) : Decodes t[diffKey id b n]? ((logOf t id b).delta n)

theorem snapshotOf_zero (t : Store) (id : ProjectId) (b : BranchName) :
    (snapshotOf id b 0).eval t = .error (Error.notFound s!"version 0 of {b}") := by
  rw [snapshotOf, (ensure_readOnly _ _).eval_bind]
  rfl

section
variable {t : Store} {id : ProjectId} {b : BranchName} (h : VersionRows t id b)
include h

theorem VersionRows.readAs_snapshotKey (what : String) (n : Nat) :
    (readAs what (snapshotKey id b n)).eval t = .ok ((logOf t id b).full n) := by
  rw [readAs_eval, parseRow_ok]
  exact h.full n

theorem VersionRows.readAs_diffKey (what : String) (n : Nat) :
    (readAs what (diffKey id b n)).eval t = .ok ((logOf t id b).delta n) := by
  rw [readAs_eval, parseRow_ok]
  exact h.delta n

theorem VersionRows.fullSnapshot_eval (n : Nat) (snap : SnapshotMap) :
    (fullSnapshot id b n).eval t = .ok snap ↔ (logOf t id b).full n = some snap := by
  rw [fullSnapshot, (readAs_readOnly _ _).eval_bind, h.readAs_snapshotKey]
  cases (logOf t id b).full n with
  | none => exact ⟨fun h => (by cases h), fun h => (by cases h)⟩
  | some s => exact ⟨fun h => congrArg some (Except.ok.inj h), fun h => congrArg Except.ok (Option.some.inj h)⟩

/-- The loop of `snapshotOf` over numbers that are no checkpoints. -/
theorem VersionRows.replay_eval (n v : Nat) (snap r : SnapshotMap) (hv : ∀ m, v ≤ m → m < v + n → ¬ isCheckpoint m) :
    (replay id b n v snap).eval t = .ok r ↔ DeltaLog.walkOr applyDiff (logOf t id b) n v snap = some r := by
  induction n generalizing v snap with
  | zero => exact ⟨fun h => congrArg some (Except.ok.inj h), fun h => congrArg Except.ok (Option.some.inj h)⟩
  | succ n ih =>
    have hc : ¬ isCheckpoint v := hv v (Nat.le_refl v) (by omega)
    have hm : ¬ v % checkpointInterval = 0 := fun h => hc (.inr (Nat.dvd_of_mod_eq_zero h))
    rw [replay, if_neg hm, (readAs_readOnly _ _).eval_bind, h.readAs_diffKey, DeltaLog.walkOr]
    cases (logOf t id b).delta v with
    | some d => exact ih (v + 1) (applyDiff snap d) (fun m h h' => hv m (by omega) (by omega))
    | none => exact h.fullSnapshot_eval v r

theorem VersionRows.snapshotOf_eval {v : Nat} (hv : 0 < v) (snap : SnapshotMap) :
    (snapshotOf id b v).eval t = .ok snap ↔
      DeltaLog.rebuild checkpointInterval applyDiff (logOf t id b) v = some snap := by
  have he : (ensure (v ≠ 0) (Error.notFound s!"version 0 of {b}")).eval t = .ok () := by
    rw [ensure, if_pos (Nat.pos_iff_ne_zero.mp hv)]
    rfl
  rw [snapshotOf, (ensure_readOnly _ _).eval_bind, he]
  change ((readAs _ _ : M (Option SnapshotMap)) >>= _).eval t = _ ↔ _
  rw [(readAs_readOnly _ _).eval_bind, h.readAs_snapshotKey, checkpointOf_eq, DeltaLog.rebuild]
  have hle := DeltaLog.base_le (c := checkpointInterval) hv
  cases (logOf t id b).full (DeltaLog.base checkpointInterval v) with
  | some s => exact h.replay_eval _ _ s snap (fun m h h' => DeltaLog.not_checkpoint_of_base_lt h (by omega))
  | none => exact h.fullSnapshot_eval v snap

end

/-! ## The readers on placed rows -/

section
variable {t : Store} (ht : WellPlaced t) {id : ProjectId} {b : BranchName} (hi : Plain id) (hb : Plain b)
include ht hi

theorem reads_structKey : Decodes t[structKey id]? (entity Structure t (structKey id)) :=
  decodes_entity fun _ h => placed_at_structKey hi (ht _ _ h)

include hb

theorem reads_branchStateKey : Decodes t[branchStateKey id b]? (stateOf t id b) :=
  decodes_entity fun _ h => placed_at_branchStateKey hi hb (ht _ _ h)

theorem reads_snapshotKey (n : Nat) : Decodes t[snapshotKey id b n]? ((logOf t id b).full n) :=
  decodes_entity fun _ h => (placed_at_snapshotKey hi hb (ht _ _ h)).2

theorem reads_diffKey (n : Nat) : Decodes t[diffKey id b n]? ((logOf t id b).delta n) :=
  decodes_entity fun _ h => (placed_at_diffKey hi hb (ht _ _ h)).2

theorem logOf_full_eq_none {n : Nat} (hn : ¬ isCheckpoint n) : (logOf t id b).full n = none := by
  rw [Option.eq_none_iff_forall_ne_some]
  intro snap h
  obtain ⟨_, hrow, -⟩ := row_of_entity h
  exact hn (placed_at_snapshotKey hi hb (ht _ _ hrow)).1

theorem versionRows : VersionRows t id b := ⟨reads_snapshotKey ht hi hb, reads_diffKey ht hi hb⟩

theorem snapshotOf_eval (v : Nat) (snap : SnapshotMap) :
    (snapshotOf id b v).eval t = .ok snap ↔ contents t id b v = some snap := by
  rcases Nat.eq_zero_or_pos v with rfl | hv
  · rw [snapshotOf_zero]
    exact ⟨fun h => (by cases h), fun h => (by cases h)⟩
  · rw [(versionRows ht hi hb).snapshotOf_eval hv, contents, DeltaLog.rebuild_eq_read hv fun m hm hle =>
      logOf_full_eq_none ht hi hb (DeltaLog.not_checkpoint_of_base_lt hm hle)]

end

end Defing
