import Defing.Core.Config
import Defing.State.Atomic
import Defing.State.Gray
import Defing.State.Warnings

/-!
# Promoting values between branches

The handler makes its plan from the published values of one branch and the
draft of another, the service encrypts what is secret by then, and the update
of the draft is applied after whatever came in between.
-/

namespace Defing

open KV (Prog)
open Std (ExtTreeMap)

def entries {β : Type} (m : StrMap (StrMap β)) : List (String × String × β) :=
  m.toList.flatMap fun group => group.2.toList.map fun item => (group.1, item.1, item.2)

/-! ## The handler -/

structure PromoteReq where
  source : BranchName
  target : BranchName
  items : Option (List String) := none
  force : Bool := false

structure PromotePlan where
  updates : List DraftUpdateItem := []
  applied : List String := []
  skipped : List String := []
  missingFrom : List String := []

structure PromoteResp where
  applied : List String
  skipped : List String
  missingFrom : List String
  deriving DecidableEq

def itemName (e : String × String) : String := e.1 ++ "/" ++ e.2

def PromotePlan.resp (plan : PromotePlan) : PromoteResp :=
  { applied := plan.applied, skipped := plan.skipped, missingFrom := plan.missingFrom }

/-- What the request selects; entries without a slash are passed over. -/
def promoteFilter (req : PromoteReq) : Option (List (String × String)) := req.items.map fun items => items.filterMap splitOnceSlash

/-- The items of a structure that `p` selects, by group and key. -/
def itemKeys (p : ItemDef → Bool) (struct : Option Structure) : List (String × String) :=
  (struct.map fun struct => (struct.allItems.filter fun e => p e.2).map fun e => (e.1, e.2.key)).getD []

def promoteStep (filter : Option (List (String × String))) (refKeys : List (String × String)) (draft : ValueDraft)
    (force : Bool) (plan : PromotePlan) (e : String × String × Value) : PromotePlan :=
  if (filter.any fun f => (e.1, e.2.1) ∉ f) then plan
  else if (e.1, e.2.1) ∈ refKeys then { plan with skipped := plan.skipped ++ [itemName (e.1, e.2.1)] }
  else if (item? draft e.1 e.2.1).isSome && !force then { plan with skipped := plan.skipped ++ [itemName (e.1, e.2.1)] }
  else
    { plan with
      updates := plan.updates ++ [⟨e.1, e.2.1, e.2.2⟩]
      applied := plan.applied ++ [itemName (e.1, e.2.1)] }

section
variable [SerdeJson]

def promotePlan (id : ProjectId) (req : PromoteReq) : M PromotePlan := do
  let src ← getConfig id req.source 0
  let dst ← okOr (← getBranchState id req.target) (Error.notFound "target branch")
  let struct ← getStructure id
  let filter := promoteFilter req
  let plan := (entries src.groups).foldl (promoteStep filter (itemKeys (·.shared) struct) dst.valueDraft req.force) {}
  pure
    { plan with
      missingFrom := ((filter.getD []).filter fun e => (item? src.groups e.1 e.2).isNone).map itemName }

/-- What the cipher makes of the `i`th update, if it can. -/
abbrev Encryptor := Nat → String → Except String Ciphertext

def encryptUpdate (encrypt : Encryptor) (secretKeys : List (String × String)) (i : Nat) (u : DraftUpdateItem) :
    M DraftUpdateItem :=
  if (u.group, u.key) ∈ secretKeys then
    match u.value with
    | .string plain =>
      match encrypt i plain with
      | .ok ct => pure { u with value := .secret ct }
      | .error e => fail (Error.internal s!"encrypt secret: {e}")
    | _ => pure u
  else pure u

def encryptSecretUpdates (cipher : Option Encryptor) (id : ProjectId) (updates : List DraftUpdateItem) :
    M (List DraftUpdateItem) :=
  match cipher with
  | none => pure updates
  | some encrypt => do
    let struct ← getStructure id
    updates.zipIdx.mapM fun e => encryptUpdate encrypt (itemKeys (fun d => d.ty = .secret) struct) e.2 e.1

/-- `promote`: the plan is made in `t₀`, secrets are encrypted in `t₁`, and the update is applied to `t₂`. -/
def promote (cipher : Option Encryptor) (id : ProjectId) (req : PromoteReq) (operator : String) (ts now : Int)
    (t₀ t₁ t₂ : Store) : Except Error PromoteResp × Store :=
  match (promotePlan id req).eval t₀ with
  | .error e => (.error e, t₂)
  | .ok plan =>
    if plan.updates = [] then (.ok plan.resp, t₂)
    else
      match (encryptSecretUpdates cipher id plan.updates).eval t₁ with
      | .error e => (.error e, t₂)
      | .ok updates =>
        let w := writeCommand (.draftUpdate id req.target updates [] [] operator ts none) now t₂
        (w.1.map fun _ => plan.resp, w.2)

end

/-! ## Entries -/

section Entries

variable {β : Type} {m : StrMap (StrMap β)} {g k : String} {v : β}

theorem nodup_keys_toList {γ : Type} (m : StrMap γ) : (m.toList.map Prod.fst).Nodup := by
  rw [ExtTreeMap.map_fst_toList_eq_keys]
  exact ExtTreeMap.nodup_keys

theorem nodup_entries (m : StrMap (StrMap β)) : ((entries m).map fun e => (e.1, e.2.1)).Nodup := by
  have hgroups := nodup_keys_toList m
  unfold entries
  rw [List.map_flatMap, List.nodup_flatMap]
  constructor
  · intro group _
    rw [List.map_map]
    have : ((fun e : String × String × β => (e.1, e.2.1)) ∘ fun item : String × β => (group.1, item.1, item.2)) =
        (fun key => (group.1, key)) ∘ Prod.fst := rfl
    rw [this, ← List.map_map]
    exact (nodup_keys_toList group.2).map fun a b h => (Prod.mk.inj h).2
  · rw [List.nodup_iff_pairwise_ne, List.pairwise_map] at hgroups
    refine hgroups.imp fun {a b} hne => ?_
    intro e ha hb
    simp only [List.map_map, List.mem_map] at ha hb
    obtain ⟨_, -, rfl⟩ := ha
    obtain ⟨_, -, h⟩ := hb
    exact hne (Prod.mk.inj h).1.symm

end Entries

/-! ## The plan -/

def DraftUpdateItem.ofEntry (e : String × String × Value) : DraftUpdateItem := ⟨e.1, e.2.1, e.2.2⟩

def nameOfEntry (e : String × String × Value) : String := itemName (e.1, e.2.1)

def selects (filter : Option (List (String × String))) (e : String × String × Value) : Bool :=
  !filter.any fun f => (e.1, e.2.1) ∉ f

def promotesEntry (refKeys : List (String × String)) (draft : ValueDraft) (force : Bool) (e : String × String × Value) : Bool :=
  !decide ((e.1, e.2.1) ∈ refKeys) && !((item? draft e.1 e.2.1).isSome && !force)

section Plan

variable {filter : Option (List (String × String))} {refKeys : List (String × String)} {draft : ValueDraft} {force : Bool}

theorem foldl_promoteStep (l : List (String × String × Value)) (plan : PromotePlan) :
    l.foldl (promoteStep filter refKeys draft force) plan =
      { updates := plan.updates ++
          ((l.filter (selects filter)).filter (promotesEntry refKeys draft force)).map DraftUpdateItem.ofEntry
        applied := plan.applied ++ ((l.filter (selects filter)).filter (promotesEntry refKeys draft force)).map nameOfEntry
        skipped := plan.skipped ++
          ((l.filter (selects filter)).filter fun e => !promotesEntry refKeys draft force e).map nameOfEntry
        missingFrom := plan.missingFrom } := by
  induction l generalizing plan with
  | nil => simp
  | cons e l ih =>
    rw [List.foldl_cons, ih]
    unfold promoteStep
    by_cases hsel : filter.any fun f => decide ((e.1, e.2.1) ∉ f)
    · have hs : selects filter e = false := by simp only [selects, hsel, Bool.not_true]
      simp only [hsel, if_true, List.filter_cons, hs, Bool.false_eq_true, if_false]
    · have hs : selects filter e = true := by simp only [selects, hsel, Bool.not_false]
      have hf : (e :: l).filter (selects filter) = e :: l.filter (selects filter) := by rw [List.filter_cons, if_pos hs]
      rw [if_neg hsel, hf]
      by_cases href : (e.1, e.2.1) ∈ refKeys
      · have hp : promotesEntry refKeys draft force e = false := by simp [promotesEntry, href]
        rw [if_pos href]
        simp only [List.filter_cons, hp, Bool.not_false, if_true, Bool.false_eq_true, if_false, List.map_cons, nameOfEntry,
          List.append_assoc, List.cons_append, List.nil_append]
      · rw [if_neg href]
        by_cases hd : (item? draft e.1 e.2.1).isSome && !force
        · have hp : promotesEntry refKeys draft force e = false := by simp [promotesEntry, hd]
          rw [if_pos hd]
          simp only [List.filter_cons, hp, Bool.not_false, if_true, Bool.false_eq_true, if_false, List.map_cons, nameOfEntry,
            List.append_assoc, List.cons_append, List.nil_append]
        · have hp : promotesEntry refKeys draft force e = true := by simp [promotesEntry, href, hd]
          rw [if_neg hd]
          simp only [List.filter_cons, hp, Bool.not_true, if_true, Bool.false_eq_true, if_false, List.map_cons, nameOfEntry,
            DraftUpdateItem.ofEntry, List.append_assoc, List.cons_append, List.nil_append]

end Plan

/-! ## The update of a draft -/

section Update

variable [SerdeJson] {t : Store} {s s' : State} {index : StrMap (StrMap ItemDef)} {draft : ValueDraft} {id : ProjectId}
  {b : BranchName} {us : List DraftUpdateItem}

def TakesUpdate (index : StrMap (StrMap ItemDef)) (u : DraftUpdateItem) : Prop :=
  ∃ d, item? index u.group u.key = some d ∧ d.shared = false ∧ validateValue d u.value = [] ∧
    SerdeJson.valueBytes u.value ≤ maxValueBytes

def freshUpdates (draft : ValueDraft) (us : List DraftUpdateItem) : Nat :=
  (us.filter fun u => (item? draft u.group u.key).isNone).length

def draftSize (draft : ValueDraft) : Nat := (draft.toList.map fun e => e.2.size).sum

/-- What an update of a draft asks of the state it is applied to. -/
def Accepts (t : Store) (id : ProjectId) (b : BranchName) (us : List DraftUpdateItem) : Prop :=
  ∃ st struct, stateOf t id b = some st ∧ structOf t id = some struct ∧ (∀ u ∈ us, TakesUpdate (itemIndex struct) u) ∧
    (freshUpdates st.valueDraft us = 0 ∨ draftSize st.valueDraft + freshUpdates st.valueDraft us ≤ maxItemsPerProject)

theorem checkUpdate_ok {n m : Nat} {u : DraftUpdateItem} :
    (checkUpdate index draft n u).exec s = (.ok m, s') ↔ TakesUpdate index u ∧
      (if (item? draft u.group u.key).isNone then n + 1 ≤ maxItemsPerProject ∧ m = n + 1 else m = n) ∧ s' = s := by
  unfold checkUpdate
  rw [okOr_bind]
  unfold TakesUpdate
  constructor
  · rintro ⟨d, hd, h⟩
    obtain ⟨hshared, h⟩ := ensure_bind.mp h
    obtain ⟨hvalid, h⟩ := ensure_bind.mp h
    obtain ⟨hsize, h⟩ := ensure_bind.mp h
    refine ⟨⟨d, hd, hshared, hvalid, hsize⟩, ?_⟩
    by_cases hf : (item? draft u.group u.key).isNone
    · rw [if_pos hf] at h ⊢
      obtain ⟨hmax, h⟩ := ensure_bind.mp h
      obtain ⟨hm, hs⟩ := pure_ok.mp h
      exact ⟨⟨hmax, hm.symm⟩, hs⟩
    · rw [if_neg hf] at h ⊢
      obtain ⟨hm, hs⟩ := pure_ok.mp h
      exact ⟨hm.symm, hs⟩
  · rintro ⟨⟨d, hd, hshared, hvalid, hsize⟩, hm, rfl⟩
    refine ⟨d, hd, ensure_bind.mpr ⟨hshared, ensure_bind.mpr ⟨hvalid, ensure_bind.mpr ⟨hsize, ?_⟩⟩⟩⟩
    by_cases hf : (item? draft u.group u.key).isNone
    · rw [if_pos hf] at hm ⊢
      exact ensure_bind.mpr ⟨hm.1, pure_ok.mpr ⟨hm.2.symm, rfl⟩⟩
    · rw [if_neg hf] at hm ⊢
      exact pure_ok.mpr ⟨hm.symm, rfl⟩

theorem checkUpdates_ok {n m : Nat} :
    (us.foldlM (checkUpdate index draft) n).exec s = (.ok m, s') ↔ (∀ u ∈ us, TakesUpdate index u) ∧
      (freshUpdates draft us = 0 ∨ n + freshUpdates draft us ≤ maxItemsPerProject) ∧ m = n + freshUpdates draft us ∧
      s' = s := by
  induction us generalizing n s with
  | nil =>
    rw [List.foldlM_nil, pure_ok]
    simp [freshUpdates, eq_comm]
  | cons u us ih =>
    rw [List.foldlM_cons, Prog.exec_bind_ok]
    simp only [checkUpdate_ok, ih, List.forall_mem_cons]
    by_cases hf : (item? draft u.group u.key).isNone
    · have hfresh : freshUpdates draft (u :: us) = freshUpdates draft us + 1 := by
        simp only [freshUpdates, List.filter_cons, hf, if_true, List.length_cons]
      simp only [hf, if_true, hfresh]
      constructor
      · rintro ⟨_, _, ⟨hu, ⟨hmax, rfl⟩, rfl⟩, hus, htotal, rfl, rfl⟩
        exact ⟨⟨hu, hus⟩, by omega, by omega, rfl⟩
      · rintro ⟨⟨hu, hus⟩, htotal, rfl, rfl⟩
        exact ⟨_, _, ⟨hu, ⟨by omega, rfl⟩, rfl⟩, hus, by omega, by omega, rfl⟩
    · have hfresh : freshUpdates draft (u :: us) = freshUpdates draft us := by
        simp only [freshUpdates, List.filter_cons, hf, Bool.false_eq_true, if_false]
      simp only [hf, Bool.false_eq_true, if_false, hfresh]
      constructor
      · rintro ⟨_, _, ⟨hu, rfl, rfl⟩, hus, htotal, rfl, rfl⟩
        exact ⟨⟨hu, hus⟩, htotal, rfl, rfl⟩
      · rintro ⟨⟨hu, hus⟩, htotal, rfl, rfl⟩
        exact ⟨_, _, ⟨hu, rfl, rfl⟩, hus, htotal, rfl, rfl⟩

def putUpdates (us : List DraftUpdateItem) (now : Int) (draft : ValueDraft) : ValueDraft :=
  us.foldl (fun m u => setItem m u.group u.key ({ value := u.value, updatedAt := now } : DraftValue)) draft

theorem applyDraftUpdate_ok {n : Int} {o : String} {events : List PublishEvent} :
    (applyDraftUpdate id b us [] [] n o none).exec s = (.ok events, s') ↔ Accepts s.kv id b us ∧ events = [] ∧
      ∃ st, stateOf s.kv id b = some st ∧
        s' = s.insert (branchStateKey id b) (Codec.encode
          { st with valueDraft := putUpdates us n st.valueDraft, draftRev := st.draftRev + 1 }) := by
  constructor
  · intro h
    obtain ⟨st, hst, h⟩ := getBranchState_bind h
    obtain ⟨_, -, h⟩ := (checkDraftRev_readOnly _ _).exec_bind_ok.mp h
    obtain ⟨struct, hstruct, h⟩ := getStructure_bind h
    obtain ⟨_, hus, h⟩ := (foldlM_readOnly (checkUpdate_readOnly _ _) _ _).exec_bind_ok.mp h
    have hus := (foldlM_readOnly (checkUpdate_readOnly _ _) us _).exec_ok.mpr ⟨hus, rfl⟩
    obtain ⟨hfits, hmax, -, -⟩ := checkUpdates_ok.mp hus
    obtain ⟨acc, hacc, h⟩ := (foldlM_readOnly (bindOne_readOnly _) [] _).exec_bind_ok.mp h
    obtain rfl : (st.sharedBindings, false) = acc := Except.ok.inj hacc
    rw [savePending_bind] at h
    obtain ⟨hevents, hs⟩ := pure_ok.mp h
    exact ⟨⟨st, struct, hst, hstruct, hfits, hmax⟩, hevents.symm, st, hst, by simpa [putUpdates] using hs⟩
  · rintro ⟨⟨st, struct, hst, hstruct, hfits, hmax⟩, rfl, st', hst', rfl⟩
    obtain rfl := Option.some.inj (hst.symm.trans hst')
    refine loadMerged_bind.mpr ⟨some st, entity_eq_some.mp hst, okOr_bind.mpr ⟨st, rfl, ?_⟩⟩
    refine Prog.exec_bind_ok.mpr ⟨(), s, rfl, ?_⟩
    refine loadMerged_bind.mpr ⟨some struct, entity_eq_some.mp hstruct, okOr_bind.mpr ⟨struct, rfl, ?_⟩⟩
    refine Prog.exec_bind_ok.mpr ⟨_, _, checkUpdates_ok.mpr ⟨hfits, hmax, rfl, rfl⟩, ?_⟩
    refine Prog.exec_bind_ok.mpr ⟨(st.sharedBindings, false), s, rfl, ?_⟩
    rw [savePending_bind]
    refine pure_ok.mpr ⟨rfl, ?_⟩
    simp [putUpdates]

omit [SerdeJson] in
theorem item?_putUpdates_of_ne {now : Int} {g k : String} (h : ∀ u ∈ us, (u.group, u.key) ≠ (g, k)) :
    item? (putUpdates us now draft) g k = item? draft g k := by
  unfold putUpdates
  induction us generalizing draft with
  | nil => rfl
  | cons u us ih =>
    obtain ⟨hu, hus⟩ := List.forall_mem_cons.mp h
    rw [List.foldl_cons, ih hus, item?_setItem, if_neg]
    rintro ⟨rfl, rfl⟩
    exact hu rfl

omit [SerdeJson] in
theorem item?_putUpdates_of_mem {now : Int} (hn : (us.map fun u => (u.group, u.key)).Nodup) {u : DraftUpdateItem}
    (hu : u ∈ us) : item? (putUpdates us now draft) u.group u.key = some { value := u.value, updatedAt := now } := by
  induction us generalizing draft with
  | nil => cases hu
  | cons u' us ih =>
    obtain ⟨hu', hus⟩ := List.nodup_cons.mp hn
    rcases List.mem_cons.mp hu with rfl | hu
    · have hne : ∀ v ∈ us, (v.group, v.key) ≠ (u.group, u.key) := fun v hv e => hu' (List.mem_map.mpr ⟨v, hv, e⟩)
      have hput : putUpdates (u :: us) now draft = putUpdates us now (setItem draft u.group u.key ⟨u.value, now⟩) := rfl
      rw [hput, item?_putUpdates_of_ne hne, item?_setItem, if_pos ⟨rfl, rfl⟩]
    · exact ih hus hu

end Update

/-! ## Encryption -/

section Encryption

variable [SerdeJson] {s s' : State} {t : Store} {encrypt : Encryptor} {secretKeys : List (String × String)}

/-- A text given for a secret item becomes a secret, everything else stays. -/
structure Sealed (secretKeys : List (String × String)) (u u' : DraftUpdateItem) : Prop where
  group : u'.group = u.group
  key : u'.key = u.key
  secret : (u.group, u.key) ∈ secretKeys → ∀ plain, u.value = .string plain → ∃ ct, u'.value = .secret ct
  same : ((u.group, u.key) ∉ secretKeys ∨ ∀ plain, u.value ≠ .string plain) → u'.value = u.value

omit [SerdeJson] in
theorem encryptUpdate_ok {i : Nat} {u u' : DraftUpdateItem}
    (h : (encryptUpdate encrypt secretKeys i u).exec s = (.ok u', s')) : Sealed secretKeys u u' ∧ s' = s := by
  unfold encryptUpdate at h
  by_cases hmem : (u.group, u.key) ∈ secretKeys
  · rw [if_pos hmem] at h
    split at h
    · rename_i plain hplain
      split at h
      · rename_i ct hct
        obtain ⟨rfl, rfl⟩ := pure_ok.mp h
        refine ⟨⟨rfl, rfl, fun _ _ _ => ⟨ct, rfl⟩, ?_⟩, rfl⟩
        rintro (hn | hn)
        · exact absurd hmem hn
        · exact absurd hplain (hn plain)
      · exact absurd h (by simp [fail_ok])
    · rename_i hplain
      obtain ⟨rfl, rfl⟩ := pure_ok.mp h
      exact ⟨⟨rfl, rfl, fun _ plain hp => absurd hp (hplain plain), fun _ => rfl⟩, rfl⟩
  · rw [if_neg hmem] at h
    obtain ⟨rfl, rfl⟩ := pure_ok.mp h
    exact ⟨⟨rfl, rfl, fun hm => absurd hm hmem, fun _ => rfl⟩, rfl⟩

omit [SerdeJson] in
theorem encryptAll_ok {l : List (DraftUpdateItem × Nat)} {us : List DraftUpdateItem}
    (h : (l.mapM fun e => encryptUpdate encrypt secretKeys e.2 e.1).exec s = (.ok us, s')) :
    List.Forall₂ (fun e u => Sealed secretKeys e.1 u) l us := by
  induction l generalizing us s s' with
  | nil =>
    rw [List.mapM_nil] at h
    obtain ⟨rfl, -⟩ := pure_ok.mp h
    exact .nil
  | cons e l ih =>
    rw [List.mapM_cons] at h
    obtain ⟨u, s₁, hu, h⟩ := Prog.exec_bind_ok.mp h
    obtain ⟨us', s₂, hus, h⟩ := Prog.exec_bind_ok.mp h
    obtain ⟨rfl, -⟩ := pure_ok.mp h
    exact .cons (encryptUpdate_ok hu).1 (ih hus)

def sealedKeys (cipher : Option Encryptor) (struct : Option Structure) : List (String × String) :=
  if cipher.isSome then itemKeys (fun d => d.ty = .secret) struct else []

theorem encryptSecretUpdates_ok (ht : WellPlaced t) {id : ProjectId} (hi : KV.Plain id) {cipher : Option Encryptor}
    {us us' : List DraftUpdateItem} (h : (encryptSecretUpdates cipher id us).eval t = .ok us') :
    List.Forall₂ (Sealed (sealedKeys cipher (structOf t id))) us us' := by
  cases cipher with
  | none =>
    obtain rfl : us = us' := Except.ok.inj h
    rw [List.forall₂_same]
    exact fun u _ => ⟨rfl, rfl, fun hm => absurd hm List.not_mem_nil, fun _ => rfl⟩
  | some encrypt =>
    have h : (getStructure id >>= fun struct => us.zipIdx.mapM fun e =>
        encryptUpdate encrypt (itemKeys (fun d => d.ty = .secret) struct) e.2 e.1).exec ⟨t, []⟩ = (.ok us', _) := Prod.ext h rfl
    obtain ⟨struct, hstruct, h⟩ := (loadMerged_readOnly _).exec_bind_ok.mp h
    obtain rfl : structOf t id = struct := Except.ok.inj ((getStructure_eval ht hi).symm.trans hstruct)
    have hall := encryptAll_ok h
    rw [← List.forall₂_map_left_iff (f := Prod.fst)] at hall
    rwa [List.zipIdx_map_fst] at hall

omit [SerdeJson] in
theorem keys_of_sealed {us us' : List DraftUpdateItem} (h : List.Forall₂ (Sealed secretKeys) us us') :
    us'.map (fun u => (u.group, u.key)) = us.map fun u => (u.group, u.key) := by
  induction h with
  | nil => rfl
  | cons hu _ ih => rw [List.map_cons, List.map_cons, ih, hu.group, hu.key]

end Encryption

/-! ## Promotion -/

section

variable [SerdeJson] {t t₀ t₁ t₂ t' : Store} {id : ProjectId} {req : PromoteReq} {plan : PromotePlan} {resp : PromoteResp}
  {cipher : Option Encryptor} {operator : String} {ts now : Int}

/-- The published values that a request selects. -/
def chosen (req : PromoteReq) (src : SnapshotMap) : List (String × String × Value) :=
  (entries src).filter (selects (promoteFilter req))

/-- What a plan says, made of a source, a draft and a structure. -/
structure PlanOf (req : PromoteReq) (src : SnapshotMap) (draft : ValueDraft) (struct : Option Structure)
    (plan : PromotePlan) : Prop where
  updates : plan.updates =
    ((chosen req src).filter (promotesEntry (itemKeys (·.shared) struct) draft req.force)).map DraftUpdateItem.ofEntry
  applied : plan.applied =
    ((chosen req src).filter (promotesEntry (itemKeys (·.shared) struct) draft req.force)).map nameOfEntry
  skipped : plan.skipped =
    ((chosen req src).filter fun e => !promotesEntry (itemKeys (·.shared) struct) draft req.force e).map nameOfEntry
  missingFrom : plan.missingFrom = (((promoteFilter req).getD []).filter fun e => (item? src e.1 e.2).isNone).map itemName

theorem promotePlan_ok (ht : WellPlaced t) (h : (promotePlan id req).eval t = .ok plan) :
    ∃ src dst, (getConfig id req.source 0).eval t = .ok src ∧ stateOf t id req.target = some dst ∧
      PlanOf req src.groups dst.valueDraft (structOf t id) plan := by
  have h : (promotePlan id req).exec ⟨t, []⟩ = (.ok plan, _) := Prod.ext h rfl
  unfold promotePlan at h
  obtain ⟨src, hsrc, h⟩ := (getConfig_within _ _ _).readOnly.exec_bind_ok.mp h
  obtain ⟨dst, hdst, h⟩ := getBranchState_bind h
  obtain ⟨struct, hstruct, h⟩ := (loadMerged_readOnly _).exec_bind_ok.mp h
  have hn := named_of_stateOf ht hdst
  obtain rfl : structOf t id = struct := Except.ok.inj ((getStructure_eval ht hn.plain.1).symm.trans hstruct)
  obtain ⟨rfl, -⟩ := pure_ok.mp h
  refine ⟨src, dst, hsrc, hdst, ?_, ?_, ?_, rfl⟩
  · simp only [foldl_promoteStep, List.nil_append, chosen]
  · simp only [foldl_promoteStep, List.nil_append, chosen]
  · simp only [foldl_promoteStep, List.nil_append, chosen]

/-- Only the draft of one branch is changed: the items of `us` are written into it, and it is read back. -/
structure Drafted (t t' : Store) (id : ProjectId) (b : BranchName) (at_ : Int) (us : List DraftUpdateItem) : Prop where
  elsewhere : ∀ k, k ≠ branchStateKey id b → t'[k]? = t[k]?
  state : ∃ st draft, stateOf t id b = some st ∧
    stateOf t' id b = some { st with valueDraft := draft, draftRev := st.draftRev + 1 } ∧
    (∀ u ∈ us, item? draft u.group u.key = some { value := rereadValue u.value, updatedAt := at_ }) ∧
    ∀ g k, (∀ u ∈ us, (u.group, u.key) ≠ (g, k)) → item? draft g k = (item? st.valueDraft g k).map rereadDraftValue

theorem draftUpdate_ok {b : BranchName} {us : List DraftUpdateItem} {events : List PublishEvent}
    (hus : (us.map fun u => (u.group, u.key)).Nodup)
    (h : (apply (.draftUpdate id b us [] [] operator ts none) now t).result = .ok events) :
    Accepts t id b us ∧
      Drafted t (apply (.draftUpdate id b us [] [] operator ts none) now t).store id b (effTs ts now) us := by
  obtain ⟨s, hs, hstore, -⟩ := apply_ok h
  obtain ⟨hacc, -, st, hst, rfl⟩ := (applyDraftUpdate_ok (o := operator)).mp hs
  rw [hstore, KV.Flat.insert_kv]
  refine ⟨hacc, fun k hk => KV.getElem?_insert_ne t (Ne.symm hk) _, st,
    rereadDraft (putUpdates us (effTs ts now) st.valueDraft), hst, ?_, ?_, ?_⟩
  · rw [stateOf, entity_insert]
    rfl
  · intro u hu
    rw [item?_rereadDraft, item?_putUpdates_of_mem hus hu]
    rfl
  · intro g k hne
    rw [item?_rereadDraft, item?_putUpdates_of_ne hne]

theorem draftUpdate_of_accepts {b : BranchName} {us : List DraftUpdateItem} (h : Accepts t id b us) (operator : String)
    (ts now : Int) :
    ∃ events, (apply (.draftUpdate id b us [] [] operator ts none) now t).result = .ok events := by
  have ⟨st, struct, hst, hrest⟩ := h
  have hexec := (applyDraftUpdate_ok (s := ⟨t, []⟩) (n := effTs ts now) (o := operator)).mpr ⟨h, rfl, st, hst, rfl⟩
  exact ⟨[], by rw [apply_result]; exact congrArg Prod.fst hexec⟩

/-- A promotion reports what it chose in the state it read, and writes just that, over whatever the draft has by then;
it goes through exactly when the structure and the draft it meets take all of it. -/
theorem promote_exact (cipher : Option Encryptor) (operator : String) (ts now : Int) (h₀ : Reachable t₀)
    (h₁ : Reachable t₁) (h₂ : Reachable t₂) (hplan : (promotePlan id req).eval t₀ = .ok plan) :
    (∃ src dst, (getConfig id req.source 0).eval t₀ = .ok src ∧ stateOf t₀ id req.target = some dst ∧
      PlanOf req src.groups dst.valueDraft (structOf t₀ id) plan ∧
      (plan.applied ++ plan.skipped).Perm ((chosen req src.groups).map nameOfEntry) ∧
      (plan.updates.map fun u => (u.group, u.key)).Nodup) ∧
    (plan.updates = [] → promote cipher id req operator ts now t₀ t₁ t₂ = (.ok plan.resp, t₂)) ∧
    ∀ us, plan.updates ≠ [] → (encryptSecretUpdates cipher id plan.updates).eval t₁ = .ok us →
      List.Forall₂ (Sealed (sealedKeys cipher (structOf t₁ id))) plan.updates us ∧
      (Accepts t₂ id req.target us → ∃ t', promote cipher id req operator ts now t₀ t₁ t₂ = (.ok plan.resp, t') ∧
        Drafted t₂ t' id req.target (effTs ts now) us) ∧
      (¬ Accepts t₂ id req.target us → ∃ e, promote cipher id req operator ts now t₀ t₁ t₂ = (.error e, t₂)) := by
  obtain ⟨src, dst, hsrc, hdst, hp⟩ := promotePlan_ok (wellPlaced_of_reach h₀) hplan
  have hi := (named_of_stateOf (wellPlaced_of_reach h₀) hdst).plain.1
  have hnodup : (plan.updates.map fun u => (u.group, u.key)).Nodup := by
    rw [hp.updates, List.map_map]
    exact (nodup_entries src.groups).sublist ((List.filter_sublist.trans List.filter_sublist).map _)
  refine ⟨⟨src, dst, hsrc, hdst, hp, ?_, hnodup⟩, ?_, ?_⟩
  · rw [hp.applied, hp.skipped, ← List.map_append]
    exact (List.filter_append_perm _ _).map _
  · intro hnil
    unfold promote
    rw [hplan]
    exact if_pos hnil
  · intro us hne hus
    have hsealed := encryptSecretUpdates_ok (wellPlaced_of_reach h₁) hi hus
    have hkeys := keys_of_sealed hsealed
    have hpromote : promote cipher id req operator ts now t₀ t₁ t₂ =
        ((writeCommand (.draftUpdate id req.target us [] [] operator ts none) now t₂).1.map fun _ => plan.resp,
          (writeCommand (.draftUpdate id req.target us [] [] operator ts none) now t₂).2) := by
      unfold promote
      rw [hplan]
      dsimp only
      rw [if_neg hne, hus]
    refine ⟨hsealed, fun hacc => ?_, fun hacc => ?_⟩
    · obtain ⟨events, hok⟩ := draftUpdate_of_accepts hacc operator ts now
      refine ⟨_, ?_, (draftUpdate_ok (hkeys ▸ hnodup) hok).2⟩
      rw [hpromote, writeCommand_ok hok]
      rfl
    · cases hr : (apply (.draftUpdate id req.target us [] [] operator ts none) now t₂).result with
      | ok events => exact absurd (draftUpdate_ok (hkeys ▸ hnodup) hr).1 hacc
      | error e =>
        have hstore := store_of_error (wellPlaced_of_reach h₂) hr fun _ h => absurd h not_false
        refine ⟨e, ?_⟩
        rw [hpromote]
        unfold writeCommand
        dsimp only
        rw [hr, hstore]
        rfl

end

section
attribute [local instance] sampleJson

def publishedLog : List (Command × Int) := [
  (.projectCreate "p" "" 0 none, 1),
  (.structureDraftSet "p" 1 [{ name := "g", items := [{ key := "k", ty := .string }] }] "", 2),
  (.publishStructure "p" "" "r0" "" 0 .block, 3),
  (.draftUpdate "p" "dev" [⟨"g", "k", .string "v"⟩] [] [] "" 0 none, 4),
  (.publish "p" "dev" "" "r1" "" 0 .block, 5)]

def overtakenLog : List (Command × Int) :=
  publishedLog ++ [(.draftUpdate "p" "prod" [⟨"g", "k", .string "w"⟩] [] [] "" 0 none, 6)]

/-- Without force, the promotion writes over the draft that it has not seen. -/
theorem promote_exact_sample :
    ∃ t', promote none "p" { source := "dev", target := "prod" } "" 0 9 (runLog publishedLog) (runLog publishedLog)
        (runLog overtakenLog) = (.ok { applied := ["g/k"], skipped := [], missingFrom := [] }, t') ∧
      Drafted (runLog overtakenLog) t' "p" "prod" 9 [⟨"g", "k", .string "v"⟩] := by
  have hplan : ((promotePlan "p" { source := "dev", target := "prod" }).eval (runLog publishedLog)).toOption.map
      (fun plan => (plan.updates, plan.resp)) =
        some ([⟨"g", "k", .string "v"⟩], { applied := ["g/k"], skipped := [], missingFrom := [] }) := by decide +kernel
  have hok : (promote none "p" { source := "dev", target := "prod" } "" 0 9 (runLog publishedLog) (runLog publishedLog)
      (runLog overtakenLog)).1.toOption.isSome = true := by decide +kernel
  cases hp : (promotePlan "p" { source := "dev", target := "prod" }).eval (runLog publishedLog) with
  | error e => rw [hp] at hplan; cases hplan
  | ok plan =>
    rw [hp] at hplan
    obtain ⟨hupdates, hresp⟩ := Prod.mk.inj (Option.some.inj hplan)
    have hne : plan.updates ≠ [] := fun hnil => by rw [hnil] at hupdates; cases hupdates
    have hall := promote_exact none "" 0 9 (reachable_runLog publishedLog)
      (reachable_runLog publishedLog) (reachable_runLog overtakenLog) hp
    obtain ⟨-, hdrafted, hfailed⟩ := hall.2.2 plan.updates hne rfl
    by_cases hacc : Accepts (runLog overtakenLog) "p" "prod" plan.updates
    · obtain ⟨t', ht', hd⟩ := hdrafted hacc
      rw [hupdates] at hd
      exact ⟨t', hresp ▸ ht', hd⟩
    · obtain ⟨e, he⟩ := hfailed hacc
      rw [he] at hok
      cases hok

end

end Defing
